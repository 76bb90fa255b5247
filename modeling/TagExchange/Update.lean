import TagExchange.Binding
import TagExchange.Message

/-!
# What updates say

An update takes networks away and adds bindings. A version 4 update lists the networks that are
taken away first, one attribute for each family. Added bindings follow in runs of equal path and
tag: the path, the tag, then the networks of each family. Reading keeps the path and the tag last
seen; announcing networks before either is a fault. A legacy update has a record for each network,
and what it adds came over one hop.
-/

namespace TagExchange

/-- What an update does to the database of the node that receives it. -/
structure Changes where
  add : List Binding := []
  delete : List Network := []
  deriving DecidableEq, Repr

namespace Changes

def isEmpty (c : Changes) : Bool := c.add.isEmpty && c.delete.isEmpty

end Changes

/-- A filter says which bindings are held back. -/
abbrev Filter := Binding → Bool

/-- Consecutive bindings of one path and one tag. -/
structure Run where
  path : List NodeId
  tag : UInt16
  nets : List Network
  deriving DecidableEq, Repr

namespace Run

/-- Puts a binding in front: into the first run where it fits, else into a run of its own. -/
def cons (b : Binding) : List Run → List Run
  | [] => [⟨b.path, b.tag, [b.net]⟩]
  | r :: rest =>
    if r.path = b.path ∧ r.tag = b.tag then { r with nets := b.net :: r.nets } :: rest
    else ⟨b.path, b.tag, [b.net]⟩ :: r :: rest

def ofBindings (bs : List Binding) : List Run := bs.foldr cons []

end Run

namespace Update

/-- One attribute for a list, none for an empty list. -/
def listed {α : Type} (flags : UInt8) (value : List α → AttributeValue) (xs : List α) :
    List Attribute :=
  if xs.isEmpty then [] else [.of flags (value xs)]

def withdrawn (delete : List Binding) : List Attribute :=
  let nets := delete.map Binding.net
  listed Flags.wellKnown .withdraw4 (nets.filterMap Network.v4?) ++
    listed Flags.wellKnown .withdraw6 (nets.filterMap Network.v6?)

/-- The flags of announced networks: a peer need not understand a family it did not declare. -/
def announceFlags (capabilities : List Capability) (family : Capability) : UInt8 :=
  if family ∈ capabilities then Flags.wellKnown else Flags.optionalCompact

def announced (id : NodeId) (capabilities : List Capability) (r : Run) :
    Except Fault (List Attribute) := do
  let tag ← Tag.of? r.tag.toNat
  return [.wellKnown (.path (id :: r.path)), .wellKnown (.tag tag)] ++
    listed (announceFlags capabilities .ipv4Unicast) .announce4 (r.nets.filterMap Network.v4?) ++
    listed (announceFlags capabilities .ipv6Unicast) .announce6 (r.nets.filterMap Network.v6?)

/-- The update that takes `delete` away and adds what the filter lets pass, for a peer with the
given capabilities. The node puts its id in front of every path. -/
def compose (id : NodeId) (capabilities : List Capability) (filter : Filter)
    (delete add : List Binding) : Except Fault (List Attribute) := do
  let runs := Run.ofBindings (add.filter fun b => !filter b)
  let parts ← runs.mapM (announced id capabilities)
  return withdrawn delete ++ parts.flatten

/-- What has been read of an update. -/
structure Reading where
  path : Option (List NodeId) := none
  tag : Option Tag := none
  changes : Changes := {}

namespace Reading

def announce (stamp : Instant) (r : Reading) (nets : List Network) : Except Fault Reading :=
  match r.path, r.tag with
  | none, _ => .error .peerSequenceMissing
  | some _, none => .error .tagMissing
  | some path, some tag =>
    let added := nets.map fun net => { net, tag := tag.value, path, stamp : Binding }
    .ok { r with changes := { r.changes with add := r.changes.add ++ added } }

def withdraw (r : Reading) (nets : List Network) : Reading :=
  { r with changes := { r.changes with delete := r.changes.delete ++ nets } }

def next (stamp : Instant) (r : Reading) (a : Attribute) : Except Fault Reading :=
  match a.value with
  | .withdraw4 nets => .ok (r.withdraw (nets.map .v4))
  | .withdraw6 nets => .ok (r.withdraw (nets.map .v6))
  | .path ids => .ok { r with path := some ids }
  | .tag t => .ok { r with tag := some t }
  | .announce4 nets => r.announce stamp (nets.map .v4)
  | .announce6 nets => r.announce stamp (nets.map .v6)
  | _ => .ok r

end Reading

/-- What the attributes of an update say, the added bindings stamped with the given instant. -/
def changes (stamp : Instant) (attributes : List Attribute) : Except Fault Changes :=
  (attributes.foldlM (Reading.next stamp) {}).map Reading.changes

end Update

end TagExchange
