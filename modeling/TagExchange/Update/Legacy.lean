import TagExchange.Expansion
import TagExchange.Update

/-!
# Legacy updates

A peer of version 1 takes IPv4 only, and only version 3 takes subnets. Other peers get the hosts of
a subnet, as many as are asked for.
-/

namespace TagExchange.LegacyUpdate

def takesSubnets (v : Version) : Bool := Capability.subnetBindings ∈ Capability.ofVersion v

/-- The bindings that a peer of a version can be told about in place of the given ones. -/
def usable (v : Version) (quantity : Nat) (bs : List Binding) : List Binding :=
  let bs := if takesSubnets v then bs else Binding.expandAll quantity bs
  bs.filter fun b => (v != .v1 || b.net.isV4) && (takesSubnets v || b.net.isHost)

def deleteRecord (b : Binding) : MappingRecord := ⟨.deleting b.net, b.net, none⟩

def addRecord (b : Binding) : Except Fault MappingRecord :=
  (Tag.of? b.tag.toNat).map fun tag => ⟨.adding b.net, b.net, some tag⟩

/-- The records that take `delete` away and add what the filter lets pass. -/
def compose (v : Version) (quantity : Nat) (filter : Filter) (delete add : List Binding) :
    Except Fault (List MappingRecord) := do
  let deleted := (usable v quantity delete).map deleteRecord
  let added ← (usable v quantity (add.filter fun b => !filter b)).mapM addRecord
  return deleted ++ added

/-- What one record does; an added binding came from the peer itself. -/
def apply (peer : NodeId) (stamp : Instant) (c : Changes) (r : MappingRecord) : Changes :=
  match r.tag with
  | some tag =>
    if r.type.isAdd then { c with add := c.add ++ [⟨r.net, tag.value, [peer], stamp⟩] }
    else { c with delete := c.delete ++ [r.net] }
  | none => { c with delete := c.delete ++ [r.net] }

def changes (peer : NodeId) (stamp : Instant) (records : List MappingRecord) : Changes :=
  records.foldl (apply peer stamp) {}

end TagExchange.LegacyUpdate
