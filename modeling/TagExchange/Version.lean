/-!
# Versions, modes and capabilities

Versions 1 to 3 are the legacy family; version 4 adds attributes. A speaker sends bindings, a
listener receives them, and a node can do both. A version implies what its nodes can take.
-/

namespace TagExchange

inductive Version where
  | v1
  | v2
  | v3
  | v4
  deriving DecidableEq, Repr

namespace Version

def number : Version → Nat
  | v1 => 1
  | v2 => 2
  | v3 => 3
  | v4 => 4

def ofNumber? : Nat → Option Version
  | 1 => some v1
  | 2 => some v2
  | 3 => some v3
  | 4 => some v4
  | _ => none

@[simp] theorem ofNumber?_number (v : Version) : ofNumber? v.number = some v := by
  cases v <;> rfl

def isLegacy (v : Version) : Bool := v != v4

def text (v : Version) : String := toString v.number

instance : Min Version := ⟨fun a b => if a.number ≤ b.number then a else b⟩

end Version

inductive Mode where
  | speaker
  | listener
  | both
  deriving DecidableEq, Repr

namespace Mode

def number : Mode → Nat
  | speaker => 1
  | listener => 2
  | both => 3

def ofNumber? : Nat → Option Mode
  | 1 => some speaker
  | 2 => some listener
  | 3 => some both
  | _ => none

@[simp] theorem ofNumber?_number (m : Mode) : ofNumber? m.number = some m := by
  cases m <;> rfl

/-- Whether nodes in these modes can be peers. -/
def complements : Mode → Mode → Bool
  | speaker, listener => true
  | listener, speaker => true
  | both, both => true
  | _, _ => false

def isSpeaker (m : Mode) : Bool := m != listener

def isListener (m : Mode) : Bool := m != speaker

def text : Mode → String
  | speaker => "speaker"
  | listener => "listener"
  | both => "both"

end Mode

inductive Capability where
  | ipv4Unicast
  | ipv6Unicast
  | subnetBindings
  deriving DecidableEq, Repr

namespace Capability

def code : Capability → Nat
  | ipv4Unicast => 1
  | ipv6Unicast => 2
  | subnetBindings => 3

def ofCode? : Nat → Option Capability
  | 1 => some ipv4Unicast
  | 2 => some ipv6Unicast
  | 3 => some subnetBindings
  | _ => none

@[simp] theorem ofCode?_code (c : Capability) : ofCode? c.code = some c := by
  cases c <;> rfl

def name : Capability → String
  | ipv4Unicast => "Ipv4Unicast"
  | ipv6Unicast => "Ipv6Unicast"
  | subnetBindings => "SubnetBindings"

/-- What a node of a version can take, in the order it says so. -/
def ofVersion : Version → List Capability
  | .v1 => [ipv4Unicast]
  | .v2 => [ipv6Unicast, ipv4Unicast]
  | .v3 => [subnetBindings, ipv6Unicast, ipv4Unicast]
  | .v4 => [subnetBindings, ipv6Unicast, ipv4Unicast]

end Capability

/-- Where a connection stands. -/
inductive Phase where
  | off
  | pendingOn
  | on
  deriving DecidableEq, Repr

def Phase.text : Phase → String
  | .off => "off"
  | .pendingOn => "pending-on"
  | .on => "on"

end TagExchange
