import TagExchange.Bytes

/-!
# Addresses

An address is its bits. Four octets make an IPv4 address, sixteen an IPv6 address, and a node
id has the shape of an IPv4 address. IPv4 addresses come before IPv6 addresses; within a family
the order is numeric.
-/

namespace TagExchange

abbrev Addr4 := BitVec 32
abbrev Addr6 := BitVec 128

/-- The identity a node advertises to its peers. -/
abbrev NodeId := Addr4

inductive Address where
  | v4 : Addr4 → Address
  | v6 : Addr6 → Address
  deriving DecidableEq, Repr

def octets {w : Nat} (a : BitVec w) : Bytes := wordBytes (w / 8) a.toNat

def ofOctets (w : Nat) (bs : Bytes) : BitVec w := BitVec.ofNat w (word bs)

@[simp] theorem length_octets {w : Nat} (a : BitVec w) : (octets a).length = w / 8 := by
  simp [octets]

namespace Address

/-- The all-zero address of either family. -/
def isUnspecified : Address → Bool
  | v4 a => a == 0
  | v6 a => a == 0

def isV4 : Address → Bool
  | v4 _ => true
  | v6 _ => false

def octets : Address → Bytes
  | v4 a => TagExchange.octets a
  | v6 a => TagExchange.octets a

instance : Ord Address where
  compare
    | v4 a, v4 b => compare a b
    | v4 _, v6 _ => .lt
    | v6 _, v4 _ => .gt
    | v6 a, v6 b => compare a b

end Address

end TagExchange
