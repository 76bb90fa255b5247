import TagExchange.Network

/-!
# The hosts of a network

Counting up from the network address. A network has two to the number of its open bits hosts.
-/

namespace TagExchange

/-- The number of addresses that a block covers. -/
def Net.size {w : Nat} (n : Net w) : Nat := 1 <<< n.hostBits

def Network.size : Network → Nat
  | .v4 n => n.size
  | .v6 n => n.size

/-- The first `limit` hosts of a block, or all of them when it has fewer. -/
def Net.hosts {w : Nat} (n : Net w) (limit : Nat) : List (Net w) :=
  (List.range (min n.size limit)).map fun i => .host (n.addr + BitVec.ofNat w i)

def Network.hosts : Network → Nat → List Network
  | .v4 n, limit => (n.hosts limit).map .v4
  | .v6 n, limit => (n.hosts limit).map .v6

@[simp] theorem Net.length_hosts {w : Nat} (n : Net w) (limit : Nat) :
    (n.hosts limit).length = min n.size limit := by
  simp [Net.hosts]

@[simp] theorem Network.length_hosts (n : Network) (limit : Nat) :
    (n.hosts limit).length = min n.size limit := by
  cases n <;> simp [Network.hosts, Network.size]

end TagExchange
