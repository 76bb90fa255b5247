import TagExchange.Fault

/-!
# Choosing a local address

A node that was given no identity takes one from its interfaces. Addresses are handed out in turn,
from the last in order to the first and then from the last again. The position is counted from the
end, so it keeps its meaning when the list of addresses changes; a position beyond the list counts
as the last address.
-/

namespace TagExchange

structure Interface where
  name : String
  up : Bool
  tunnel : Bool
  v4 : List Addr4
  v6 : List Addr6
  deriving DecidableEq, Repr

/-- The addresses of the interfaces that are up and no tunnels. -/
def localAddresses (interfaces : List Interface) : List Address :=
  (interfaces.filter fun i => i.up && !i.tunnel).flatMap fun i =>
    i.v4.map .v4 ++ i.v6.map .v6

/-- The place of the next address, counted from the end of the list. -/
structure Rotation where
  place : Nat := 1
  pos : 0 < place := by decide
  deriving DecidableEq, Repr

namespace Rotation

/-- A rotation that has yet to hand out the last address, as a new one or one that starts over. -/
def start : Rotation := {}

/-- The place in a list of `n` addresses. -/
def placeIn (r : Rotation) (n : Nat) : Nat := if n < r.place then 1 else r.place

/-- The place after a place in a list of `n` addresses. -/
def after (place n : Nat) : Rotation := if n < place + 1 then {} else ⟨place + 1, by omega⟩

def ordered (addresses : List Address) : List Address :=
  addresses.mergeSort fun a b => (compare a b).isLE

@[simp] theorem length_ordered (addresses : List Address) :
    (ordered addresses).length = addresses.length := by
  simp [ordered]

theorem placeIn_pos (r : Rotation) (n : Nat) : 0 < r.placeIn n := by
  rw [placeIn]
  split
  · decide
  · exact r.pos

theorem placeIn_le (r : Rotation) {n : Nat} (h : 0 < n) : r.placeIn n ≤ n := by
  rw [placeIn]
  split <;> omega

/-- The address whose turn it is, and the rotation after it. -/
def select (r : Rotation) (addresses : List Address) : Except Fault (Address × Rotation) :=
  if h : addresses = [] then .error .noInterfaces
  else
    let n := (ordered addresses).length
    let place := r.placeIn n
    have hn : 0 < n := by simpa [n] using List.length_pos_iff.2 h
    have := r.placeIn_pos n
    .ok ((ordered addresses)[n - place], after place n)

/-- A local address to advertise. -/
def address (r : Rotation) (interfaces : List Interface) : Except Fault (Address × Rotation) :=
  r.select (localAddresses interfaces)

/-- A node id from the local IPv4 addresses. -/
def nodeId (r : Rotation) (interfaces : List Interface) : Except Fault (NodeId × Rotation) := do
  match ← r.select ((localAddresses interfaces).filter Address.isV4) with
  | (.v4 a, r) => return (a, r)
  | (.v6 _, _) => throw .noInterfaces

end Rotation

end TagExchange
