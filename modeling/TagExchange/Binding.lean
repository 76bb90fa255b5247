import TagExchange.Network.Text
import TagExchange.Instant

/-!
# Bindings

A binding gives the addresses of a network a security group tag. Its path lists the nodes it
came through, the latest first; a binding of this node has no path.
-/

namespace TagExchange

structure Binding where
  net : Network
  tag : UInt16
  path : List NodeId
  stamp : Instant
  deriving DecidableEq, Repr

namespace Binding

/-- The number of hops. -/
def distance (b : Binding) : Nat := b.path.length

/-- The neighbour that sent the binding, if any. -/
def learnedFrom (b : Binding) : Option NodeId := b.path.head?

def clean (b : Binding) : Binding := { b with net := b.net.clean }

@[simp] theorem clean_clean (b : Binding) : b.clean.clean = b.clean := by simp [clean]

def text (b : Binding) : String :=
  let hops := " ".intercalate (b.path.map Addr4.text)
  s!"{b.net.text} sgt={b.tag.toNat} peers=[{hops}]"

/-- Whether a candidate takes the place of the binding that holds its network: the shorter path
wins, and of equal paths the later one. -/
def supersedes (candidate : Binding) : Option Binding → Bool
  | none => true
  | some holder =>
    candidate.distance < holder.distance ||
      (candidate.distance == holder.distance && decide (holder.stamp < candidate.stamp))

@[simp] theorem supersedes_none (b : Binding) : b.supersedes none = true := rfl

theorem supersedes_some_iff {b holder : Binding} :
    b.supersedes (some holder) = true ↔
      b.distance < holder.distance ∨
        (b.distance = holder.distance ∧ holder.stamp < b.stamp) := by
  simp [supersedes]

theorem not_supersedes_self (b : Binding) : b.supersedes (some b) = false := by
  simp [supersedes, Instant.lt_irrefl]

end Binding

end TagExchange
