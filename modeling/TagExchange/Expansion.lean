import TagExchange.Binding
import TagExchange.Network.Expansion

/-!
# Expanding bindings

A peer that takes single addresses only is told about the first hosts of a subnet in its place.
-/

namespace TagExchange

namespace Binding

/-- A binding for each of the first hosts of the network; a host binding stays as it is. -/
def expand (quantity : Nat) (b : Binding) : List Binding :=
  if b.net.isHost then [b] else (b.net.hosts quantity).map fun net => { b with net }

/-- Host bindings in their order, then the hosts of every subnet. Quantity zero expands nothing
and leaves the list as it is. -/
def expandAll (quantity : Nat) (bs : List Binding) : List Binding :=
  if quantity = 0 then bs
  else
    bs.filter (fun b => b.net.isHost) ++
      (bs.filter fun b => !b.net.isHost).flatMap (expand quantity)

end Binding

end TagExchange
