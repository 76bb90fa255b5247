import TagExchange.Table

/-!
# Best paths

A batch of candidates is resolved against the bindings that hold their networks. Candidates are
heard in order. Each is cleaned first, default routes are passed over, and a candidate competes
with the winner so far or, while there is none, with the holder.
-/

namespace TagExchange

/-- The winners so far, and the network of every win in order. -/
structure Contest where
  winners : Table := ∅
  wins : List Network := []

namespace Contest

def hear (holder : Network → Option Binding) (c : Contest) (candidate : Binding) : Contest :=
  let b := candidate.clean
  if b.net.isDefault then c
  else if b.supersedes (c.winners[b.net]? <|> holder b.net) then
    { winners := c.winners.file b, wins := c.wins ++ [b.net] }
  else c

def resolve (holder : Network → Option Binding) (batch : List Binding) : Contest :=
  batch.foldl (hear holder) {}

end Contest

end TagExchange
