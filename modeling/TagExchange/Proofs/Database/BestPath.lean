import TagExchange.BestPath
import TagExchange.Proofs.Database.Tables

/-!
# Contests

What hearing one candidate does to a contest (`Contest.getElem?_hear_self`), and what every contest
keeps: winners are canonical, no default routes, filed under their own networks, and the wins name
exactly the networks of the winners (`Contest.Sound`).
-/

namespace TagExchange

namespace Contest

variable {holder : Network → Option Binding}

/-- A candidate takes the network when it is no default route and supersedes who holds it. -/
def Takes (holder : Network → Option Binding) (c : Contest) (b : Binding) : Prop :=
  b.clean.net.isDefault = false ∧
    b.clean.supersedes (c.winners[b.clean.net]? <|> holder b.clean.net) = true

theorem hear_of_takes {c : Contest} {b : Binding} (h : c.Takes holder b) :
    hear holder c b = ⟨c.winners.file b.clean, c.wins ++ [b.clean.net]⟩ := by
  rw [hear]
  simp only [h.1, Bool.false_eq_true, if_false]
  rw [if_pos h.2]

theorem hear_of_not_takes {c : Contest} {b : Binding} (h : ¬ c.Takes holder b) :
    hear holder c b = c := by
  rw [hear]
  by_cases hd : b.clean.net.isDefault = true
  · simp [hd]
  · have hs : ¬ b.clean.supersedes (c.winners[b.clean.net]? <|> holder b.clean.net) = true := by
      intro hs
      exact h ⟨by simpa using hd, hs⟩
    simp only [hd]
    rw [if_neg hs]
    rfl

/-- Only the network of the candidate is affected. -/
theorem getElem?_hear_of_ne {c : Contest} {b : Binding} {n : Network} (h : b.clean.net ≠ n) :
    (hear holder c b).winners[n]? = c.winners[n]? := by
  by_cases ht : c.Takes holder b
  · rw [hear_of_takes ht, Table.getElem?_file, if_neg h]
  · rw [hear_of_not_takes ht]

/-- What every contest keeps. -/
structure Sound (c : Contest) : Prop where
  filed : c.winners.Filed
  clean : ∀ (n : Network) (b : Binding), c.winners[n]? = some b → b.clean = b
  specific : ∀ (n : Network) (b : Binding), c.winners[n]? = some b → n.isDefault = false
  wins : ∀ n : Network, n ∈ c.wins ↔ ∃ b, c.winners[n]? = some b

theorem Sound.empty : Sound {} where
  filed := Table.Filed.empty
  clean := by simp
  specific := by simp
  wins := by simp

theorem Sound.hear {c : Contest} (h : c.Sound) (b : Binding) : (Contest.hear holder c b).Sound := by
  by_cases ht : c.Takes holder b
  · rw [hear_of_takes ht]
    have hget (n : Network) : (c.winners.file b.clean)[n]? =
        if b.clean.net = n then some b.clean else c.winners[n]? := Table.getElem?_file ..
    refine ⟨h.filed.file _, ?_, ?_, ?_⟩
    · intro n w hw
      dsimp only at hw
      rw [hget] at hw
      split at hw
      · cases hw
        exact Binding.clean_clean b
      · exact h.clean n w hw
    · intro n w hw
      dsimp only at hw
      rw [hget] at hw
      split at hw
      · next hn => exact hn ▸ ht.1
      · exact h.specific n w hw
    · intro n
      dsimp only
      rw [hget, List.mem_append, h.wins]
      by_cases hn : b.clean.net = n
      · simp [hn]
      · have hn' : ¬ n = b.clean.net := fun h => hn h.symm
        simp [hn, hn']
  · rw [hear_of_not_takes ht]
    exact h

theorem Sound.foldl {c : Contest} (h : c.Sound) (batch : List Binding) :
    (batch.foldl (Contest.hear holder) c).Sound := by
  induction batch generalizing c with
  | nil => exact h
  | cons b batch ih => exact ih (h.hear b)

theorem resolve_sound (holder : Network → Option Binding) (batch : List Binding) :
    (resolve holder batch).Sound :=
  Sound.empty.foldl batch

theorem winner_of_foldl {batch : List Binding} {c : Contest} {n : Network} {b : Binding}
    (h : (batch.foldl (hear holder) c).winners[n]? = some b) :
    c.winners[n]? = some b ∨ ∃ q ∈ batch, q.clean = b := by
  induction batch generalizing c with
  | nil => exact .inl h
  | cons q batch ih =>
    rcases ih h with h | ⟨r, hr, rfl⟩
    · by_cases ht : c.Takes holder q
      · rw [hear_of_takes ht, Table.getElem?_file] at h
        split at h
        · exact .inr ⟨q, by simp, Option.some.inj h⟩
        · exact .inl h
      · rw [hear_of_not_takes ht] at h
        exact .inl h
    · exact .inr ⟨r, by simp [hr], rfl⟩

/-- A winner is one of the batch, cleaned. -/
theorem winner_of_resolve {batch : List Binding} {n : Network} {b : Binding}
    (h : (resolve holder batch).winners[n]? = some b) : ∃ q ∈ batch, q.clean = b := by
  rcases winner_of_foldl h with h | h
  · simp at h
  · exact h

/-- A candidate of its own network that comes as it will be filed. -/
structure Proper (b : Binding) : Prop where
  clean : b.clean = b
  specific : b.net.isDefault = false

theorem getElem?_hear_self {c : Contest} {b : Binding} (h : Proper b) :
    (hear holder c b).winners[b.net]? =
      if b.supersedes (c.winners[b.net]? <|> holder b.net) then some b
      else c.winners[b.net]? := by
  by_cases hs : b.supersedes (c.winners[b.net]? <|> holder b.net) = true
  · have ht : c.Takes holder b := by
      rw [Takes, h.clean]
      exact ⟨h.specific, hs⟩
    rw [hear_of_takes ht, if_pos hs, h.clean, Table.getElem?_file, if_pos rfl]
  · have ht : ¬ c.Takes holder b := by
      rw [Takes, h.clean]
      exact fun ht => hs ht.2
    rw [hear_of_not_takes ht, if_neg hs]

theorem getElem?_foldl_of_notMem {batch : List Binding} (hproper : ∀ b ∈ batch, Proper b)
    {n : Network} (hn : n ∉ batch.map Binding.net) (c : Contest) :
    (batch.foldl (hear holder) c).winners[n]? = c.winners[n]? := by
  induction batch generalizing c with
  | nil => rfl
  | cons b batch ih =>
    rw [List.map_cons, List.mem_cons, not_or] at hn
    have hne : b.clean.net ≠ n := by
      rw [(hproper b (by simp)).clean]
      exact fun h => hn.1 h.symm
    rw [List.foldl_cons, ih (fun q hq => hproper q (by simp [hq])) hn.2, getElem?_hear_of_ne hne]

/-- Where nobody competes for the network in the batch, only the holder counts. -/
theorem getElem?_resolve (holder : Network → Option Binding) {batch : List Binding}
    (hproper : ∀ b ∈ batch, Proper b) (hnodup : (batch.map Binding.net).Nodup) {b : Binding}
    (hb : b ∈ batch) :
    (resolve holder batch).winners[b.net]? =
      if b.supersedes (holder b.net) then some b else none := by
  obtain ⟨front, back, rfl⟩ := List.append_of_mem hb
  have hfront : b.net ∉ front.map Binding.net := by
    intro hmem
    rw [List.map_append, List.nodup_append] at hnodup
    exact hnodup.2.2 b.net hmem b.net (by simp) rfl
  have hback : b.net ∉ back.map Binding.net := by
    rw [List.map_append, List.nodup_append, List.map_cons, List.nodup_cons] at hnodup
    exact hnodup.2.1.1
  have hfrontProper : ∀ q ∈ front, Proper q := fun q hq => hproper q (by simp [hq])
  have hbackProper : ∀ q ∈ back, Proper q := fun q hq => hproper q (by simp [hq])
  have hnone : (front.foldl (hear holder) {}).winners[b.net]? = none := by
    rw [getElem?_foldl_of_notMem hfrontProper hfront]
    simp
  rw [resolve, List.foldl_append, List.foldl_cons, getElem?_foldl_of_notMem hbackProper hback,
    getElem?_hear_self (hproper b hb), hnone]
  rfl

theorem getElem?_resolve_of_notMem {batch : List Binding} (hproper : ∀ b ∈ batch, Proper b)
    {n : Network} (hn : n ∉ batch.map Binding.net) :
    (resolve holder batch).winners[n]? = none := by
  rw [resolve, getElem?_foldl_of_notMem hproper hn]
  simp

end Contest

end TagExchange
