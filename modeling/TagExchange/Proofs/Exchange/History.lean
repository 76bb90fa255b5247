import TagExchange.Proofs.Exchange.Learning

/-!
# What remains of a history of exports

A speaker sends what has changed since its last export; it does not withdraw a binding that another
one replaces. What a listener holds in the end depends therefore on all the exports since the
network was last without a binding (`Exports.held`): it is the newest binding exactly when none of
the others had a shorter path (`Exports.held_eq_told_iff`).
-/

namespace TagExchange

namespace Part

variable {id : NodeId} {held : Network → Option Told} {n : Network}

theorem settle_of_notMem (part : Part) (h : n ∉ part.2.map Binding.net) :
    part.settle id held n = if n ∈ part.1.map Binding.net then none else held n := by
  have hfind : (part.2.find? fun b => b.net = n) = none := by
    apply List.find?_eq_none.2
    intro b hb hnet
    exact h (List.mem_map.2 ⟨b, hb, by simpa using hnet⟩)
  rw [settle, hfind]

theorem settle_of_mem (part : Part) {b : Binding} (hnodup : (part.2.map Binding.net).Nodup)
    (hb : b ∈ part.2) (hdelete : b.net ∉ part.1.map Binding.net) :
    part.settle id held b.net = some (Told.settle (held b.net) (b.told id)) := by
  have hfind : (part.2.find? fun q => q.net = b.net) = some b := by
    cases hq : part.2.find? fun q => q.net = b.net with
    | none =>
      have h := List.find?_eq_none.1 hq b hb
      simp at h
    | some q =>
      have hnet : q.net = b.net := by simpa using List.find?_some hq
      rw [List.inj_on_of_nodup_map hnodup (List.mem_of_find?_eq_some hq) hb hnet]
  rw [settle, hfind]
  dsimp only
  rw [if_neg hdelete]

/-- Frames one after the other. -/
def settleAll (id : NodeId) (parts : List Part) (held : Network → Option Told) :
    Network → Option Told :=
  parts.foldl (fun held part => part.settle id held) held

/-- It does not matter how changes are divided into frames. -/
theorem settleAll_eq {parts : List Part} {delete add : List Binding}
    (hdelete : parts.flatMap Prod.fst = delete) (hadd : parts.flatMap Prod.snd = add)
    (hnodup : (add.map Binding.net).Nodup)
    (hdisjoint : ∀ n ∈ add.map Binding.net, n ∉ delete.map Binding.net)
    (held : Network → Option Told) (n : Network) :
    settleAll id parts held n = settle id (delete, add) held n := by
  induction parts generalizing delete add held with
  | nil =>
    subst hdelete hadd
    simp [settleAll, settle]
  | cons part parts ih =>
    subst hdelete hadd
    simp only [List.flatMap_cons, List.map_append] at hnodup hdisjoint ⊢
    obtain ⟨hnodup₁, hnodup₂, hapart⟩ := List.nodup_append.1 hnodup
    have hrest := ih rfl rfl hnodup₂ (fun m hm hd => hdisjoint m (by simp [hm]) (by simp [hd]))
      (part.settle id held)
    have hstep : settleAll id (part :: parts) held = settleAll id parts (part.settle id held) := rfl
    rw [hstep, hrest]
    by_cases hmem : n ∈ (part.2 ++ parts.flatMap Prod.snd).map Binding.net
    · obtain ⟨b, hb, rfl⟩ := List.mem_map.1 hmem
      have hnot := hdisjoint b.net (by simpa using hmem)
      rw [List.mem_append, not_or] at hnot
      rw [settle_of_mem (part.1 ++ _, part.2 ++ _) (by simpa using hnodup) hb
        (by simpa using hnot)]
      rcases List.mem_append.1 hb with hb | hb
      · have hlater : b.net ∉ (parts.flatMap Prod.snd).map Binding.net := by
          intro hlater
          exact hapart b.net (List.mem_map.2 ⟨b, hb, rfl⟩) b.net hlater rfl
        rw [settle_of_notMem _ hlater, if_neg hnot.2, settle_of_mem _ hnodup₁ hb hnot.1]
      · have hearlier : b.net ∉ part.2.map Binding.net := by
          intro hearlier
          exact hapart b.net hearlier b.net (List.mem_map.2 ⟨b, hb, rfl⟩) rfl
        rw [settle_of_mem _ hnodup₂ hb hnot.2, settle_of_notMem _ hearlier, if_neg hnot.1]
    · have hnot := hmem
      rw [List.map_append, List.mem_append, not_or] at hnot
      rw [settle_of_notMem (part.1 ++ _, part.2 ++ _) hmem, settle_of_notMem _ hnot.2,
        settle_of_notMem _ hnot.1]
      by_cases h₁ : n ∈ part.1.map Binding.net <;>
        by_cases h₂ : n ∈ (parts.flatMap Prod.fst).map Binding.net <;> simp [h₁, h₂]

end Part

namespace Exports

/-- What a listener holds after exports, the newest of them first. -/
def held (id : NodeId) : List Table → Network → Option Told
  | [], _ => none
  | next :: older, n =>
    match next[n]? with
    | none => none
    | some b =>
      if (older.headD ∅)[n]? = some b then held id older n
      else some (Told.settle (held id older n) (b.told id))

/-- The bindings of a network in the exports since one was without it, the newest first. -/
def since (n : Network) : List Table → List Binding
  | [] => []
  | next :: older =>
    match next[n]? with
    | none => []
    | some b => b :: since n older

theorem held_of_none {id : NodeId} {exports : List Table} {n : Network}
    (h : (exports.headD ∅)[n]? = none) : held id exports n = none := by
  cases exports with
  | nil => rfl
  | cons next older =>
    have hnext : next[n]? = none := h
    rw [held, hnext]

theorem mem_delete {old next : Table} {b : Binding} :
    b ∈ (Session.difference old next).1 ↔ b ∈ old.bindings ∧ next[b.net]? = none := by
  have hcontains : next.contains b.net = next[b.net]?.isSome :=
    Std.ExtTreeMap.contains_eq_isSome_getElem?
  simp only [Session.difference, List.mem_filter, hcontains]
  cases next[b.net]? <;> simp

theorem mem_add {old next : Table} {b : Binding} :
    b ∈ (Session.difference old next).2 ↔ b ∈ next.bindings ∧ old[b.net]? ≠ some b := by
  simp [Session.difference, List.mem_mergeSort]

theorem nodup_add (old : Table) {next : Table} (h : next.Filed) :
    ((Session.difference old next).2.map Binding.net).Nodup := by
  have hperm : (Session.difference old next).2.Perm
      (next.bindings.filter fun b => old[b.net]? ≠ some b) := List.mergeSort_perm _ _
  rw [(hperm.map Binding.net).nodup_iff]
  exact (Table.nodup_map_net_bindings h).sublist (List.filter_sublist.map Binding.net)

theorem disjoint_add {old next : Table} (h : next.Filed) {n : Network}
    (hn : n ∈ (Session.difference old next).2.map Binding.net) :
    n ∉ (Session.difference old next).1.map Binding.net := by
  intro hdelete
  obtain ⟨b, hb, rfl⟩ := List.mem_map.1 hn
  obtain ⟨c, hc, hnet⟩ := List.mem_map.1 hdelete
  have hnone := (mem_delete.1 hc).2
  rw [hnet, h.mem_bindings.1 (mem_add.1 hb).1] at hnone
  cases hnone

/-- A table does not differ from itself. -/
theorem difference_self {t : Table} (h : t.Filed) : Session.difference t t = ([], []) := by
  have hdelete : (Session.difference t t).1 = [] := by
    apply List.eq_nil_iff_forall_not_mem.2
    intro b hb
    obtain ⟨hb, hnone⟩ := mem_delete.1 hb
    rw [h.mem_bindings.1 hb] at hnone
    cases hnone
  have hadd : (Session.difference t t).2 = [] := by
    apply List.eq_nil_iff_forall_not_mem.2
    intro b hb
    obtain ⟨hb, hdiffers⟩ := mem_add.1 hb
    exact hdiffers (h.mem_bindings.1 hb)
  exact Prod.ext hdelete hadd

/-- What is neither there any more nor withdrawn was not there before. -/
theorem getElem?_eq_none_of_notMem_delete {old next : Table} (hold : old.Filed) {n : Network}
    (hn : next[n]? = none) (hdelete : n ∉ (Session.difference old next).1.map Binding.net) :
    old[n]? = none := by
  by_contra hget
  obtain ⟨c, hc⟩ := Option.ne_none_iff_exists'.1 hget
  have hnet := hold n c hc
  subst hnet
  exact hdelete (List.mem_map.2 ⟨c, mem_delete.2 ⟨hold.mem_bindings.2 hc, hn⟩, rfl⟩)

/-- Where nothing is withdrawn or announced, two tables hold the same. -/
theorem getElem?_eq_of_notMem_difference {old next : Table} (hold : old.Filed) (hnext : next.Filed)
    {n : Network} (hdelete : n ∉ (Session.difference old next).1.map Binding.net)
    (hadd : n ∉ (Session.difference old next).2.map Binding.net) : old[n]? = next[n]? := by
  cases hn : next[n]? with
  | none => exact getElem?_eq_none_of_notMem_delete hold hn hdelete
  | some b =>
    by_contra hget
    have hnet := hnext n b hn
    subst hnet
    exact hadd (List.mem_map.2 ⟨b, mem_add.2 ⟨hnext.mem_bindings.2 hn, hget⟩, rfl⟩)

/-- Sending what differs from the last export takes what is held one export further. -/
theorem settle_difference {id : NodeId} {older : List Table} {next : Table} (hnext : next.Filed)
    (hold : (older.headD ∅).Filed) (n : Network) :
    Part.settle id (Session.difference (older.headD ∅) next) (held id older) n =
      held id (next :: older) n := by
  cases hn : next[n]? with
  | none =>
    have hadd : n ∉ (Session.difference (older.headD ∅) next).2.map Binding.net := by
      intro hadd
      obtain ⟨b, hb, rfl⟩ := List.mem_map.1 hadd
      have hget := hnext.mem_bindings.1 (mem_add.1 hb).1
      rw [hn] at hget
      cases hget
    rw [Part.settle_of_notMem _ hadd, held, hn]
    dsimp only
    split
    · rfl
    · next hdelete => exact held_of_none (getElem?_eq_none_of_notMem_delete hold hn hdelete)
  | some b =>
    have hnet := hnext n b hn
    subst hnet
    have hdelete : b.net ∉ (Session.difference (older.headD ∅) next).1.map Binding.net := by
      intro hdelete
      obtain ⟨c, hc, hnet⟩ := List.mem_map.1 hdelete
      have hnone := (mem_delete.1 hc).2
      rw [hnet, hn] at hnone
      cases hnone
    rw [held, hn]
    dsimp only
    by_cases hsame : (older.headD ∅)[b.net]? = some b
    · have hadd : b.net ∉ (Session.difference (older.headD ∅) next).2.map Binding.net := by
        intro hadd
        obtain ⟨c, hc, hnet⟩ := List.mem_map.1 hadd
        obtain ⟨hc, hdiffers⟩ := mem_add.1 hc
        have hget := hnext.mem_bindings.1 hc
        rw [hnet, hn] at hget
        cases hget
        exact hdiffers hsame
      rw [if_pos hsame, Part.settle_of_notMem _ hadd, if_neg hdelete]
    · have hadd : b ∈ (Session.difference (older.headD ∅) next).2 :=
        mem_add.2 ⟨hnext.mem_bindings.2 hn, hsame⟩
      rw [if_neg hsame, Part.settle_of_mem _ (nodup_add _ hnext) hadd hdelete]

/-- What is known of the binding held under a network of the newest export: its path has the least
length since the network was last without a binding, counting the hop to the listener. -/
structure Least (id : NodeId) (b : Binding) (earlier : List Binding) (t : Told) : Prop where
  newest : t.2.length ≤ b.path.length + 1
  older : ∀ c ∈ earlier, t.2.length ≤ c.path.length + 1
  attained : t.2.length = b.path.length + 1 ∨ ∃ c ∈ earlier, t.2.length = c.path.length + 1
  settled : (∀ c ∈ earlier, b.path.length ≤ c.path.length) → t = b.told id

theorem length_told (id : NodeId) (b : Binding) : (b.told id).2.length = b.path.length + 1 := rfl

theorem Least.self (id : NodeId) (b : Binding) : Least id b [] (b.told id) where
  newest := Nat.le_refl _
  older := by simp
  attained := .inl rfl
  settled := fun _ => rfl

/-- The same binding once more changes nothing. -/
theorem Least.same {id : NodeId} {b : Binding} {earlier : List Binding} {t : Told}
    (h : Least id b earlier t) : Least id b (b :: earlier) t where
  newest := h.newest
  older := by
    intro c hc
    rcases List.mem_cons.1 hc with rfl | hc
    · exact h.newest
    · exact h.older c hc
  attained := by
    rcases h.attained with h | ⟨c, hc, h⟩
    · exact .inl h
    · exact .inr ⟨c, by simp [hc], h⟩
  settled := fun hall => h.settled fun c hc => hall c (by simp [hc])

/-- Another binding takes the place unless its path is longer. -/
theorem Least.settle {id : NodeId} {b c : Binding} {earlier : List Binding} {t : Told}
    (h : Least id c earlier t) : Least id b (c :: earlier) (Told.settle (some t) (b.told id)) := by
  have hlen := length_told id b
  by_cases hle : b.path.length + 1 ≤ t.2.length
  · rw [Told.settle_of_le (by omega)]
    refine ⟨Nat.le_refl _, ?_, .inl rfl, fun _ => rfl⟩
    intro q hq
    rw [hlen]
    rcases List.mem_cons.1 hq with rfl | hq
    · have := h.newest
      omega
    · have := h.older q hq
      omega
  · rw [Told.settle_of_lt (by omega)]
    refine ⟨by omega, ?_, ?_, ?_⟩
    · intro q hq
      rcases List.mem_cons.1 hq with rfl | hq
      · exact h.newest
      · exact h.older q hq
    · rcases h.attained with h | ⟨q, hq, h⟩
      · exact .inr ⟨c, by simp, h⟩
      · exact .inr ⟨q, by simp [hq], h⟩
    · intro hall
      rcases h.attained with h | ⟨q, hq, h⟩
      · have := hall c (by simp)
        omega
      · have := hall q (by simp [hq])
        omega

/-- By induction on the exports, each of which either repeats the binding or settles anew. -/
theorem exists_least (id : NodeId) (n : Network) (older : List Table) {next : Table} {b : Binding}
    (hb : next[n]? = some b) :
    ∃ t, held id (next :: older) n = some t ∧ Least id b (since n older) t := by
  induction older generalizing next b with
  | nil =>
    refine ⟨b.told id, ?_, Least.self id b⟩
    have hnone : (([] : List Table).headD ∅)[n]? ≠ some b := by simp
    rw [held, hb]
    dsimp only
    rw [if_neg hnone]
    rfl
  | cons old older ih =>
    cases hold : old[n]? with
    | none =>
      have hsince : since n (old :: older) = [] := by rw [since, hold]
      refine ⟨b.told id, ?_, hsince ▸ Least.self id b⟩
      have hnone : ((old :: older).headD ∅)[n]? ≠ some b := by
        rw [List.headD_cons, hold]
        simp
      rw [held, hb]
      dsimp only
      rw [if_neg hnone, held_of_none hold]
      rfl
    | some c =>
      have hsince : since n (old :: older) = c :: since n older := by rw [since, hold]
      obtain ⟨t, ht, hleast⟩ := ih hold
      rw [held, hb, hsince]
      dsimp only
      rw [List.headD_cons, hold]
      by_cases hsame : some c = some b
      · cases hsame
        rw [if_pos rfl]
        exact ⟨t, ht, hleast.same⟩
      · rw [if_neg hsame, ht]
        exact ⟨_, rfl, hleast.settle⟩

/-- The newest binding of a network is held exactly when no path was shorter since the network was
last without a binding. -/
theorem held_eq_told_iff (id : NodeId) (n : Network) {next : Table} {older : List Table}
    {b : Binding} (hb : next[n]? = some b) :
    held id (next :: older) n = some (b.told id) ↔
      ∀ c ∈ since n older, b.path.length ≤ c.path.length := by
  obtain ⟨t, ht, hleast⟩ := exists_least id n older hb
  rw [ht, Option.some.injEq]
  constructor
  · rintro rfl c hc
    have h := hleast.older c hc
    rw [length_told] at h
    omega
  · exact hleast.settled

end Exports

end TagExchange
