import Mathlib
import TagExchange.Table

/-!
# What a table holds

Each operation on tables is described by what the table holds afterwards under every network
(`getElem?_dropAll`, `getElem?_fileAll_bindings`). A table in which every binding lies under its own
network is determined by its bindings (`ofBindings_bindings`).
-/

namespace TagExchange

/-- Where a list with one more at its end can be split: at its end, or where the list can. -/
theorem exists_split_concat {α : Type} {xs : List α} {y : α} {P : List α → α → List α → Prop} :
    (∃ front x back, xs ++ [y] = front ++ x :: back ∧ P front x back) ↔
      P xs y [] ∨ ∃ front x back, xs = front ++ x :: back ∧ P front x (back ++ [y]) := by
  constructor
  · rintro ⟨front, x, back, hsplit, h⟩
    rcases List.eq_nil_or_concat' back with rfl | ⟨back, z, rfl⟩
    · obtain ⟨rfl, hlast⟩ := List.append_inj' hsplit rfl
      cases hlast
      exact .inl h
    · rw [← List.cons_append, ← List.append_assoc] at hsplit
      obtain ⟨rfl, hlast⟩ := List.append_inj' hsplit rfl
      cases hlast
      exact .inr ⟨front, x, back, rfl, h⟩
  · rintro (h | ⟨front, x, back, rfl, h⟩)
    · exact ⟨xs, y, [], rfl, h⟩
    · exact ⟨front, x, back ++ [y], by simp, h⟩

namespace Table

theorem getElem?_erase (t : Table) (n m : Network) :
    (t.erase n)[m]? = if n = m then none else t[m]? := by
  simp [Std.ExtTreeMap.getElem?_erase, Std.LawfulEqCmp.compare_eq_iff_eq]

theorem getElem?_dropAll (t : Table) (bs : List Binding) (n : Network) :
    (t.dropAll bs)[n]? = if n ∈ bs.map Binding.net then none else t[n]? := by
  induction bs generalizing t with
  | nil => simp [dropAll]
  | cons b bs ih =>
    have hstep : t.dropAll (b :: bs) = dropAll (t.erase b.net) bs := rfl
    rw [hstep, ih, getElem?_erase]
    by_cases hb : b.net = n
    · simp [hb]
    · have hn : ¬ n = b.net := fun h => hb h.symm
      simp [hb, hn]

/-- The last of the bindings filed under a network counts. Here they are all taken from one
table, so it does not matter which is the last. -/
theorem getElem?_fileAll {t w : Table} {bs : List Binding} (h : ∀ b ∈ bs, w[b.net]? = some b)
    (n : Network) :
    (t.fileAll bs)[n]? = if n ∈ bs.map Binding.net then w[n]? else t[n]? := by
  induction bs generalizing t with
  | nil => simp [fileAll]
  | cons b bs ih =>
    have hstep : t.fileAll (b :: bs) = (t.file b).fileAll bs := rfl
    have hb : w[b.net]? = some b := h b (by simp)
    have hrest := ih (t := t.file b) fun c hc => h c (by simp [hc])
    rw [hstep, hrest, getElem?_file]
    by_cases hmem : n ∈ bs.map Binding.net
    · simp [hmem]
    · by_cases hn : b.net = n
      · subst hn
        simp [hmem, hb]
      · have hn' : ¬ n = b.net := fun h => hn h.symm
        simp [hmem, hn, hn']

/-- Of the bindings of networks of which none comes twice, each is there in the end. -/
theorem getElem?_fileAll_eq_some_iff {t : Table} {bs : List Binding}
    (hbs : (bs.map Binding.net).Nodup) {n : Network} {b : Binding} :
    (t.fileAll bs)[n]? = some b ↔
      (b.net = n ∧ b ∈ bs) ∨ (n ∉ bs.map Binding.net ∧ t[n]? = some b) := by
  induction bs generalizing t with
  | nil => simp [fileAll]
  | cons c bs ih =>
    obtain ⟨hc, hbs⟩ := List.nodup_cons.1 hbs
    have hstep : t.fileAll (c :: bs) = (t.file c).fileAll bs := rfl
    rw [hstep, ih hbs, getElem?_file]
    by_cases hn : c.net = n
    · subst hn
      constructor
      · rintro (⟨hnet, hb⟩ | ⟨-, hb⟩)
        · exact .inl ⟨hnet, List.mem_cons_of_mem _ hb⟩
        · rw [if_pos rfl] at hb
          cases hb
          exact .inl ⟨rfl, List.mem_cons_self⟩
      · rintro (⟨hnet, hb⟩ | ⟨hout, -⟩)
        · rcases List.mem_cons.1 hb with rfl | hb
          · exact .inr ⟨hc, if_pos rfl⟩
          · exact .inl ⟨hnet, hb⟩
        · exact absurd List.mem_cons_self hout
    · have hne : n ≠ c.net := fun h => hn h.symm
      have hmem : b.net = n → (b ∈ c :: bs ↔ b ∈ bs) := by
        intro hnet
        have hbc : b ≠ c := by
          rintro rfl
          exact hn hnet
        simp [hbc]
      rw [if_neg hn, and_congr_right hmem]
      simp [hne]

theorem getElem?_ofBindings_eq_some_iff {bs : List Binding} (hbs : (bs.map Binding.net).Nodup)
    {n : Network} {b : Binding} : (ofBindings bs)[n]? = some b ↔ b.net = n ∧ b ∈ bs := by
  rw [ofBindings, getElem?_fileAll_eq_some_iff hbs]
  simp

/-- Only what is filed is there in the end. -/
theorem mem_fileAll {t : Table} {bs : List Binding} {b : Binding}
    (hb : b ∈ (t.fileAll bs).bindings) : b ∈ t.bindings ∨ b ∈ bs := by
  induction bs generalizing t with
  | nil => exact .inl hb
  | cons c bs ih =>
    rcases ih (t := t.file c) hb with hb | hb
    · obtain ⟨n, hn⟩ := mem_bindings.1 hb
      rw [getElem?_file] at hn
      split at hn
      · cases hn
        exact .inr (by simp)
      · exact .inl (mem_bindings.2 ⟨n, hn⟩)
    · exact .inr (by simp [hb])

theorem mem_ofBindings {bs : List Binding} {b : Binding} (hb : b ∈ (ofBindings bs).bindings) :
    b ∈ bs := by
  rcases mem_fileAll hb with hb | hb
  · simp [mem_bindings] at hb
  · exact hb

theorem Filed.empty : Filed ∅ := by
  intro n b h
  simp at h

theorem Filed.fileAll {t : Table} (h : t.Filed) (bs : List Binding) : (t.fileAll bs).Filed := by
  induction bs generalizing t with
  | nil => exact h
  | cons b bs ih => exact ih (h.file b)

theorem Filed.dropAll {t : Table} (h : t.Filed) (bs : List Binding) : (t.dropAll bs).Filed := by
  intro n b hb
  rw [getElem?_dropAll] at hb
  split at hb
  · cases hb
  · exact h n b hb

theorem Filed.ofBindings (bs : List Binding) : (ofBindings bs).Filed := Filed.empty.fileAll bs

theorem Filed.mem_bindings {t : Table} (h : t.Filed) {b : Binding} :
    b ∈ t.bindings ↔ t[b.net]? = some b := by
  rw [Table.mem_bindings]
  constructor
  · rintro ⟨n, hn⟩
    rw [h n b hn]
    exact hn
  · intro hb
    exact ⟨b.net, hb⟩

theorem Filed.mem_map_net {t : Table} (h : t.Filed) {n : Network} :
    n ∈ t.bindings.map Binding.net ↔ ∃ b, t[n]? = some b := by
  rw [List.mem_map]
  constructor
  · rintro ⟨b, hb, rfl⟩
    exact ⟨b, h.mem_bindings.1 hb⟩
  · rintro ⟨b, hb⟩
    have hn := h n b hb
    subst hn
    exact ⟨b, h.mem_bindings.2 hb, rfl⟩

/-- Filing all that another table holds puts it in front of this one. -/
theorem getElem?_fileAll_bindings (t : Table) {w : Table} (hw : w.Filed) (n : Network) :
    (t.fileAll w.bindings)[n]? = (w[n]? <|> t[n]?) := by
  rw [getElem?_fileAll (fun b hb => hw.mem_bindings.1 hb)]
  cases hn : w[n]? with
  | some b =>
    have hmem : n ∈ w.bindings.map Binding.net := hw.mem_map_net.2 ⟨b, hn⟩
    simp [hmem]
  | none =>
    have hmem : n ∉ w.bindings.map Binding.net := by
      intro hmem
      obtain ⟨b, hb⟩ := hw.mem_map_net.1 hmem
      simp [hn] at hb
    simp [hmem]

theorem ofBindings_bindings {t : Table} (h : t.Filed) : ofBindings t.bindings = t := by
  apply Std.ExtTreeMap.ext_getElem?
  intro n
  rw [ofBindings, getElem?_fileAll_bindings ∅ h]
  simp

/-- The bindings come in the order of their networks, which are the keys. -/
theorem map_net_bindings {t : Table} (h : t.Filed) : t.bindings.map Binding.net = t.keys := by
  rw [bindings, List.map_map, ← Std.ExtTreeMap.map_fst_toList_eq_keys]
  apply List.map_congr_left
  rintro ⟨n, b⟩ hb
  exact h n b (Std.ExtTreeMap.mem_toList_iff_getElem?_eq_some.1 hb)

/-- The bindings come in the order of their networks. -/
theorem ordered_bindings {t : Table} (h : t.Filed) :
    t.bindings.Pairwise fun a b => compare a.net b.net = .lt := by
  rw [← List.pairwise_map (f := Binding.net) (R := fun m n => compare m n = .lt),
    map_net_bindings h]
  exact Std.ExtTreeMap.ordered_keys

/-- Two lists in the order of networks with the same members are the same. -/
theorem eq_of_ordered {α : Type} {f : α → Network} {xs ys : List α}
    (hxs : xs.Pairwise fun a b => compare (f a) (f b) = .lt)
    (hys : ys.Pairwise fun a b => compare (f a) (f b) = .lt) (hmem : ∀ a, a ∈ xs ↔ a ∈ ys) :
    xs = ys := by
  have hne (a b : α) (hab : compare (f a) (f b) = .lt) : a ≠ b := by
    rintro rfl
    simp [Std.ReflCmp.compare_self] at hab
  have hperm : xs.Perm ys :=
    (List.perm_ext_iff_of_nodup (hxs.imp (hne _ _)) (hys.imp (hne _ _))).2 hmem
  apply hperm.eq_of_pairwise _ hxs hys
  intro a b _ _ hab hba
  have := Std.OrientedCmp.gt_of_lt hba
  simp [hab] at this

theorem nodup_map_net_bindings {t : Table} (h : t.Filed) :
    (t.bindings.map Binding.net).Nodup := by
  rw [map_net_bindings h]
  exact Std.ExtTreeMap.nodup_keys

end Table

end TagExchange
