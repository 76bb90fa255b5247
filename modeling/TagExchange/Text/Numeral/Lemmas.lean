import Mathlib
import TagExchange.Text.Numeral

/-!
# Reading a numeral back

The digits of a number are read back as this number when what follows them is no digit
(`read?_toDigits`, `readWithin?_toDigits`, `readPlain?_toDigits`).
-/

namespace TagExchange.Numeral

variable {base n : Nat} {ds : List Nat} {rest : List Char}

theorem digit?_digitChar {d : Nat} (hd : d < 16) :
    digit? base (Nat.digitChar d) = if d < base then some d else none := by
  interval_cases d <;> simp [digit?, Nat.digitChar]

/-- The digits of a number. Only the number zero starts with a zero. -/
structure Spells (base : Nat) (ds : List Nat) (n : Nat) : Prop where
  ne_nil : ds ≠ []
  lt_base : ∀ d ∈ ds, d < base
  value_eq : value base ds = n
  plain : ds.head? = some 0 → ds = [0]

theorem value_concat (ds : List Nat) (d : Nat) :
    value base (ds ++ [d]) = value base ds * base + d := by
  simp [value]

theorem spells_single (hn : n < base) : Spells base [n] n :=
  ⟨by simp, by simpa using hn, by simp [value], by simp⟩

/-- A digit behind those of a number that is not zero. -/
theorem Spells.concat {d : Nat} (h : Spells base ds n) (hn : n ≠ 0) (hd : d < base) :
    Spells base (ds ++ [d]) (n * base + d) := by
  refine ⟨by simp, ?_, ?_, fun hzero => ?_⟩
  · intro c hc
    rcases List.mem_append.1 hc with hc | hc
    · exact h.lt_base c hc
    · rwa [List.mem_singleton.1 hc]
  · rw [value_concat, h.value_eq]
  · rw [List.head?_append_of_ne_nil ds h.ne_nil] at hzero
    have hvalue : value base [0] = n := h.plain hzero ▸ h.value_eq
    have hnil : value base [0] = 0 := by simp [value]
    exact absurd (hvalue.symm.trans hnil) hn

theorem exists_spells (hbase : 1 < base) (n : Nat) :
    ∃ ds, Nat.toDigits base n = ds.map Nat.digitChar ∧ Spells base ds n := by
  induction n using Nat.strongRecOn with
  | ind n ih =>
    rw [Nat.toDigits_eq_if hbase]
    by_cases hn : n < base
    · exact ⟨[n], by simp [hn], spells_single hn⟩
    · have hfront : n / base ≠ 0 := (Nat.div_pos (Nat.le_of_not_lt hn) (by omega)).ne'
      obtain ⟨ds, hds, h⟩ := ih (n / base) (Nat.div_lt_self (by omega) hbase)
      refine ⟨ds ++ [n % base], by simp [hn, hds], ?_⟩
      have hconcat := h.concat hfront (Nat.mod_lt n (by omega : base > 0))
      rwa [Nat.mul_comm, Nat.div_add_mod] at hconcat

theorem not_mem_toDigits (hbase : 1 < base) {c : Char} (hc : ∀ d, Nat.digitChar d ≠ c) :
    c ∉ Nat.toDigits base n := by
  obtain ⟨ds, hds, -⟩ := exists_spells hbase n
  rw [hds, List.mem_map]
  rintro ⟨d, -, hd⟩
  exact hc d hd

/-- What does not start with a digit. -/
def Stops (base : Nat) (rest : List Char) : Prop := span base rest = ([], rest)

theorem stops_nil : Stops base [] := rfl

theorem stops_cons {c : Char} (h : digit? base c = none) (rest : List Char) :
    Stops base (c :: rest) := by
  rw [Stops, span, h]

theorem span_digits (hbase : base ≤ 16) (hds : ∀ d ∈ ds, d < base) (h : Stops base rest) :
    span base (ds.map Nat.digitChar ++ rest) = (ds, rest) := by
  induction ds with
  | nil => exact h
  | cons d ds ih =>
    obtain ⟨hd, hds⟩ := List.forall_mem_cons.1 hds
    rw [List.map_cons, List.cons_append, span, digit?_digitChar (hd.trans_le hbase), if_pos hd,
      ih hds]

variable {top width : Nat}

theorem read?_toDigits (hlow : 1 < base) (hbase : base ≤ 16) (hn : n ≤ top)
    (h : Stops base rest) : read? base top (Nat.toDigits base n ++ rest) = some (n, rest) := by
  obtain ⟨ds, hds, hspells⟩ := exists_spells hlow n
  have hnot : ¬(ds = [] ∨ top < n) := by simp [hspells.ne_nil, hn]
  rw [hds, read?, span_digits hbase hspells.lt_base h]
  simp only [hspells.value_eq, hnot, if_false]

theorem readWithin?_toDigits (hlow : 1 < base) (hbase : base ≤ 16) (hwidth : 0 < width)
    (hn : n ≤ top) (hpow : n < base ^ width) (h : Stops base rest) :
    readWithin? base top width (Nat.toDigits base n ++ rest) = some (n, rest) := by
  obtain ⟨ds, hds, hspells⟩ := exists_spells hlow n
  have hfits := (Nat.length_toDigits_le_iff hlow hwidth).2 hpow
  have hspan : (span base (Nat.toDigits base n ++ rest)).1 = ds := by
    rw [hds, span_digits hbase hspells.lt_base h]
  rw [hds, List.length_map] at hfits
  rw [readWithin?, hspan, if_neg (Nat.not_lt.2 hfits), read?_toDigits hlow hbase hn h]

theorem readWithin?_of_stops (h : Stops base rest) : readWithin? base top width rest = none := by
  simp [readWithin?, read?, show span base rest = ([], rest) from h]

theorem readPlain?_toDigits (hlow : 1 < base) (hbase : base ≤ 16) (hwidth : 0 < width)
    (hn : n ≤ top) (hpow : n < base ^ width) (h : Stops base rest) :
    readPlain? base top width (Nat.toDigits base n ++ rest) = some (n, rest) := by
  obtain ⟨ds, hds, hspells⟩ := exists_spells hlow n
  have hspan : (span base (Nat.toDigits base n ++ rest)).1 = ds := by
    rw [hds, span_digits hbase hspells.lt_base h]
  rw [readPlain?, hspan]
  split
  · next d ds' =>
    exact absurd (hspells.plain rfl) (by simp)
  · exact readWithin?_toDigits hlow hbase hwidth hn hpow h

theorem read?_rest {cs : List Char} (h : read? base top cs = some (n, rest)) :
    rest = (span base cs).2 := by
  simp only [read?] at h
  split at h
  · cases h
  · cases h
    rfl

theorem readPlain?_rest {cs : List Char} (h : readPlain? base top width cs = some (n, rest)) :
    rest = (span base cs).2 := by
  rw [readPlain?] at h
  split at h
  · cases h
  · rw [readWithin?] at h
    split at h
    · cases h
    · exact read?_rest h

theorem ofSigned?_toDigits (hn : n ≤ top) : ofSigned? top (Nat.toDigits 10 n) = some n := by
  have hread := read?_toDigits (show 1 < 10 by decide) (by decide) hn stops_nil
  rw [List.append_nil] at hread
  have hplus : '+' ∉ Nat.toDigits 10 n :=
    not_mem_toDigits (by decide) fun d => Nat.digitChar_ne '+' (by decide)
  rw [ofSigned?]
  · simp only [hread]
  · intro rest hcs
    simp [hcs] at hplus

end TagExchange.Numeral
