import TagExchange.Proofs.Store.Keys

/-!
# Keys sort as networks do

Byte strings of one length compare as the numbers that they write (`compare_word`), so octets
compare as addresses, and with the length behind them keys of one family compare as networks
(`Network.compare_key`). A store that sorts its keys byte by byte has each family in its order.
-/

namespace TagExchange

/-- The leading digit decides, and between equal ones the rest. -/
theorem compare_mul_add {base a b x y : Nat} (hx : x < base) (hy : y < base) :
    compare (a * base + x) (b * base + y) = (compare a b).then (compare x y) := by
  rcases Nat.lt_trichotomy a b with hlt | rfl | hgt
  · have hstep := Nat.mul_le_mul_right base hlt
    have hless : a * base + x < b * base + y := by
      rw [Nat.succ_mul] at hstep
      omega
    rw [Nat.compare_eq_lt.2 hlt, Nat.compare_eq_lt.2 hless, Ordering.lt_then]
  · simp [Nat.compare_eq_ite_lt]
  · have hstep := Nat.mul_le_mul_right base hgt
    have hmore : b * base + y < a * base + x := by
      rw [Nat.succ_mul] at hstep
      omega
    rw [Nat.compare_eq_gt.2 hgt, Nat.compare_eq_gt.2 hmore, Ordering.gt_then]

theorem compare_word {xs ys : Bytes} (h : xs.length = ys.length) :
    compare (word xs) (word ys) = compare xs ys := by
  induction xs generalizing ys with
  | nil => rw [List.eq_nil_of_length_eq_zero h.symm]; rfl
  | cons x xs ih =>
    obtain ⟨y, ys, rfl⟩ := List.exists_cons_of_length_eq_add_one h.symm
    have hrest : xs.length = ys.length := Nat.succ.inj h
    have hx : word xs < 256 ^ ys.length := hrest ▸ word_lt xs
    rw [word_cons, word_cons, hrest, compare_mul_add hx (word_lt ys), ih hrest,
      List.compare_cons_cons, UInt8.compare_eq_toNat_compare_toNat]

theorem compare_append {xs ys xs' ys' : Bytes} (h : xs.length = ys.length) :
    compare (xs ++ xs') (ys ++ ys') = (compare xs ys).then (compare xs' ys') := by
  induction xs generalizing ys with
  | nil => rw [List.eq_nil_of_length_eq_zero h.symm]; rfl
  | cons x xs ih =>
    obtain ⟨y, ys, rfl⟩ := List.exists_cons_of_length_eq_add_one h.symm
    rw [List.cons_append, List.cons_append, List.compare_cons_cons, List.compare_cons_cons,
      ih (Nat.succ.inj h), Ordering.then_assoc]

/-- The order of the octets, byte by byte, is the numeric order. -/
theorem compare_octets {w : Nat} (hw : w % 8 = 0) (a b : BitVec w) :
    compare (octets a) (octets b) = compare a b := by
  rw [← compare_word (by simp), word_octets hw, word_octets hw, compare_toNat]

theorem Net.compare_key {w : Nat} (hw : w % 8 = 0) (n m : Net w) :
    compare n.key m.key = compare n m := by
  have hlength : compare [n.length] [m.length] = compare n.length m.length := by
    rw [List.compare_cons_cons, List.compare_nil_nil, Ordering.then_eq]
  rw [key, key, compare_append (by simp), compare_octets hw, hlength]
  rfl

namespace Network

theorem compare_key {n m : Network} (h : n.isV4 = m.isV4) :
    compare n.key m.key = compare n m := by
  cases n with
  | v4 n =>
    cases m with
    | v4 m => exact Net.compare_key (by decide) n m
    | v6 m => cases h
  | v6 n =>
    cases m with
    | v4 m => cases h
    | v6 m => exact Net.compare_key (by decide) n m

/-- Reading takes the keys of the networks whose length lies within their address, and nothing else;
the readers of one family look at the front of a byte string only. No two networks have the same
key, whatever their lengths and bits, and those of one family sort by their keys as they do
themselves. -/
theorem key_exact :
    (∀ (bs : Bytes) (n : Network), ofKey bs = .ok n ↔ bs = n.key ∧ n.Within) ∧
    (∀ (bs : Bytes) (n : Net 32), Net.ofKey4 bs = .ok n ↔
      ∃ rest, bs = n.key ++ rest ∧ n.length.toNat ≤ 32) ∧
    (∀ (bs : Bytes) (n : Net 128), Net.ofKey6 bs = .ok n ↔
      ∃ rest, bs = n.key ++ rest ∧ n.length.toNat ≤ 128) ∧
    Function.Injective key ∧
    ∀ n m : Network, n.isV4 = m.isV4 → compare n.key m.key = compare n m :=
  ⟨fun _ _ => ofKey_eq_ok_iff, fun _ _ => Net.ofKeyWith_eq_ok_iff (by decide) ..,
    fun _ _ => Net.ofKeyWith_eq_ok_iff (by decide) .., fun _ _ => key_inj,
    fun _ _ => compare_key⟩

/-- Two networks around one address, with bits beyond their lengths. -/
theorem key_exact_nested :
    let wide : Network := .v4 ⟨0x0A000001, 8⟩
    let narrow : Network := .v4 ⟨0x0A000001, 24⟩
    wide.isV4 = narrow.isV4 ∧ compare wide.key narrow.key = .lt ∧ compare wide narrow = .lt ∧
      ofKey wide.key = .ok wide := by
  intro wide narrow
  obtain ⟨hread, -, -, -, horder⟩ := key_exact
  have hsame : wide.isV4 = narrow.isV4 := rfl
  have hless : compare wide narrow = .lt := by decide
  exact ⟨hsame, (horder wide narrow hsame).trans hless, hless,
    (hread wide.key wide).2 ⟨rfl, by decide⟩⟩

end Network

end TagExchange
