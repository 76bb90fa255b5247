import Mathlib
import TagExchange.Bytes.Lemmas
import TagExchange.Wire

/-!
# Reading back what was written

A word, a byte string or an item that stands at the front of a byte string is read back, and what
follows it is left (`readWord_wordBytes_of_lt`, `readBytes_append`). From one item this carries over
to a list of items written one after the other (`ItemReader.readAll_flatMap`,
`ItemReader.readAll_append`, `ItemReader.foldAll_append`).
-/

namespace TagExchange

theorem Except.map_eq_ok {ε α β : Type} {x : Except ε α} {f : α → β} {b : β} :
    x.map f = .ok b ↔ ∃ a, x = .ok a ∧ f a = b := by
  cases x <;> simp [Except.map]

theorem Except.exists_error_iff {ε α : Type} {x : Except ε α} :
    (∃ e, x = .error e) ↔ ¬∃ a, x = .ok a := by
  cases x <;> simp

/-- What a list is mapped to, item by item. -/
theorem Except.mapM_eq_ok {ε α β : Type} {f : α → Except ε β} {xs : List α} {ys : List β} :
    xs.mapM f = .ok ys ↔ List.Forall₂ (fun x y => f x = .ok y) xs ys := by
  induction xs generalizing ys with
  | nil => simp [pure, Except.pure, eq_comm]
  | cons x xs ih =>
    rw [List.mapM_cons, Except.bind_eq_ok, List.forall₂_cons_left_iff]
    constructor
    · rintro ⟨y, hy, h⟩
      obtain ⟨ys, hys, h⟩ := Except.bind_eq_ok.1 h
      cases h
      exact ⟨y, ys, hy, ih.1 hys, rfl⟩
    · rintro ⟨y, ys, hy, hys, rfl⟩
      exact ⟨y, hy, Except.bind_eq_ok.2 ⟨ys, ih.2 hys, rfl⟩⟩

theorem exists_of_mem_left {α β : Type} {R : α → β → Prop} {xs : List α} {ys : List β}
    (h : List.Forall₂ R xs ys) {x : α} (hx : x ∈ xs) : ∃ y ∈ ys, R x y := by
  induction h with
  | nil => cases hx
  | @cons _ y _ _ hfirst _ ih =>
    rcases List.mem_cons.1 hx with rfl | hx
    · exact ⟨y, by simp, hfirst⟩
    · obtain ⟨z, hz, hrest⟩ := ih hx
      exact ⟨z, by simp [hz], hrest⟩

theorem exists_of_mem_right {α β : Type} {R : α → β → Prop} {xs : List α} {ys : List β}
    (h : List.Forall₂ R xs ys) {y : β} (hy : y ∈ ys) : ∃ x ∈ xs, R x y :=
  exists_of_mem_left h.flip hy

theorem exists_forall₂ {α β : Type} {R : α → β → Prop} {xs : List α}
    (h : ∀ x ∈ xs, ∃ y, R x y) : ∃ ys, List.Forall₂ R xs ys := by
  induction xs with
  | nil => exact ⟨[], .nil⟩
  | cons x xs ih =>
    obtain ⟨hx, hxs⟩ := List.forall_mem_cons.1 h
    obtain ⟨y, hy⟩ := hx
    obtain ⟨ys, hys⟩ := ih hxs
    exact ⟨y :: ys, .cons hy hys⟩

theorem readWord_wordBytes_of_lt {n v : Nat} (h : v < 256 ^ n) (rest : Bytes) :
    readWord n (wordBytes n v ++ rest) = .ok (v, rest) := by
  rw [readWord_wordBytes, word_wordBytes_of_lt h]

theorem readWord_cons (b : UInt8) (rest : Bytes) :
    readWord 1 (b :: rest) = .ok (b.toNat, rest) :=
  readWord_eq_ok.2 ⟨[b], rfl, rfl, by simp [word]⟩

theorem readBytes_append {n : Nat} {x : Bytes} (h : x.length = n) (rest : Bytes) :
    readBytes n (x ++ rest) = .ok (x, rest) :=
  readBytes_eq_ok.2 ⟨rfl, h⟩

theorem word_append (xs ys : Bytes) : word (xs ++ ys) = word xs * 256 ^ ys.length + word ys := by
  induction xs with
  | nil => simp [word]
  | cons x xs ih =>
    rw [List.cons_append, word_cons, word_cons, ih, List.length_append, pow_add]
    ring

@[simp] theorem word_replicate_zero (n : Nat) : word (List.replicate n 0) = 0 := by
  induction n with
  | zero => rfl
  | succ n ih => rw [List.replicate_succ, word_cons, ih]; simp

namespace ItemReader

variable {α σ : Type}

/-- The bytes of an item are read back as that item wherever they stand. -/
def Reads (r : ItemReader α) (bytes : Bytes) (x : α) : Prop :=
  ∀ rest, r.read (bytes ++ rest) = .ok (x, rest)

/-- A list of items behind one that is read back. -/
theorem readAll_append {r : ItemReader α} {bytes : Bytes} {x : α} (h : r.Reads bytes x)
    (rest : Bytes) : r.readAll (bytes ++ rest) = (r.readAll rest).map (x :: ·) :=
  readAll_of_read (h rest)

/-- Items that are read back as what they were written for. -/
theorem readAll_flatMap_map {β : Type} {r : ItemReader α} {write : β → Bytes} {value : β → α}
    {xs : List β} (h : ∀ x ∈ xs, r.Reads (write x) (value x)) :
    r.readAll (xs.flatMap write) = .ok (xs.map value) := by
  induction xs with
  | nil => simp
  | cons x xs ih =>
    have hx := h x (by simp)
    have hxs := ih fun y hy => h y (by simp [hy])
    rw [List.flatMap_cons, readAll_append hx, hxs]
    rfl

theorem readAll_flatMap {r : ItemReader α} {write : α → Bytes} {xs : List α}
    (h : ∀ x ∈ xs, r.Reads (write x) x) : r.readAll (xs.flatMap write) = .ok xs := by
  have hall : r.readAll (xs.flatMap write) = .ok (xs.map id) := readAll_flatMap_map h
  rwa [List.map_id] at hall

@[simp] theorem foldAll_nil (r : ItemReader α) (step : σ → α → Except Fault σ) (s : σ) :
    r.foldAll step s [] = .ok s := by
  rw [foldAll, if_pos rfl]

/-- Folding a list of items starts with the item at its front. -/
theorem foldAll_of_read {r : ItemReader α} {bs rest : Bytes} {x : α}
    (h : r.read bs = .ok (x, rest)) (step : σ → α → Except Fault σ) (s : σ) :
    r.foldAll step s bs = (step s x).bind fun s => r.foldAll step s rest := by
  have hne : bs ≠ [] := by
    rintro rfl
    exact absurd (r.shorter h) (by simp)
  rw [foldAll, if_neg hne]
  split
  · simp_all
  · next y rest' hy =>
    rw [h] at hy
    cases hy
    cases step s x <;> rfl

theorem foldAll_append {r : ItemReader α} {bytes : Bytes} {x : α} (h : r.Reads bytes x)
    (step : σ → α → Except Fault σ) (s : σ) (rest : Bytes) :
    r.foldAll step s (bytes ++ rest) = (step s x).bind fun s => r.foldAll step s rest :=
  foldAll_of_read (h rest) step s

end ItemReader

end TagExchange
