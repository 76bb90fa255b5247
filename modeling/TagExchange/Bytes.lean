/-!
# Byte strings

Everything on the wire and in a key is a list of bytes. A word is written with its most
significant byte first.
-/

namespace TagExchange

abbrev Bytes := List UInt8

/-- The last `n` bytes of a number, most significant first. -/
def wordBytes : Nat → Nat → Bytes
  | 0, _ => []
  | n + 1, v => UInt8.ofNat (v >>> (8 * n)) :: wordBytes n v

/-- The number that a byte string writes in base 256. -/
def word : Bytes → Nat
  | [] => 0
  | b :: bs => b.toNat <<< (8 * bs.length) + word bs

@[simp] theorem length_wordBytes (n v : Nat) : (wordBytes n v).length = n := by
  induction n with
  | zero => rfl
  | succ n ih => simp [wordBytes, ih]

/-- The first `n` bytes and the rest, when there are that many. -/
def split? (n : Nat) (bs : Bytes) : Option (Bytes × Bytes) :=
  if bs.length < n then none else some (bs.splitAt n)

theorem split?_eq_some_iff {n : Nat} {bs x rest : Bytes} :
    split? n bs = some (x, rest) ↔ bs = x ++ rest ∧ x.length = n := by
  simp only [split?, List.splitAt_eq]
  constructor
  · intro h
    split at h
    · simp at h
    · simp only [Option.some.injEq, Prod.mk.injEq] at h
      obtain ⟨rfl, rfl⟩ := h
      simp; omega
  · rintro ⟨rfl, rfl⟩
    simp

@[simp] theorem split?_append (x rest : Bytes) : split? x.length (x ++ rest) = some (x, rest) :=
  split?_eq_some_iff.2 ⟨rfl, rfl⟩

theorem split?_eq_none_iff {n : Nat} {bs : Bytes} : split? n bs = none ↔ bs.length < n := by
  simp [split?]

end TagExchange
