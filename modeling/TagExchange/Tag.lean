import TagExchange.Fault

/-!
# Security group tags

A tag on the wire lies between 2 and 65519; the values outside are reserved.
-/

namespace TagExchange

structure Tag where
  value : UInt16
  inRange : 2 ≤ value.toNat ∧ value.toNat ≤ 65519
  deriving DecidableEq, Repr

namespace Tag

def of? (n : Nat) : Except Fault Tag :=
  if h : 2 ≤ n ∧ n ≤ 65519 then
    .ok ⟨UInt16.ofNat n, by rw [UInt16.toNat_ofNat_of_lt' (by simp [UInt16.size]; omega)]; exact h⟩
  else .error (.tagRange n)

theorem of?_value (t : Tag) : of? t.value.toNat = .ok t := by
  simp [of?, t.inRange]

theorem of?_eq_ok_iff {n : Nat} {t : Tag} : of? n = .ok t ↔ n = t.value.toNat := by
  constructor
  · intro h
    rw [of?] at h
    split at h
    · simp only [Except.ok.injEq] at h
      subst h
      rw [UInt16.toNat_ofNat_of_lt' (by simp [UInt16.size]; omega)]
    · simp at h
  · rintro rfl
    exact of?_value t

def text (t : Tag) : String := toString t.value.toNat

end Tag

end TagExchange
