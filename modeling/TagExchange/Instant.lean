/-!
# Instants

A point in time is a count of seconds since 1970-01-01T00:00:00Z and a count of nanoseconds.
A leap second is the second before it with 10⁹ or more nanoseconds, so instants are still
ordered by seconds and then nanoseconds.
-/

namespace TagExchange

structure Instant where
  seconds : Int
  nanos : Nat := 0
  deriving DecidableEq, Repr, Inhabited

namespace Instant

instance : LT Instant where
  lt a b := a.seconds < b.seconds ∨ (a.seconds = b.seconds ∧ a.nanos < b.nanos)

instance (a b : Instant) : Decidable (a < b) :=
  inferInstanceAs (Decidable (a.seconds < b.seconds ∨ (a.seconds = b.seconds ∧ a.nanos < b.nanos)))

theorem lt_def {a b : Instant} :
    a < b ↔ a.seconds < b.seconds ∨ (a.seconds = b.seconds ∧ a.nanos < b.nanos) := Iff.rfl

theorem lt_irrefl (a : Instant) : ¬ a < a := by
  simp only [lt_def]
  omega

end Instant

/-- A clock that is read: every reading is one second after the one before. -/
structure Clock where
  next : Instant
  deriving DecidableEq, Repr

namespace Clock

def read (c : Clock) : Instant × Clock := (c.next, ⟨⟨c.next.seconds + 1, c.next.nanos⟩⟩)

end Clock

end TagExchange
