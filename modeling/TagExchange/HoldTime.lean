import TagExchange.Fault

/-!
# Hold times

A hold time is given in seconds as a minimum and, where `max` is not zero, a maximum. A minimum
of zero turns the hold timer off, and no other minimum lies below three.
-/

namespace TagExchange

structure HoldTime where
  min : Nat
  max : Nat := 0
  deriving DecidableEq, Repr

namespace HoldTime

/-- The smallest minimum that does not turn the timer off. -/
def floor : Nat := 3

/-- The largest value of either field. -/
def top : Nat := 65535

def MinOk (min : Nat) : Prop := min = 0 ∨ (floor ≤ min ∧ min ≤ top)

instance (min : Nat) : Decidable (MinOk min) :=
  inferInstanceAs (Decidable (min = 0 ∨ (floor ≤ min ∧ min ≤ top)))

def ofMin (min : Nat) : Except Fault HoldTime :=
  if MinOk min then .ok { min } else .error (.holdTimeMin min)

/-- A range. When the minimum turns the timer off, the maximum is dropped unseen. -/
def ofRange (min max : Nat) : Except Fault HoldTime :=
  if ¬MinOk min then .error (.holdTimeMin min)
  else if min = 0 then .ok { min := 0 }
  else if min ≤ max ∧ max ≤ top then .ok { min, max }
  else .error (.holdTimeMax min max)

def isDisabled (h : HoldTime) : Bool := h.min == 0

def bytes (h : HoldTime) : Bytes :=
  wordBytes 2 h.min ++ if h.max = 0 then [] else wordBytes 2 h.max

/-- Two bytes are a minimum, four a range. -/
def ofBytes (bs : Bytes) : Except Fault HoldTime :=
  if bs.length = 2 then ofMin (word bs)
  else if bs.length = 4 then ofRange (word (bs.take 2)) (word (bs.drop 2))
  else .error (.holdTimeSize bs.length)

def text (h : HoldTime) : String := s!"{h.min}-{h.max}"

end HoldTime

end TagExchange
