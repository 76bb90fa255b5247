import TagExchange.Bytes

/-!
# UTF-8

Decoding never fails: where the bytes are not UTF-8, the longest start of a character there, or
the one byte that starts none, becomes a replacement character.
-/

namespace TagExchange.Utf8

def encode (s : String) : Bytes := s.toUTF8.data.toList

/-- The bytes still to come after a first byte, and the range of the next of them. -/
structure Pending where
  count : Nat
  low : Nat := 0x80
  high : Nat := 0xBF

/-- What a first byte of a longer character asks for. -/
def lead? (b : Nat) : Option Pending :=
  if 0xC2 ≤ b && b ≤ 0xDF then some { count := 1 }
  else if b == 0xE0 then some { count := 2, low := 0xA0 }
  else if b == 0xED then some { count := 2, high := 0x9F }
  else if 0xE1 ≤ b && b ≤ 0xEF then some { count := 2 }
  else if b == 0xF0 then some { count := 3, low := 0x90 }
  else if 0xF1 ≤ b && b ≤ 0xF3 then some { count := 3 }
  else if b == 0xF4 then some { count := 3, high := 0x8F }
  else none

/-- Reads the pending bytes onto the bits so far. Where one does not fit, no character results
and it is left to be read again. -/
def finish (bits : Nat) : Pending → Bytes → Option Nat × Bytes
  | ⟨0, _, _⟩, bs => (some bits, bs)
  | ⟨_ + 1, _, _⟩, [] => (none, [])
  | ⟨n + 1, low, high⟩, b :: bs =>
    if low ≤ b.toNat ∧ b.toNat ≤ high then finish (bits * 64 + b.toNat % 64) ⟨n, 0x80, 0xBF⟩ bs
    else (none, b :: bs)

theorem length_finish (bits : Nat) (p : Pending) (bs : Bytes) :
    (finish bits p bs).2.length ≤ bs.length := by
  fun_induction finish bits p bs <;> grind

def replacement : Char := '\uFFFD'

/-- The bits that a first byte of a longer character contributes. -/
def leadBits (p : Pending) (b : Nat) : Nat := b % (64 >>> p.count)

def decode : Bytes → List Char
  | [] => []
  | b :: bs =>
    if b.toNat < 0x80 then Char.ofNat b.toNat :: decode bs
    else
      match lead? b.toNat with
      | none => replacement :: decode bs
      | some p =>
        let r := finish (leadBits p b.toNat) p bs
        (r.1.map Char.ofNat).getD replacement :: decode r.2
termination_by bs => bs.length
decreasing_by
  all_goals simp only [List.length_cons]
  · omega
  · omega
  · have := length_finish (leadBits p b.toNat) p bs
    omega

end TagExchange.Utf8
