import Mathlib
import TagExchange.Bytes

/-!
# Words and numbers

Reading a word back gives the number modulo the size of the word (`word_wordBytes`), and writing
what was read gives the same bytes (`wordBytes_word`).
-/

namespace TagExchange

theorem wordBytes_succ (n v : Nat) :
    wordBytes (n + 1) v = UInt8.ofNat (v / 256 ^ n) :: wordBytes n v := by
  rw [wordBytes, Nat.shiftRight_eq_div_pow, Nat.pow_mul]

theorem word_cons (b : UInt8) (bs : Bytes) :
    word (b :: bs) = b.toNat * 256 ^ bs.length + word bs := by
  rw [word, Nat.shiftLeft_eq, Nat.pow_mul]

theorem word_lt (bs : Bytes) : word bs < 256 ^ bs.length := by
  induction bs with
  | nil => simp [word]
  | cons b bs ih =>
    have hb : b.toNat + 1 ≤ 256 := b.toNat_lt
    have := Nat.mul_le_mul_right (256 ^ bs.length) hb
    simp only [word_cons, List.length_cons, Nat.pow_succ, Nat.add_mul] at *
    omega

theorem word_wordBytes (n v : Nat) : word (wordBytes n v) = v % 256 ^ n := by
  induction n with
  | zero => simp [wordBytes, word, Nat.mod_one]
  | succ n ih =>
    have byte : (UInt8.ofNat (v / 256 ^ n)).toNat = v / 256 ^ n % 256 := by simp
    rw [wordBytes_succ, word_cons, length_wordBytes, ih, byte, Nat.pow_succ (n := 256),
      Nat.mod_mul, Nat.mul_comm, Nat.add_comm]

theorem word_wordBytes_of_lt {n v : Nat} (h : v < 256 ^ n) : word (wordBytes n v) = v := by
  rw [word_wordBytes, Nat.mod_eq_of_lt h]

/-- Only the last `n` digits of a number are written. -/
theorem wordBytes_add_mul (n v k : Nat) : wordBytes n (v + k * 256 ^ n) = wordBytes n v := by
  induction n generalizing k with
  | zero => rfl
  | succ n ih =>
    have hpow : k * 256 ^ (n + 1) = (k * 256) * 256 ^ n := by
      rw [Nat.pow_succ, Nat.mul_comm (256 ^ n), Nat.mul_assoc]
    rw [wordBytes_succ, wordBytes_succ, hpow, ih,
      Nat.add_mul_div_right _ _ (Nat.pow_pos (by decide))]
    congr 1
    apply UInt8.toNat.inj
    simp

theorem wordBytes_word (bs : Bytes) : wordBytes bs.length (word bs) = bs := by
  induction bs with
  | nil => rfl
  | cons b bs ih =>
    have hlt := word_lt bs
    rw [List.length_cons, wordBytes_succ, word_cons, Nat.add_comm, wordBytes_add_mul, ih,
      Nat.add_mul_div_right _ _ (Nat.pow_pos (by decide)), Nat.div_eq_of_lt hlt, Nat.zero_add]
    congr 1
    exact UInt8.toNat.inj (by simp)

end TagExchange
