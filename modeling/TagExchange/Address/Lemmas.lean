import TagExchange.Address
import TagExchange.Bytes.Lemmas

/-!
# Addresses and octets

An address and its octets say the same, and addresses of one family compare as numbers.
-/

namespace TagExchange

theorem word_octets {w : Nat} (hw : w % 8 = 0) (a : BitVec w) : word (octets a) = a.toNat := by
  have hpow : 256 ^ (w / 8) = 2 ^ w := by
    rw [show 256 = 2 ^ 8 by rfl, ← Nat.pow_mul, Nat.mul_div_cancel' (Nat.dvd_of_mod_eq_zero hw)]
  rw [octets, word_wordBytes_of_lt (hpow ▸ a.isLt)]

theorem ofOctets_octets {w : Nat} (hw : w % 8 = 0) (a : BitVec w) :
    ofOctets w (octets a) = a := by
  rw [ofOctets, word_octets hw, BitVec.ofNat_toNat, BitVec.setWidth_eq]

theorem octets_ofOctets {w : Nat} {bs : Bytes} (h : 8 * bs.length = w) :
    octets (ofOctets w bs) = bs := by
  have hlen : w / 8 = bs.length := by omega
  have hpow : 256 ^ bs.length = 2 ^ w := by
    rw [show 256 = 2 ^ 8 by rfl, ← Nat.pow_mul, h]
  have hlt := word_lt bs
  rw [octets, ofOctets, BitVec.toNat_ofNat, Nat.mod_eq_of_lt (hpow ▸ hlt), hlen, wordBytes_word]

theorem compare_toNat {w : Nat} (a b : BitVec w) : compare a.toNat b.toNat = compare a b := by
  show compareOfLessAndEq a.toNat b.toNat = compareOfLessAndEq a b
  simp only [compareOfLessAndEq, BitVec.lt_def, BitVec.toNat_inj]

end TagExchange
