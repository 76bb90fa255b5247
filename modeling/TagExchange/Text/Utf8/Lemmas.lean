import Mathlib
import TagExchange.Text.Utf8

/-!
# Text and bytes

The bytes of a text are decoded to the text (`Utf8.decode_encode`): each character is told by its
first byte, and the bytes behind it are in the range that the first one asks for.
-/

namespace TagExchange.Utf8

/-- A byte that fits contributes its last six bits. -/
theorem finish_cons {bits n low high : Nat} {b : UInt8} (hb : low ≤ b.toNat ∧ b.toNat ≤ high)
    (bs : Bytes) :
    finish bits ⟨n + 1, low, high⟩ (b :: bs) =
      finish (bits * 64 + b.toNat % 64) ⟨n, 0x80, 0xBF⟩ bs := by
  rw [finish, if_pos hb]

theorem decode_of_lead {b : UInt8} {p : Pending} {bits : Nat} {bs rest : Bytes}
    (hb : 0x80 ≤ b.toNat) (hlead : lead? b.toNat = some p)
    (hfinish : finish (leadBits p b.toNat) p bs = (some bits, rest)) :
    decode (b :: bs) = Char.ofNat bits :: decode rest := by
  rw [decode, if_neg (Nat.not_lt.2 hb)]
  simp [hlead, hfinish]

theorem toNat_byte {n : Nat} (h : n < 256) : (UInt8.ofNat n).toNat = n := by
  simp [Nat.mod_eq_of_lt h]

/-- The byte behind the first for the last six bits of a number. -/
def trail (v : Nat) : UInt8 := UInt8.ofNat (v % 0x40 + 0x80)

theorem toNat_trail (v : Nat) : (trail v).toNat = v % 64 + 128 := toNat_byte (by omega)

/-- A trailing byte is read where the range starts and ends as usual. -/
theorem finish_trail (bits n v : Nat) (bs : Bytes) :
    finish bits ⟨n + 1, 0x80, 0xBF⟩ (trail v :: bs) =
      finish (bits * 64 + v % 64) ⟨n, 0x80, 0xBF⟩ bs := by
  have hv := toNat_trail v
  rw [finish_cons (by omega), hv, show (v % 64 + 128) % 64 = v % 64 by omega]

theorem lead?_two {b : Nat} (h : 0xC2 ≤ b ∧ b ≤ 0xDF) : lead? b = some ⟨1, 0x80, 0xBF⟩ := by
  simp [lead?, h]

/-- The first of three bytes keeps out what fits into two, and the surrogates. -/
theorem lead?_three {b : Nat} (h : 0xE0 ≤ b ∧ b ≤ 0xEF) :
    lead? b = some ⟨2, if b = 0xE0 then 0xA0 else 0x80, if b = 0xED then 0x9F else 0xBF⟩ := by
  have h2 : ¬ b ≤ 0xDF := by omega
  by_cases h0 : b = 0xE0
  · simp [lead?, h0]
  · by_cases hD : b = 0xED
    · simp [lead?, hD]
    · have h1 : 0xE1 ≤ b := by omega
      simp [lead?, h0, hD, h2, h1, h.2]

/-- The first of four bytes keeps out what fits into three, and what is beyond the last
character. -/
theorem lead?_four {b : Nat} (h : 0xF0 ≤ b ∧ b ≤ 0xF4) :
    lead? b = some ⟨3, if b = 0xF0 then 0x90 else 0x80, if b = 0xF4 then 0x8F else 0xBF⟩ := by
  have h2 : ¬ b ≤ 0xDF := by omega
  have h3 : ¬ b ≤ 0xEF := by omega
  by_cases h0 : b = 0xF0
  · simp [lead?, h0]
  · by_cases h4 : b = 0xF4
    · simp [lead?, h4]
    · have h1 : 0xF1 ≤ b := by omega
      have hF : b ≤ 0xF3 := by omega
      have hE : b ≠ 0xE0 := by omega
      have hD : b ≠ 0xED := by omega
      simp [lead?, h0, h4, h2, h3, h1, hF, hE, hD]

theorem decode_two {v : Nat} (h : 0x80 ≤ v ∧ v < 0x800) (rest : Bytes) :
    decode (UInt8.ofNat (v / 64 % 0x20 + 0xC0) :: trail v :: rest) =
      Char.ofNat v :: decode rest := by
  have hb : (UInt8.ofNat (v / 64 % 0x20 + 0xC0)).toNat = v / 64 + 192 := by
    rw [toNat_byte (by omega)]
    omega
  have hbits : leadBits ⟨1, 0x80, 0xBF⟩ (v / 64 + 192) = v / 64 := by
    show (v / 64 + 192) % 32 = v / 64
    omega
  refine decode_of_lead (by omega) (by rw [hb]; exact lead?_two (by omega)) ?_
  rw [hb, hbits]
  show finish _ ⟨0 + 1, _, _⟩ (trail v :: rest) = _
  rw [finish_trail, finish]
  congr 2
  omega

theorem decode_three {v : Nat} (h : 0x800 ≤ v ∧ v < 0x10000) (hv : v < 0xD800 ∨ 0xDFFF < v)
    (rest : Bytes) :
    decode (UInt8.ofNat (v / 4096 % 0x10 + 0xE0) :: trail (v / 64) :: trail v :: rest) =
      Char.ofNat v :: decode rest := by
  have hb : (UInt8.ofNat (v / 4096 % 0x10 + 0xE0)).toNat = v / 4096 + 224 := by
    rw [toNat_byte (by omega)]
    omega
  have hbits (low high : Nat) : leadBits ⟨2, low, high⟩ (v / 4096 + 224) = v / 4096 := by
    show (v / 4096 + 224) % 16 = v / 4096
    omega
  have htrail := toNat_trail (v / 64)
  refine decode_of_lead (by omega) (by rw [hb]; exact lead?_three (by omega)) ?_
  rw [hb, hbits]
  show finish _ ⟨1 + 1, _, _⟩ (trail (v / 64) :: trail v :: rest) = _
  rw [finish_cons (by split <;> split <;> omega), htrail]
  show finish _ ⟨0 + 1, _, _⟩ (trail v :: rest) = _
  rw [finish_trail, finish]
  congr 2
  omega

theorem decode_four {v : Nat} (h : 0x10000 ≤ v ∧ v < 0x110000) (rest : Bytes) :
    decode (UInt8.ofNat (v / 262144 % 0x08 + 0xF0) :: trail (v / 4096) :: trail (v / 64) ::
      trail v :: rest) = Char.ofNat v :: decode rest := by
  have hb : (UInt8.ofNat (v / 262144 % 0x08 + 0xF0)).toNat = v / 262144 + 240 := by
    rw [toNat_byte (by omega)]
    omega
  have hbits (low high : Nat) : leadBits ⟨3, low, high⟩ (v / 262144 + 240) = v / 262144 := by
    show (v / 262144 + 240) % 8 = v / 262144
    omega
  have htrail := toNat_trail (v / 4096)
  refine decode_of_lead (by omega) (by rw [hb]; exact lead?_four (by omega)) ?_
  rw [hb, hbits]
  show finish _ ⟨2 + 1, _, _⟩ (trail (v / 4096) :: trail (v / 64) :: trail v :: rest) = _
  rw [finish_cons (by split <;> split <;> omega), htrail]
  show finish _ ⟨1 + 1, _, _⟩ (trail (v / 64) :: trail v :: rest) = _
  rw [finish_trail]
  show finish _ ⟨0 + 1, _, _⟩ (trail v :: rest) = _
  rw [finish_trail, finish]
  congr 2
  omega

/-- The bytes of a character are decoded to it, whatever follows. -/
theorem decode_utf8EncodeChar (c : Char) (rest : Bytes) :
    decode (String.utf8EncodeChar c ++ rest) = c :: decode rest := by
  have hvalid : c.toNat < 0xD800 ∨ (0xDFFF < c.toNat ∧ c.toNat < 0x110000) := c.valid
  have hchar : Char.ofNat c.toNat = c := Char.ofNat_toNat c
  have hbytes : String.utf8EncodeChar c =
      if c.toNat ≤ 0x7F then [UInt8.ofNat c.toNat]
      else if c.toNat ≤ 0x7FF then [UInt8.ofNat (c.toNat / 64 % 0x20 + 0xC0), trail c.toNat]
      else if c.toNat ≤ 0xFFFF then
        [UInt8.ofNat (c.toNat / 4096 % 0x10 + 0xE0), trail (c.toNat / 64), trail c.toNat]
      else
        [UInt8.ofNat (c.toNat / 262144 % 0x08 + 0xF0), trail (c.toNat / 4096),
          trail (c.toNat / 64), trail c.toNat] := rfl
  generalize c.toNat = v at hvalid hchar hbytes
  rw [hbytes, ← hchar]
  split
  · have hb : (UInt8.ofNat v).toNat = v := toNat_byte (by omega)
    rw [List.cons_append, List.nil_append, decode, if_pos (by omega), hb]
  · split
    · exact decode_two (by omega) rest
    · split
      · exact decode_three (by omega) (by omega) rest
      · exact decode_four (by omega) rest

theorem encode_eq_flatMap (s : String) : encode s = s.toList.flatMap String.utf8EncodeChar := by
  rw [encode, String.toUTF8_eq_toByteArray, ← String.utf8Encode_toList, List.utf8Encode]
  simp

theorem decode_encode (s : String) : decode (encode s) = s.toList := by
  rw [encode_eq_flatMap]
  induction s.toList with
  | nil => rw [List.flatMap_nil, decode]
  | cons c cs ih => rw [List.flatMap_cons, decode_utf8EncodeChar, ih]

end TagExchange.Utf8
