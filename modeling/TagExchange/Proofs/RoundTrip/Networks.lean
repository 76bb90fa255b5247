import TagExchange.Address.Lemmas
import TagExchange.Attribute.Codec
import TagExchange.Proofs.RoundTrip.Items

/-!
# Networks on the wire

A network is canonical exactly when `Net.of` builds it (`Net.canonical_iff`). Its written form drops
the octets that its length does not cover, and the reader clears what is left beyond the length, so
any network is read back as `Net.of` builds it (`Net.reads`) and a canonical one as it was.
-/

namespace TagExchange

namespace Net

variable {w : Nat}

@[simp] theorem getLsbD_mask (n : Net w) (i : Nat) :
    n.mask.getLsbD i = (decide (i < w) && decide (w - n.length.toNat ≤ i)) := by
  by_cases hi : i < w
  · by_cases hs : w - n.length.toNat ≤ i
    · simp [mask, hi, hs]
    · simp [mask, hi, hs, Nat.lt_of_not_le hs]
  · simp [mask, hi]

theorem length_of (hw : w < 256) (addr : BitVec w) (length : UInt8) :
    (Net.of addr length).length.toNat = min length.toNat w := by
  have : min length.toNat w < 256 := by omega
  simp [Net.of, Nat.mod_eq_of_lt this]

/-- Building with the parts of a canonical network gives the network. -/
theorem of_canonical {n : Net w} (h : n.Canonical) : Net.of n.addr n.length = n := by
  have hmin : min n.length.toNat w = n.length.toNat := Nat.min_eq_left h.length_le
  rw [Net.of, hmin, UInt8.ofNat_toNat]
  exact h.clean_eq

theorem canonical_of (hw : w < 256) (addr : BitVec w) (length : UInt8) :
    (Net.of addr length).Canonical := by
  refine ⟨?_, clean_clean _⟩
  rw [length_of hw]
  omega

/-- The canonical networks are those that `Net.of` builds. -/
theorem canonical_iff (hw : w < 256) (n : Net w) :
    n.Canonical ↔ ∃ addr length, n = Net.of addr length := by
  constructor
  · intro h
    exact ⟨n.addr, n.length, (of_canonical h).symm⟩
  · rintro ⟨addr, length, rfl⟩
    exact canonical_of hw addr length

/-- Two addresses that agree in the bits that a length covers give the same network. -/
theorem of_congr {a b : BitVec w} {length : UInt8}
    (h : ∀ i, w - length.toNat ≤ i → a.getLsbD i = b.getLsbD i) :
    Net.of a length = Net.of b length := by
  have hlen : (UInt8.ofNat (min length.toNat w)).toNat = min length.toNat w := by
    have := length.toNat_lt
    simp
    omega
  simp only [Net.of, clean, mk.injEq, and_true]
  apply BitVec.eq_of_getLsbD_eq
  intro i hi
  rw [BitVec.getLsbD_and, BitVec.getLsbD_and, getLsbD_mask, getLsbD_mask, hlen]
  by_cases hcovered : w - length.toNat ≤ i
  · rw [h i hcovered]
  · have hopen : ¬ w - min length.toNat w ≤ i := by omega
    simp [hopen]

/-- Zeros stand for the octets that are left out; the other bits are those of the address. -/
theorem getLsbD_octets_take (hw : w % 8 = 0) (addr : BitVec w) {k i : Nat}
    (hi : 8 * (w / 8 - k) ≤ i) :
    (ofOctets w ((octets addr).take k ++ List.replicate (w / 8 - k) 0)).getLsbD i =
      addr.getLsbD i := by
  have hdrop : ((octets addr).drop k).length = w / 8 - k := by simp
  have hpow (n : Nat) : 256 ^ n = 2 ^ (8 * n) := by
    rw [show 256 = 2 ^ 8 by rfl, ← pow_mul]
  have hsplit : word ((octets addr).take k) * 256 ^ (w / 8 - k) +
      word ((octets addr).drop k) = addr.toNat := by
    have happend := word_append ((octets addr).take k) ((octets addr).drop k)
    rw [List.take_append_drop, hdrop, word_octets hw] at happend
    exact happend.symm
  have hfront : word ((octets addr).take k) = addr.toNat / 2 ^ (8 * (w / 8 - k)) := by
    have hlt := word_lt ((octets addr).drop k)
    rw [hdrop] at hlt
    rw [← hsplit, ← hpow, Nat.add_comm, Nat.add_mul_div_right _ _ (Nat.pow_pos (by decide)),
      Nat.div_eq_of_lt hlt, Nat.zero_add]
  rw [ofOctets, word_append, word_replicate_zero, List.length_replicate, hfront, Nat.add_zero,
    BitVec.getLsbD_ofNat, hpow, Nat.testBit_mul_two_pow, Nat.testBit_div_two_pow,
    Nat.sub_add_cancel hi, BitVec.testBit_toNat]
  by_cases hiw : i < w
  · simp [hi, hiw]
  · simp [hiw, BitVec.getLsbD_of_ge addr i (Nat.not_lt.1 hiw)]

/-- The network as `Net.of` builds it from its parts. -/
def rebuilt (n : Net w) : Net w := .of n.addr n.length

theorem rebuilt_of_canonical {n : Net w} (h : n.Canonical) : n.rebuilt = n := of_canonical h

theorem hostBits_host (hw : w < 256) (addr : BitVec w) : (host addr).hostBits = 0 := by
  simp [hostBits, host, Nat.mod_eq_of_lt hw]

/-- A block without open bits is read as the single address. -/
theorem rebuilt_of_hostBits (hw : w < 256) {n : Net w} (h : n.hostBits = 0) :
    n.rebuilt = .host n.addr := by
  have hle : w ≤ n.length.toNat := by
    rw [hostBits] at h
    omega
  have hmask : mask (host n.addr) = BitVec.allOnes w := by
    simp [mask, host, Nat.mod_eq_of_lt hw]
  rw [rebuilt, of, min_eq_right hle]
  show { host n.addr with addr := n.addr &&& mask (host n.addr) } = _
  rw [hmask, BitVec.and_allOnes]
  rfl

/-- A network comes back from the wire rebuilt. -/
theorem reads (hw : w % 8 = 0) (n : Net w) : (reader w).Reads n.bytes n.rebuilt := by
  intro rest
  set bits := min n.length.toNat w with hbits
  have hbyte : (UInt8.ofNat bits).toNat = bits := by
    have := n.length.toNat_lt
    simp
    omega
  have htake : ((octets n.addr).take (octetsFor bits)).length = octetsFor bits := by
    simp only [List.length_take, length_octets, octetsFor]
    omega
  have hread : readWord 1 (n.bytes ++ rest) =
      .ok (bits, (octets n.addr).take (octetsFor bits) ++ rest) := by
    have hcons := readWord_cons (UInt8.ofNat bits) ((octets n.addr).take (octetsFor bits) ++ rest)
    rw [hbyte] at hcons
    exact hcons
  have hnot : ¬ w < bits := by omega
  have hof : Net.of (ofOctets w ((octets n.addr).take (octetsFor bits) ++
      List.replicate (w / 8 - octetsFor bits) 0)) (UInt8.ofNat bits) = n.rebuilt := by
    have hmin : min (UInt8.ofNat bits).toNat w = min n.length.toNat w := by omega
    have hlength : Net.of n.addr (UInt8.ofNat bits) = n.rebuilt := by
      rw [rebuilt, Net.of, Net.of, hmin]
    rw [← hlength]
    apply of_congr
    intro i hi
    apply getLsbD_octets_take hw
    rw [hbyte] at hi
    simp only [octetsFor]
    omega
  show read w (n.bytes ++ rest) = .ok (n.rebuilt, rest)
  simp only [read, hread, bind, Except.bind, hnot, if_false, readBytes_append htake, htake, hof,
    pure, Except.pure]

end Net

namespace Network

theorem Canonical.clean_eq {n : Network} (h : n.Canonical) : n.clean = n := by
  cases n with
  | v4 n => exact congrArg v4 (Net.Canonical.clean_eq h)
  | v6 n => exact congrArg v6 (Net.Canonical.clean_eq h)

/-- Building with the parts of a canonical network gives the network. -/
theorem of_canonical {n : Network} (h : n.Canonical) : Network.of n.addr n.length = n := by
  cases n with
  | v4 n => exact congrArg v4 (Net.of_canonical h)
  | v6 n => exact congrArg v6 (Net.of_canonical h)

/-- The network as `Network.of` builds it from its parts. -/
def rebuilt : Network → Network
  | v4 n => v4 n.rebuilt
  | v6 n => v6 n.rebuilt

theorem rebuilt_of_canonical {n : Network} (h : n.Canonical) : n.rebuilt = n := by
  cases n with
  | v4 n => exact congrArg v4 (Net.rebuilt_of_canonical h)
  | v6 n => exact congrArg v6 (Net.rebuilt_of_canonical h)

theorem canonical_of (addr : Address) (length : UInt8) : (Network.of addr length).Canonical := by
  cases addr with
  | v4 a => exact Net.canonical_of (by decide) a length
  | v6 a => exact Net.canonical_of (by decide) a length

theorem isHost_host (addr : Address) : (host addr).isHost = true := by
  cases addr with
  | v4 a => rfl
  | v6 a => rfl

theorem addr_host (addr : Address) : (host addr).addr = addr := by
  cases addr <;> rfl

/-- A single address is as `Network.of` builds it. -/
theorem canonical_host (addr : Address) : (host addr).Canonical := by
  cases addr with
  | v4 a =>
    rw [show host (.v4 a) = v4 (Net.rebuilt (.host a)) from
      congrArg v4 (Net.rebuilt_of_hostBits (by decide) (Net.hostBits_host (by decide) a)).symm]
    exact Net.canonical_of (by decide) _ _
  | v6 a =>
    rw [show host (.v6 a) = v6 (Net.rebuilt (.host a)) from
      congrArg v6 (Net.rebuilt_of_hostBits (by decide) (Net.hostBits_host (by decide) a)).symm]
    exact Net.canonical_of (by decide) _ _

/-- A canonical network without open bits is a single address. -/
theorem host_addr {n : Network} (h : n.Canonical) (hhost : n.isHost = true) : host n.addr = n := by
  cases n with
  | v4 n | v6 n =>
    have hbits : n.hostBits = 0 := by simpa [isHost, hostBits] using hhost
    have hrebuilt := Net.rebuilt_of_hostBits (by decide) hbits
    rw [Net.rebuilt_of_canonical h] at hrebuilt
    rw [hrebuilt]
    rfl

end Network

end TagExchange
