import TagExchange.Network.Expansion
import TagExchange.Proofs.RoundTrip.Networks

/-!
# The addresses of a network

An address lies in a block when it has the bits of the block that the length covers. In a clean
block these are the addresses from its own onwards, two to the number of open bits of them
(`Net.covers_iff`). So counting up from the network address gives the first addresses of the block,
without a gap, without an address of another block and without a second turn (`Net.hosts_eq`).
-/

namespace TagExchange

theorem filter_range_between {lo size top : Nat} (h : lo + size ≤ top) :
    ((List.range top).filter fun i => decide (lo ≤ i ∧ i < lo + size)) =
      (List.range size).map fun i => lo + i := by
  obtain ⟨rest, rfl⟩ := Nat.exists_eq_add_of_le h
  rw [List.range_add, List.range_add, List.filter_append, List.filter_append]
  have hbelow : ((List.range lo).filter fun i => decide (lo ≤ i ∧ i < lo + size)) = [] := by
    simp only [List.filter_eq_nil_iff, List.mem_range, decide_eq_true_eq]
    omega
  have hinside : (((List.range size).map fun i => lo + i).filter
      fun i => decide (lo ≤ i ∧ i < lo + size)) = (List.range size).map fun i => lo + i := by
    simp only [List.filter_eq_self, List.mem_map, List.mem_range, decide_eq_true_eq]
    omega
  have habove : (((List.range rest).map fun i => lo + size + i).filter
      fun i => decide (lo ≤ i ∧ i < lo + size)) = [] := by
    simp only [List.filter_eq_nil_iff, List.mem_map, List.mem_range, decide_eq_true_eq]
    omega
  rw [hbelow, hinside, habove, List.nil_append, List.append_nil]

namespace Net

variable {w : Nat} {n : Net w}

/-- An address has the bits of a block that its length covers. -/
def covers (n : Net w) (a : BitVec w) : Bool := a &&& n.mask == n.addr

/-- The addresses of a block, in their order. -/
def addresses (n : Net w) : List (BitVec w) :=
  ((List.range (2 ^ w)).map (BitVec.ofNat w)).filter n.covers

theorem hostBits_le (n : Net w) : n.hostBits ≤ w := Nat.sub_le _ _

theorem size_eq (n : Net w) : n.size = 2 ^ n.hostBits := Nat.one_shiftLeft _

/-- Masking drops the remainder by the size of the block. -/
theorem toNat_and_mask (n : Net w) (a : BitVec w) :
    (a &&& n.mask).toNat = a.toNat / 2 ^ n.hostBits * 2 ^ n.hostBits := by
  apply Nat.eq_of_testBit_eq
  intro i
  rw [Nat.testBit_mul_two_pow, Nat.testBit_div_two_pow, BitVec.testBit_toNat, BitVec.getLsbD_and,
    getLsbD_mask, ← hostBits]
  by_cases hopen : n.hostBits ≤ i
  · rw [Nat.sub_add_cancel hopen, BitVec.testBit_toNat]
    by_cases hi : i < w
    · simp [hopen, hi]
    · simp [BitVec.getLsbD_of_ge a i (Nat.not_lt.1 hi)]
  · simp [hopen]

theorem clean_eq_iff (n : Net w) :
    n.clean = n ↔ n.addr.toNat / 2 ^ n.hostBits * 2 ^ n.hostBits = n.addr.toNat := by
  rw [← toNat_and_mask, BitVec.toNat_inj]
  cases n
  simp [clean]

/-- A block ends within the address space. -/
theorem toNat_add_le (h : n.clean = n) : n.addr.toNat + 2 ^ n.hostBits ≤ 2 ^ w := by
  set q := n.addr.toNat / 2 ^ n.hostBits
  have hq : q * 2 ^ n.hostBits = n.addr.toNat := (clean_eq_iff n).1 h
  obtain ⟨k, hk⟩ : 2 ^ n.hostBits ∣ 2 ^ w := Nat.pow_dvd_pow 2 n.hostBits_le
  have hlt : q < k := by
    apply Nat.lt_of_mul_lt_mul_right (a := 2 ^ n.hostBits)
    rw [hq, Nat.mul_comm, ← hk]
    exact n.addr.isLt
  calc n.addr.toNat + 2 ^ n.hostBits = (q + 1) * 2 ^ n.hostBits := by rw [Nat.succ_mul, hq]
    _ ≤ k * 2 ^ n.hostBits := Nat.mul_le_mul_right _ hlt
    _ = 2 ^ w := by rw [hk, Nat.mul_comm]

/-- The addresses of a block are those from its own onwards. -/
theorem covers_iff (h : n.clean = n) (a : BitVec w) :
    n.covers a = true ↔
      n.addr.toNat ≤ a.toNat ∧ a.toNat < n.addr.toNat + 2 ^ n.hostBits := by
  have hpos : 0 < 2 ^ n.hostBits := Nat.two_pow_pos _
  rw [covers, beq_iff_eq, ← BitVec.toNat_inj, toNat_and_mask, ← (clean_eq_iff n).1 h,
    Nat.mul_left_inj hpos.ne', Nat.div_eq_iff hpos]
  omega

theorem addresses_eq (h : n.clean = n) :
    n.addresses = (List.range (2 ^ n.hostBits)).map fun i => n.addr + BitVec.ofNat w i := by
  have hcovers : ((List.range (2 ^ w)).filter (n.covers ∘ BitVec.ofNat w)) =
      (List.range (2 ^ w)).filter fun i =>
        decide (n.addr.toNat ≤ i ∧ i < n.addr.toNat + 2 ^ n.hostBits) := by
    apply List.filter_congr
    intro i hi
    have hnat : (BitVec.ofNat w i).toNat = i := by
      rw [BitVec.toNat_ofNat, Nat.mod_eq_of_lt (List.mem_range.1 hi)]
    rw [Bool.eq_iff_iff, Function.comp_apply, covers_iff h, hnat, decide_eq_true_eq]
  rw [addresses, List.filter_map, hcovers, filter_range_between (toNat_add_le h), List.map_map]
  apply List.map_congr_left
  intro i _
  rw [Function.comp_apply, BitVec.ofNat_add, BitVec.ofNat_toNat, BitVec.setWidth_eq]

/-- Counting up from the address of a block gives its first addresses. -/
theorem hosts_eq (h : n.clean = n) (limit : Nat) :
    n.hosts limit = (n.addresses.take limit).map .host := by
  rw [hosts, size_eq, addresses_eq h, ← List.map_take, List.take_range,
    List.map_map, Nat.min_comm]
  rfl

end Net

namespace Network

theorem size_eq (n : Network) : n.size = 2 ^ n.hostBits := by
  cases n <;> exact Net.size_eq _

/-- The addresses of a network, in their order. -/
def addresses : Network → List Address
  | v4 n => n.addresses.map .v4
  | v6 n => n.addresses.map .v6

theorem hosts_eq {n : Network} (h : n.Canonical) (limit : Nat) :
    n.hosts limit = (n.addresses.take limit).map host := by
  cases n with
  | v4 n | v6 n =>
    have hclean : n.clean = n := Net.Canonical.clean_eq h
    rw [hosts, addresses, Net.hosts_eq hclean, ← List.map_take, List.map_map, List.map_map]
    rfl

end Network

end TagExchange
