import TagExchange.Proofs.Network.Addresses

/-!
# Counting in machine words

A machine counts up the hosts of a network in words of three widths: the size of the network is
compared with the limit in 128 bits, the counter has the width of the limit, and its values are cut
to the width of the addresses before they are added. From a clean network nothing is lost on the
way, because no sum is beyond the last address of the network (`Net.countUp_eq`). So the count gives
the first hosts of the network, in their order and each once (`Network.countUp_exact`).
-/

namespace TagExchange

/-- A traversal that never fails is a map. -/
theorem mapM_eq_some_map {α β : Type} {f : α → Option β} {g : α → β} {xs : List α}
    (h : ∀ x ∈ xs, f x = some (g x)) : xs.mapM f = some (xs.map g) := by
  induction xs with
  | nil => rfl
  | cons x xs ih =>
    rw [List.mapM_cons, h x (by simp), ih fun y hy => h y (by simp [hy])]
    rfl

namespace Net

variable {w s : Nat} {n : Net w}

theorem toNat_add_ofNat (h : n.clean = n) {i : Nat} (hi : i < n.size) :
    (n.addr + BitVec.ofNat w i).toNat = n.addr.toNat + i := by
  have hend := toNat_add_le h
  rw [size_eq] at hi
  rw [BitVec.toNat_add, BitVec.toNat_ofNat, Nat.add_mod_mod, Nat.mod_eq_of_lt (by omega)]

theorem covers_add_ofNat (h : n.clean = n) {i : Nat} (hi : i < n.size) :
    n.covers (n.addr + BitVec.ofNat w i) = true := by
  rw [covers_iff h, toNat_add_ofNat h hi]
  rw [size_eq] at hi
  omega

theorem getElem?_hosts {limit i : Nat} (hi : i < min n.size limit) :
    (n.hosts limit)[i]? = some (.host (n.addr + BitVec.ofNat w i)) := by
  rw [hosts, List.getElem?_map, List.getElem?_range hi]
  rfl

theorem compare_host {a b : BitVec w} (h : a.toNat < b.toNat) :
    compare (host a) (host b) = .lt := by
  have haddr : compare a b = .lt := if_pos h
  show (compare a b).then _ = .lt
  rw [haddr]
  rfl

/-- The hosts come in their order. -/
theorem ordered_hosts (h : n.clean = n) (limit : Nat) :
    (n.hosts limit).Pairwise fun a b => compare a b = .lt := by
  rw [hosts, List.pairwise_map]
  refine List.pairwise_lt_range.imp_of_mem fun {i j} hi hj hlt => compare_host ?_
  rw [List.mem_range] at hi hj
  rw [toNat_add_ofNat h (by omega), toNat_add_ofNat h (by omega)]
  omega

theorem mem_addresses {a : BitVec w} : a ∈ n.addresses ↔ n.covers a = true := by
  rw [addresses, List.mem_filter, List.mem_map]
  exact and_iff_right ⟨a.toNat, List.mem_range.2 a.isLt, by simp⟩

/-- With a limit of at least the size no host is missing. -/
theorem host_mem_hosts (h : n.clean = n) {limit : Nat} (hlimit : n.size ≤ limit) {a : BitVec w}
    (ha : n.covers a = true) : host a ∈ n.hosts limit := by
  have hlength : n.addresses.length ≤ limit := by
    rw [addresses_eq h, List.length_map, List.length_range, ← size_eq]
    exact hlimit
  rw [hosts_eq h, List.take_of_length_le hlength]
  exact List.mem_map_of_mem (mem_addresses.2 ha)

/-- The size of a block in 128 bits. That of the whole space of 128 bits does not fit and counts as
the largest number. -/
def wideSize (n : Net w) : BitVec 128 :=
  if n.hostBits < 128 then 1#128 <<< n.hostBits else BitVec.allOnes 128

/-- How many hosts are counted. -/
def tally (n : Net w) (limit : BitVec s) : BitVec s :=
  let wide := limit.setWidth 128
  (if n.wideSize < wide then n.wideSize else wide).setWidth s

/-- The host that the counter stands at, unless its address is beyond the last one. -/
def hostAt (n : Net w) (i : BitVec s) : Option (Net w) :=
  let step := i.setWidth w
  if n.addr.uaddOverflow step then none else some (.host (n.addr + step))

/-- The hosts as a machine counts them up, unless a sum does not fit. -/
def countUp (n : Net w) (limit : BitVec s) : Option (List (Net w)) :=
  (List.range (n.tally limit).toNat).mapM fun i => n.hostAt (BitVec.ofNat s i)

theorem toNat_wideSize (hw : w ≤ 128) (n : Net w) :
    n.wideSize.toNat = min n.size (2 ^ 128 - 1) := by
  rw [wideSize, size_eq]
  split
  · next hlt =>
    have hpow : 2 ^ n.hostBits < 2 ^ 128 := Nat.pow_lt_pow_right (by decide) hlt
    rw [BitVec.toNat_shiftLeft, BitVec.toNat_ofNat, Nat.one_mod_two_pow_eq_one.2 (by decide),
      Nat.one_shiftLeft, Nat.mod_eq_of_lt hpow]
    omega
  · next hge =>
    have hbits : n.hostBits = 128 := by
      have := n.hostBits_le
      omega
    rw [hbits, BitVec.toNat_allOnes]
    omega

theorem toNat_tally (hw : w ≤ 128) (hs : s ≤ 128) (n : Net w) (limit : BitVec s) :
    (n.tally limit).toNat = min n.size limit.toNat := by
  have hpow : 2 ^ s ≤ 2 ^ 128 := Nat.pow_le_pow_right (by decide) hs
  have hlimit := limit.isLt
  have hwide : (limit.setWidth 128).toNat = limit.toNat := by
    rw [BitVec.toNat_setWidth, Nat.mod_eq_of_lt (by omega)]
  rw [tally, BitVec.toNat_setWidth]
  split
  · next hlt =>
    rw [BitVec.lt_def, hwide, toNat_wideSize hw] at hlt
    rw [toNat_wideSize hw, Nat.mod_eq_of_lt (by omega)]
    omega
  · next hle =>
    rw [BitVec.lt_def, hwide, toNat_wideSize hw] at hle
    rw [hwide, Nat.mod_eq_of_lt hlimit]
    omega

/-- Neither the cut nor the sum loses anything. -/
theorem hostAt_ofNat (h : n.clean = n) {i : Nat} (hi : i < n.size) (his : i < 2 ^ s) :
    n.hostAt (BitVec.ofNat s i) = some (.host (n.addr + BitVec.ofNat w i)) := by
  have hsum := toNat_add_ofNat h hi
  have hend := toNat_add_le h
  rw [← size_eq] at hend
  have hstep : (BitVec.ofNat s i).setWidth w = BitVec.ofNat w i := by
    apply BitVec.eq_of_toNat_eq
    rw [BitVec.toNat_setWidth, BitVec.toNat_ofNat, BitVec.toNat_ofNat, Nat.mod_eq_of_lt his]
  have hfits : n.addr.uaddOverflow (BitVec.ofNat w i) = false := by
    rw [BitVec.uaddOverflow, BitVec.toNat_ofNat, Nat.mod_eq_of_lt (by omega)]
    simp
    omega
  rw [hostAt, hstep, hfits]
  rfl

/-- A machine counts up the hosts of a clean block as they are. -/
theorem countUp_eq (hw : w ≤ 128) (hs : s ≤ 128) (h : n.clean = n) (limit : BitVec s) :
    n.countUp limit = some (n.hosts limit.toNat) := by
  rw [countUp, toNat_tally hw hs, hosts]
  refine mapM_eq_some_map fun i hi => hostAt_ofNat h ?_ ?_
  · have := List.mem_range.1 hi
    omega
  · have := List.mem_range.1 hi
    have := limit.isLt
    omega

end Net

def Address.toNat : Address → Nat
  | v4 a => a.toNat
  | v6 a => a.toNat

namespace Network

variable {s : Nat} {n : Network}

/-- An address of the same family has the bits of a network that its length covers. -/
def covers : Network → Address → Bool
  | v4 n, .v4 a => n.covers a
  | v6 n, .v6 a => n.covers a
  | v4 _, .v6 _ | v6 _, .v4 _ => false

/-- The hosts as a machine counts them up. -/
def countUp : Network → BitVec s → Option (List Network)
  | v4 n, limit => (n.countUp limit).map fun hosts => hosts.map v4
  | v6 n, limit => (n.countUp limit).map fun hosts => hosts.map v6

theorem countUp_eq (hs : s ≤ 128) (h : n.clean = n) (limit : BitVec s) :
    n.countUp limit = some (n.hosts limit.toNat) := by
  cases n with
  | v4 n | v6 n =>
    have hclean : n.clean = n := by simpa [clean] using h
    rw [countUp, Net.countUp_eq (by decide) hs hclean]
    rfl

theorem getElem?_hosts (h : n.clean = n) {limit i : Nat} (hi : i < min n.size limit) :
    ∃ a, (n.hosts limit)[i]? = some (.host a) ∧ a.toNat = n.addr.toNat + i ∧
      n.covers a = true := by
  cases n with
  | v4 n =>
    have hclean : n.clean = n := v4.inj h
    have hsize : i < n.size := (Nat.lt_min.1 hi).1
    refine ⟨.v4 (n.addr + BitVec.ofNat 32 i), ?_, Net.toNat_add_ofNat hclean hsize,
      Net.covers_add_ofNat hclean hsize⟩
    rw [hosts, List.getElem?_map, Net.getElem?_hosts hi]
    rfl
  | v6 n =>
    have hclean : n.clean = n := v6.inj h
    have hsize : i < n.size := (Nat.lt_min.1 hi).1
    refine ⟨.v6 (n.addr + BitVec.ofNat 128 i), ?_, Net.toNat_add_ofNat hclean hsize,
      Net.covers_add_ofNat hclean hsize⟩
    rw [hosts, List.getElem?_map, Net.getElem?_hosts hi]
    rfl

theorem ordered_hosts (h : n.clean = n) (limit : Nat) :
    (n.hosts limit).Pairwise fun a b => compare a b = .lt := by
  cases n with
  | v4 n => exact List.pairwise_map.2 (Net.ordered_hosts (v4.inj h) limit)
  | v6 n => exact List.pairwise_map.2 (Net.ordered_hosts (v6.inj h) limit)

theorem nodup_hosts (h : n.clean = n) (limit : Nat) : (n.hosts limit).Nodup := by
  refine (ordered_hosts h limit).imp fun {a b} hlt hsame => ?_
  rw [hsame, Std.compare_self] at hlt
  cases hlt

theorem host_mem_hosts (h : n.clean = n) {limit : Nat} (hlimit : n.size ≤ limit) {a : Address}
    (ha : n.covers a = true) : host a ∈ n.hosts limit := by
  cases n with
  | v4 n =>
    cases a with
    | v4 a => exact List.mem_map_of_mem (Net.host_mem_hosts (v4.inj h) hlimit ha)
    | v6 a => cases ha
  | v6 n =>
    cases a with
    | v4 a => cases ha
    | v6 a => exact List.mem_map_of_mem (Net.host_mem_hosts (v6.inj h) hlimit ha)

/-- Counting up a network without a bit set beyond its length, in words of any width up to 128.
Every sum fits. The count gives as many hosts as the network has or the limit allows; each is as
many steps above the network address as it has before it, and lies in the network; they come in
their order and each once; and with a limit of at least the size of the network none is missing. -/
theorem countUp_exact (hs : s ≤ 128) (h : n.clean = n) (limit : BitVec s) :
    ∃ hosts, n.countUp limit = some hosts ∧ n.hosts limit.toNat = hosts ∧
      hosts.length = min (2 ^ n.hostBits) limit.toNat ∧
      (∀ i < hosts.length, ∃ a, hosts[i]? = some (.host a) ∧ a.toNat = n.addr.toNat + i ∧
        n.covers a = true) ∧
      hosts.Pairwise (fun a b => compare a b = .lt) ∧ hosts.Nodup ∧
      (2 ^ n.hostBits ≤ limit.toNat → ∀ a, n.covers a = true → host a ∈ hosts) := by
  refine ⟨_, countUp_eq hs h limit, rfl, ?_, fun i hi => ?_, ordered_hosts h _, nodup_hosts h _,
    fun hlimit a ha => host_mem_hosts h (n.size_eq ▸ hlimit) ha⟩
  · rw [length_hosts, size_eq]
  · rw [length_hosts] at hi
    exact getElem?_hosts h hi

/-- The last four addresses, counted with a limit of 64 bits. -/
theorem countUp_exact_top :
    let top : Network := .v4 ⟨0xFFFFFFFC, 30⟩
    64 ≤ 128 ∧ top.clean = top ∧ ∃ hosts, top.countUp (4 : BitVec 64) = some hosts ∧
      hosts.length = 4 ∧ host (.v4 0xFFFFFFFF) ∈ hosts := by
  intro top
  have hclean : top.clean = top := by decide
  obtain ⟨hosts, hcount, -, hlength, -, -, -, hall⟩ :=
    countUp_exact (by decide : 64 ≤ 128) hclean (4 : BitVec 64)
  exact ⟨by decide, hclean, hosts, hcount, hlength, hall (by decide) (.v4 0xFFFFFFFF) (by decide)⟩

end Network

end TagExchange
