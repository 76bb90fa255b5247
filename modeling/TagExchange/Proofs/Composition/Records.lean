import TagExchange.Proofs.Exchange.LegacySizes
import TagExchange.Proofs.Network.Addresses

/-!
# How a legacy update is laid out

A peer of version 3 is told of bindings as they are. A peer of version 1 or 2 is told of single
addresses first, and then of the first addresses of each subnet; version 1 knows IPv4 only
(`LegacyUpdate.told`). The records of a legacy update are what the peer is told, withdrawals before
announcements, and they are read as they were written. Only a reserved tag that would be written
keeps an update from being composed (`LegacyUpdate.compose_told`).
-/

namespace TagExchange

namespace Binding

variable {v : Version} {quantity : Nat} {b c : Binding}

/-- The first addresses of a network, each with what is said of the network. -/
def inside (quantity : Nat) (b : Binding) : List Binding :=
  (b.net.addresses.take quantity).map fun a => { b with net := .host a }

/-- A peer of a version is told of a binding at all. -/
def HasRecord (v : Version) (quantity : Nat) (b : Binding) : Prop :=
  (v = .v1 → b.net.isV4 = true) ∧ (v = .v3 ∨ b.net.isHost = true ∨ quantity ≠ 0)

theorem expand_of_subnet (h : b.net.Canonical) (hsubnet : b.net.isHost = false) :
    b.expand quantity = b.inside quantity := by
  rw [expand, if_neg (by simp [hsubnet]), Network.hosts_eq h, List.map_map]
  rfl

theorem standIns_ne_nil_iff (hv : v.isLegacy = true) :
    b.standIns v quantity ≠ [] ↔ b.HasRecord v quantity := by
  have hsize : 0 < b.net.size := by
    rw [Network.size_eq]
    exact Nat.two_pow_pos _
  rw [← List.length_pos_iff, length_standIns, Network.recordCount, HasRecord]
  simp only [LegacyUpdate.takesSubnets_iff hv]
  by_cases hnone : v = .v1 ∧ b.net.isV4 = false
  · simp [hnone]
  · have hfamily : v = .v1 → b.net.isV4 = true := by simpa using hnone
    rw [if_neg hnone, and_iff_right hfamily, ← or_assoc]
    by_cases hone : v = .v3 ∨ b.net.isHost = true
    · rw [if_pos hone]
      exact iff_of_true Nat.one_pos (.inl hone)
    · rw [if_neg hone, or_iff_right hone, Nat.lt_min, and_iff_right hsize, Nat.pos_iff_ne_zero]

end Binding

namespace LegacyUpdate

variable {v : Version} {quantity : Nat} {bs : List Binding}

/-- Single addresses in their order, and behind them the first addresses of every subnet. -/
def single (quantity : Nat) (bs : List Binding) : List Binding :=
  (bs.filter fun b => b.net.isHost) ++
    (bs.filter fun b => !b.net.isHost).flatMap (Binding.inside quantity)

/-- What a peer of a legacy version is told of some bindings. -/
def told (v : Version) (quantity : Nat) (bs : List Binding) : List Binding :=
  if v = .v3 then bs
  else if v = .v1 then (single quantity bs).filter fun b => b.net.isV4
  else single quantity bs

theorem filter_expandAll_eq_single (h : ∀ b ∈ bs, b.net.Canonical) :
    ((Binding.expandAll quantity bs).filter fun b => b.net.isHost) = single quantity bs := by
  rw [Binding.filter_expandAll, single]
  congr 1
  apply List.flatMap_congr
  intro b hb
  obtain ⟨hb, hsubnet⟩ := List.mem_filter.1 hb
  exact Binding.expand_of_subnet (h b hb) (by simpa using hsubnet)

theorem usable_eq_told (hv : v.isLegacy = true) (h : ∀ b ∈ bs, b.net.Canonical) :
    usable v quantity bs = told v quantity bs := by
  rw [usable, told]
  by_cases hv3 : v = .v3
  · have hsubnets : takesSubnets v = true := (takesSubnets_iff hv).2 hv3
    rw [if_pos hv3, hsubnets]
    simp [hv3]
  · have hsubnets : takesSubnets v = false := Bool.eq_false_iff.2 (mt (takesSubnets_iff hv).1 hv3)
    rw [if_neg hv3, hsubnets]
    simp only [Bool.false_eq_true, if_false, Bool.false_or, ← List.filter_filter,
      filter_expandAll_eq_single h]
    by_cases hv1 : v = .v1 <;> simp [hv1]

theorem canonical_of_mem_told (h : ∀ b ∈ bs, b.net.Canonical) {c : Binding}
    (hc : c ∈ told v quantity bs) : c.net.Canonical := by
  have hsingle : c ∈ single quantity bs → c.net.Canonical := by
    intro hc
    rcases List.mem_append.1 hc with hc | hc
    · exact h c (List.mem_filter.1 hc).1
    · obtain ⟨b, -, hc⟩ := List.mem_flatMap.1 hc
      obtain ⟨a, -, rfl⟩ := List.mem_map.1 hc
      exact Network.canonical_host a
  rw [told] at hc
  split at hc
  · exact h c hc
  · split at hc
    · exact hsingle (List.mem_filter.1 hc).1
    · exact hsingle hc

/-- A record takes the network of a binding away. -/
structure Withdraws (b : Binding) (r : MappingRecord) : Prop where
  type : r.type = .deleting b.net
  net : r.net = b.net
  tag : r.tag = none

/-- A record gives the network of a binding its tag. -/
structure Announces (b : Binding) (r : MappingRecord) : Prop where
  type : r.type = .adding b.net
  net : r.net = b.net
  tag : r.tag.map Tag.value = some b.tag

/-- The layout of a legacy update: a record for each withdrawal that the peer is told of, then one
for each announcement. -/
inductive LaidOut (v : Version) (quantity : Nat) (delete add : List Binding) :
    List MappingRecord → Prop
  | mk {withdrawn announced : List MappingRecord}
    (withdraw : List.Forall₂ Withdraws (told v quantity delete) withdrawn)
    (announce : List.Forall₂ Announces (told v quantity add) announced) :
    LaidOut v quantity delete add (withdrawn ++ announced)

variable {filter : Filter} {delete add : List Binding} {records : List MappingRecord}

theorem announces_addRecord {b : Binding} {r : MappingRecord} (h : addRecord b = .ok r) :
    Announces b r := by
  obtain ⟨tag, htag, rfl⟩ := Except.map_eq_ok.1 h
  have hvalue : b.tag = tag.value := UInt16.toNat_inj.1 (Tag.of?_eq_ok_iff.1 htag)
  exact ⟨rfl, rfl, congrArg some hvalue.symm⟩

theorem laidOut_compose (hv : v.isLegacy = true) (hdelete : ∀ b ∈ delete, b.net.Canonical)
    (hadd : ∀ b ∈ add, b.net.Canonical)
    (h : compose v quantity filter delete add = .ok records) :
    LaidOut v quantity delete (add.filter fun b => !filter b) records := by
  obtain ⟨announced, hannounced, h⟩ := Except.bind_eq_ok.1 h
  cases h
  rw [usable_eq_told hv fun b hb => hadd b (List.mem_filter.1 hb).1] at hannounced
  rw [usable_eq_told hv hdelete]
  refine .mk ?_ ((Except.mapM_eq_ok.1 hannounced).imp fun _ _ => announces_addRecord)
  rw [List.forall₂_map_right_iff, List.forall₂_same]
  exact fun b _ => ⟨rfl, rfl, rfl⟩

theorem LaidOut.canonical (h : LaidOut v quantity delete add records)
    (hdelete : ∀ b ∈ delete, b.net.Canonical) (hadd : ∀ b ∈ add, b.net.Canonical) :
    ∀ r ∈ records, r.net.Canonical := by
  obtain ⟨hwithdrawn, hannounced⟩ := h
  intro r hr
  rcases List.mem_append.1 hr with hr | hr
  · obtain ⟨b, hb, hrecord⟩ := exists_of_mem_right hwithdrawn hr
    rw [hrecord.net]
    exact canonical_of_mem_told hdelete hb
  · obtain ⟨b, hb, hrecord⟩ := exists_of_mem_right hannounced hr
    rw [hrecord.net]
    exact canonical_of_mem_told hadd hb

theorem compose_error_iff (hv : v.isLegacy = true) :
    (∃ f, compose v quantity filter delete add = .error f) ↔
      ∃ b ∈ add, filter b = false ∧ b.HasRecord v quantity ∧
        ¬(2 ≤ b.tag.toNat ∧ b.tag.toNat ≤ 65519) := by
  rw [Except.exists_error_iff, exists_compose_iff]
  simp only [Binding.tagged_iff, Binding.standIns_ne_nil_iff hv]
  push Not
  rfl

/-- A legacy update fails to be composed exactly when a binding that passes and has a record has a
reserved tag. Otherwise it is a record for each binding that the peer is told of, withdrawals first,
and it is read as it was written. -/
theorem compose_told (hv : v.isLegacy = true) (hdelete : ∀ b ∈ delete, b.net.Canonical)
    (hadd : ∀ b ∈ add, b.net.Canonical) :
    ((∃ f, compose v quantity filter delete add = .error f) ↔
      ∃ b ∈ add, filter b = false ∧ b.HasRecord v quantity ∧
        ¬(2 ≤ b.tag.toNat ∧ b.tag.toNat ≤ 65519)) ∧
    ∀ records, compose v quantity filter delete add = .ok records →
      LaidOut v quantity delete (add.filter fun b => !filter b) records ∧
      (∃ bs, (Message.legacyUpdate v records).payload = .ok bs ∧
        Message.ofPayload v .update bs = .ok (.legacyUpdate v records)) ∧
      ∀ frame, (Message.legacyUpdate v records).frame = .ok frame →
        Message.ofFrame v frame = .ok (.legacyUpdate v records) := by
  refine ⟨compose_error_iff hv, fun records h => ?_⟩
  have hlaid := laidOut_compose hv hdelete hadd h
  have hwell : (Message.legacyUpdate v records).WellFormed v :=
    ⟨rfl, hv, wellFormed_compose hv h⟩
  have hsame : (Message.legacyUpdate v records).canonical = .legacyUpdate v records :=
    (Message.canonical_eq_self_iff _).2 <|
      hlaid.canonical hdelete fun b hb => hadd b (List.mem_filter.1 hb).1
  refine ⟨hlaid, ⟨_, rfl, ?_⟩, fun frame hframe => ?_⟩
  · exact (Message.ofPayload_payload hwell rfl).trans (congrArg Except.ok hsame)
  · exact (Message.ofFrame_of_frame hwell hframe).trans (congrArg Except.ok hsame)

/-- A block of four addresses, a single address, and an IPv6 address with a reserved tag. -/
def mixed : List Binding :=
  [⟨.v4 ⟨0x0a000000, 30⟩, 10, [], ⟨10, 0⟩⟩, ⟨.v4 ⟨0x0a000101, 32⟩, 20, [], ⟨10, 0⟩⟩,
    ⟨.v6 ⟨1, 128⟩, 1, [], ⟨10, 0⟩⟩]

theorem canonical_mixed : ∀ b ∈ mixed, b.net.Canonical := by
  intro b hb
  simp only [mixed, List.mem_cons, List.not_mem_nil, or_false] at hb
  rcases hb with rfl | rfl | rfl <;> exact ⟨by decide, by decide⟩

/-- Version 1 has no record for the IPv6 address, so its tag does not matter there; in version 2 it
does. -/
theorem compose_told_mixed : Version.v1.isLegacy = true ∧ Version.v2.isLegacy = true ∧
    (∀ b ∈ mixed, b.net.Canonical) ∧
    (∃ records bs, compose .v1 2 (fun _ => false) mixed mixed = .ok records ∧
      (told .v1 2 mixed).map Binding.net =
        [.v4 ⟨0x0a000101, 32⟩, .v4 ⟨0x0a000000, 32⟩, .v4 ⟨0x0a000001, 32⟩] ∧
      (Message.legacyUpdate .v1 records).payload = .ok bs ∧
      Message.ofPayload .v1 .update bs = .ok (.legacyUpdate .v1 records)) ∧
    ∃ f, compose .v2 2 (fun _ => false) mixed mixed = .error f := by
  refine ⟨rfl, rfl, canonical_mixed, ?_, ?_⟩
  · obtain ⟨records, hrecords⟩ : ∃ records,
        compose .v1 2 (fun _ => false) mixed mixed = .ok records := ⟨_, rfl⟩
    obtain ⟨-, ⟨bs, hpayload, hback⟩, -⟩ :=
      (compose_told rfl canonical_mixed canonical_mixed).2 records hrecords
    refine ⟨records, bs, hrecords, ?_, hpayload, hback⟩
    rw [← usable_eq_told rfl canonical_mixed]
    decide
  · refine (compose_told (v := .v2) rfl canonical_mixed canonical_mixed).1.2 ?_
    exact ⟨⟨.v6 ⟨1, 128⟩, 1, [], ⟨10, 0⟩⟩, by simp [mixed], rfl, ⟨by simp, .inr (.inl rfl)⟩,
      by decide⟩

end LegacyUpdate

end TagExchange
