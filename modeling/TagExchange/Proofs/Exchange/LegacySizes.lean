import TagExchange.Proofs.Exchange.Hosts
import TagExchange.Proofs.Exchange.Relaying

/-!
# How large a legacy update is

A peer that takes no subnets is told of a binding by a record for each of its hosts, up to the
quantity of the configuration. It is bindings that are divided into frames and not records, so the
records of one binding stay together (`LegacyUpdate.usable_perm`), and what a message takes is the
sum over its bindings (`LegacyUpdate.length_compose`). An export of a legacy version succeeds
exactly when the records of every change fit into a frame of their own
(`Session.advertise_legacy_iff`); otherwise nothing is sent.
-/

namespace TagExchange

open LegacyUpdate (takesSubnets usable)

namespace Binding

variable {v : Version} {quantity : Nat} {bs : List Binding} {b c : Binding}

/-- The bindings that a peer is told of in place of one. -/
def standIns (v : Version) (quantity : Nat) (b : Binding) : List Binding :=
  (if takesSubnets v then [b] else b.expand quantity).filter fun c => v != .v1 || c.net.isV4

/-- A binding is expanded to hosts of its family, with its tag. -/
theorem of_mem_expand (h : c ∈ b.expand quantity) :
    c.net.isHost = true ∧ c.net.isV4 = b.net.isV4 ∧ c.tag = b.tag := by
  rw [expand] at h
  split at h
  · next hhost =>
    obtain rfl := List.mem_singleton.1 h
    exact ⟨hhost, rfl, rfl⟩
  · obtain ⟨net, hnet, rfl⟩ := List.mem_map.1 h
    cases hb : b.net with
    | v4 n =>
      rw [hb] at hnet
      obtain ⟨m, hm, rfl⟩ := List.mem_map.1 hnet
      exact ⟨beq_iff_eq.2 (Net.eq_of_mem_hosts (by decide) hm).1, rfl, rfl⟩
    | v6 n =>
      rw [hb] at hnet
      obtain ⟨m, hm, rfl⟩ := List.mem_map.1 hnet
      exact ⟨beq_iff_eq.2 (Net.eq_of_mem_hosts (by decide) hm).1, rfl, rfl⟩

theorem length_expand :
    (b.expand quantity).length = if b.net.isHost then 1 else min b.net.size quantity := by
  rw [expand]
  split <;> simp

/-- What is left of some bindings when they are expanded, without what could not be. -/
theorem filter_expandAll : ((expandAll quantity bs).filter fun b => b.net.isHost) =
    (bs.filter fun b => b.net.isHost) ++
      (bs.filter fun b => !b.net.isHost).flatMap (expand quantity) := by
  rw [expandAll]
  split
  · next hnone =>
    subst hnone
    have hsubnets : (bs.filter fun b => !b.net.isHost).flatMap (expand 0) = [] := by
      apply List.flatMap_eq_nil_iff.2
      intro b hb
      have hhost : b.net.isHost = false := by simpa using (List.mem_filter.1 hb).2
      apply List.eq_nil_of_length_eq_zero
      simp [length_expand, hhost]
    rw [hsubnets, List.append_nil]
  · have hexpanded : ∀ c ∈ (bs.filter fun b => !b.net.isHost).flatMap (expand quantity),
        c.net.isHost = true := by
      intro c hc
      obtain ⟨b, -, hc⟩ := List.mem_flatMap.1 hc
      exact (of_mem_expand hc).1
    rw [List.filter_append, List.filter_filter, List.filter_eq_self.2 hexpanded]
    simp only [Bool.and_self]

theorem filter_expandAll_perm : ((expandAll quantity bs).filter fun b => b.net.isHost).Perm
    (bs.flatMap (expand quantity)) := by
  have hhosts : ((bs.filter fun b => b.net.isHost).flatMap (expand quantity)) =
      bs.filter fun b => b.net.isHost := by
    induction bs with
    | nil => rfl
    | cons b bs ih =>
      by_cases hhost : b.net.isHost = true
      · simp [hhost, expand, ih]
      · simp [hhost, ih]
  have hsplit := (List.filter_append_perm (fun b : Binding => b.net.isHost) bs).flatMap_right
    (expand quantity)
  rwa [List.flatMap_append, hhosts, ← filter_expandAll] at hsplit

end Binding

namespace LegacyUpdate

variable {v : Version} {quantity : Nat} {bs : List Binding}

/-- What is told of some bindings is what is told of each. -/
theorem usable_perm : (usable v quantity bs).Perm (bs.flatMap (Binding.standIns v quantity)) := by
  have hstand : bs.flatMap (Binding.standIns v quantity) =
      (bs.flatMap fun b => if takesSubnets v then [b] else b.expand quantity).filter
        fun c => v != .v1 || c.net.isV4 := by
    rw [List.filter_flatMap]
    rfl
  rw [hstand, usable]
  by_cases hsubnets : takesSubnets v = true
  · simp [hsubnets]
  · simp only [hsubnets, Bool.false_eq_true, if_false, Bool.false_or, ← List.filter_filter]
    exact Binding.filter_expandAll_perm.filter _

end LegacyUpdate

namespace Network

/-- How many records stand for a network. -/
def recordCount (v : Version) (quantity : Nat) (n : Network) : Nat :=
  if v = .v1 ∧ n.isV4 = false then 0
  else if takesSubnets v = true ∨ n.isHost = true then 1
  else min n.size quantity

/-- The bytes of a record without a tag. -/
def recordSize (v : Version) (n : Network) : Nat :=
  (if n.isV4 then 12 else 24) + if v = .v3 ∧ n.isHost = false then 9 else 0

/-- The bytes that it takes to withdraw a network. -/
def withdrawSize (v : Version) (quantity : Nat) (n : Network) : Nat :=
  n.recordCount v quantity * n.recordSize v

/-- The bytes that it takes to announce a network, with a tag in every record. -/
def announceSize (v : Version) (quantity : Nat) (n : Network) : Nat :=
  n.recordCount v quantity * (n.recordSize v + 10)

theorem recordSize_host {v : Version} {n m : Network} (hv : v ≠ .v3) (hfamily : n.isV4 = m.isV4) :
    n.recordSize v = m.recordSize v := by
  simp [recordSize, hv, hfamily]

theorem recordCount_le {v : Version} {quantity : Nat} (n : Network) :
    n.recordCount v quantity ≤ max 1 quantity := by
  rw [recordCount]
  split_ifs <;> omega

/-- Subnets are told of as they are in version 3. -/
theorem recordCount_v3 {quantity : Nat} (n : Network) : n.recordCount .v3 quantity = 1 := by
  have hsubnets : takesSubnets .v3 = true := by decide
  rw [recordCount, if_neg (by simp), if_pos (.inl hsubnets)]

/-- A frame has room for 120 records of any family. -/
theorem announceSize_le {v : Version} {quantity : Nat} (n : Network) (h : quantity ≤ 120) :
    headerSize + n.announceSize v quantity ≤ messageLimit := by
  suffices hbytes : n.announceSize v quantity ≤ 120 * 34 by
    simp only [headerSize, messageLimit]
    omega
  rw [announceSize]
  by_cases hv : v = .v3
  · subst hv
    rw [recordCount_v3, recordSize]
    split_ifs <;> omega
  · have hcount : n.recordCount v quantity ≤ max 1 quantity := n.recordCount_le
    have hsize : n.recordSize v ≤ 24 := by
      simp only [recordSize, hv, false_and, if_false]
      split <;> omega
    exact Nat.mul_le_mul (by omega) (by omega)

end Network

theorem MappingRecord.length_bytes (v : Version) (r : MappingRecord) : (r.bytes v).length =
    r.net.recordSize v + if r.tag = none then 0 else 10 := by
  have haddr : r.net.addr.octets.length = if r.net.isV4 then 4 else 16 := by
    cases r.net <;> simp [Network.addr, Address.octets, Network.isV4]
  have htag : (tagPart r.tag).length = if r.tag = none then 0 else 10 := by
    cases r.tag <;> simp [tagPart, MappingPart.bytesOf]
  have hlength : (lengthPart v r.net).length = if v = .v3 ∧ r.net.isHost = false then 9 else 0 := by
    rw [lengthPart]
    by_cases hpart : v = .v3 ∧ r.net.isHost = false
    · simp [hpart, MappingPart.bytesOf]
    · rw [if_neg hpart, if_neg (by simpa using hpart)]
      rfl
  simp only [bytes, List.length_append, length_wordBytes, haddr, htag, hlength, Network.recordSize]
  split <;> omega

namespace Binding

variable {v : Version} {quantity : Nat} {b c : Binding}

theorem length_standIns : (b.standIns v quantity).length = b.net.recordCount v quantity := by
  have hsame : ∀ c ∈ if takesSubnets v then [b] else b.expand quantity,
      c.net.isV4 = b.net.isV4 := by
    intro c hc
    split at hc
    · rw [List.mem_singleton.1 hc]
    · exact (of_mem_expand hc).2.1
  by_cases hnone : v = .v1 ∧ b.net.isV4 = false
  · rw [standIns, List.filter_eq_nil_iff.2 fun c hc => by simp [hsame c hc, hnone],
      Network.recordCount, if_pos hnone]
    rfl
  · have hpass : ∀ c ∈ if takesSubnets v then [b] else b.expand quantity,
        (v != .v1 || c.net.isV4) = true := by
      intro c hc
      rw [hsame c hc]
      cases v <;> simp_all
    rw [standIns, List.filter_eq_self.2 hpass, Network.recordCount, if_neg hnone]
    by_cases hsubnets : takesSubnets v = true <;> simp [hsubnets, length_expand]

/-- What stands for a binding has its tag, and records of one size. -/
theorem of_mem_standIns (h : c ∈ b.standIns v quantity) :
    c.tag = b.tag ∧ c.net.recordSize v = b.net.recordSize v := by
  obtain ⟨h, -⟩ := List.mem_filter.1 h
  split at h
  · obtain rfl := List.mem_singleton.1 h
    exact ⟨rfl, rfl⟩
  · next hsubnets =>
    obtain ⟨-, hfamily, htag⟩ := of_mem_expand h
    refine ⟨htag, Network.recordSize_host ?_ hfamily⟩
    rintro rfl
    exact hsubnets rfl

end Binding

namespace LegacyUpdate

variable {v : Version} {quantity : Nat} {bs : List Binding}

/-- The sizes of all records, over the bindings that they stand for. -/
theorem sum_usable (k : Nat) : ((usable v quantity bs).map fun b => b.net.recordSize v + k).sum =
    (bs.map fun b => b.net.recordCount v quantity * (b.net.recordSize v + k)).sum := by
  rw [(usable_perm.map _).sum_eq]
  induction bs with
  | nil => rfl
  | cons b bs ih =>
    have hfirst : ((b.standIns v quantity).map fun c => c.net.recordSize v + k).sum =
        b.net.recordCount v quantity * (b.net.recordSize v + k) := by
      have hsame : ∀ k' ∈ (b.standIns v quantity).map fun c => c.net.recordSize v + k,
          k' = b.net.recordSize v + k := by
        intro k' hk'
        obtain ⟨c, hc, rfl⟩ := List.mem_map.1 hk'
        rw [(Binding.of_mem_standIns hc).2]
      rw [List.sum_eq_card_nsmul _ _ hsame, List.length_map, Binding.length_standIns, smul_eq_mul]
    rw [List.flatMap_cons, List.map_append, List.sum_append, hfirst, ih, List.map_cons,
      List.sum_cons]

variable {filter : Filter} {delete add : List Binding} {records : List MappingRecord}

/-- What a message takes is the sum over its bindings. -/
theorem length_compose (h : compose v quantity filter delete add = .ok records)
    (hpass : ∀ b ∈ add, filter b = false) :
    (records.flatMap (MappingRecord.bytes v)).length =
      (delete.map fun b => b.net.withdrawSize v quantity).sum +
        (add.map fun b => b.net.announceSize v quantity).sum := by
  have hkept : (add.filter fun b => !filter b) = add :=
    List.filter_eq_self.2 fun b hb => by rw [hpass b hb]; rfl
  rw [compose, hkept] at h
  obtain ⟨added, hadded, h⟩ := Except.bind_eq_ok.1 h
  cases h
  have hdelete : (((usable v quantity delete).map deleteRecord).flatMap
      (MappingRecord.bytes v)).length =
        (delete.map fun b => b.net.withdrawSize v quantity).sum := by
    have hsizes : (usable v quantity delete).map (fun b => ((deleteRecord b).bytes v).length) =
        (usable v quantity delete).map fun b => b.net.recordSize v + 0 :=
      List.map_congr_left fun b _ => MappingRecord.length_bytes v (deleteRecord b)
    rw [List.length_flatMap, List.map_map]
    exact (congrArg List.sum hsizes).trans (sum_usable 0)
  have hadd : (added.flatMap (MappingRecord.bytes v)).length =
      (add.map fun b => b.net.announceSize v quantity).sum := by
    have hsizes : (added.map fun r => (r.bytes v).length) =
        (added.map MappingRecord.net).map fun net => net.recordSize v + 10 := by
      rw [List.map_map]
      apply List.map_congr_left
      intro r hr
      obtain ⟨b, -, hrecord⟩ := Update.exists_of_mem_mapM hadded hr
      obtain ⟨tag, -, rfl⟩ := Except.map_eq_ok.1 hrecord
      exact MappingRecord.length_bytes v _
    rw [List.length_flatMap, hsizes, map_net_added hadded, List.map_map]
    exact sum_usable 10
  rw [List.flatMap_append, List.length_append, hdelete, hadd]

theorem mem_usable {c : Binding} :
    c ∈ usable v quantity bs ↔ ∃ b ∈ bs, c ∈ b.standIns v quantity := by
  rw [usable_perm.mem_iff, List.mem_flatMap]

/-- A message can be composed exactly when every binding that passes has a tag, or no record. -/
theorem exists_compose_iff : (∃ records, compose v quantity filter delete add = .ok records) ↔
    ∀ b ∈ add, filter b = false → b.standIns v quantity ≠ [] → b.Tagged := by
  constructor
  · rintro ⟨records, h⟩ b hb hpass hsome
    obtain ⟨added, hadded, -⟩ := Except.bind_eq_ok.1 h
    obtain ⟨c, hc⟩ := List.exists_mem_of_ne_nil _ hsome
    have hkept : b ∈ add.filter fun b => !filter b := List.mem_filter.2 ⟨hb, by simp [hpass]⟩
    obtain ⟨r, -, hrecord⟩ := Update.exists_mem_of_mapM hadded (mem_usable.2 ⟨b, hkept, hc⟩)
    obtain ⟨tag, htag, -⟩ := Except.map_eq_ok.1 hrecord
    exact ⟨tag, (Binding.of_mem_standIns hc).1 ▸ htag⟩
  · intro htags
    obtain ⟨added, hadded⟩ : ∃ added,
        (usable v quantity (add.filter fun b => !filter b)).mapM addRecord = .ok added := by
      apply Update.exists_mapM
      intro c hc
      obtain ⟨b, hb, hc⟩ := mem_usable.1 hc
      obtain ⟨hb, hpass⟩ := List.mem_filter.1 hb
      obtain ⟨tag, htag⟩ := htags b hb (by simpa using hpass) (List.ne_nil_of_mem hc)
      exact ⟨_, by rw [addRecord, (Binding.of_mem_standIns hc).1, htag]; rfl⟩
    rw [compose, hadded]
    exact ⟨_, rfl⟩

end LegacyUpdate

namespace Composer

variable {v : Version} {quantity : Nat} {filter : Filter} {delete add : List Binding}

theorem legacy_eq_ok {m : Message} : legacy v quantity filter delete add = .ok m ↔
    ∃ records, LegacyUpdate.compose v quantity filter delete add = .ok records ∧
      .legacyUpdate v records = m :=
  Except.map_eq_ok

/-- A part fits when its records leave room for the header. -/
theorem legacy_fits_iff (htags : ∀ b ∈ add, b.Tagged) (hpass : ∀ b ∈ add, filter b = false) :
    (legacy v quantity filter).Fits (delete, add) ↔
      headerSize + ((delete.map fun b => b.net.withdrawSize v quantity).sum +
        (add.map fun b => b.net.announceSize v quantity).sum) ≤ messageLimit := by
  obtain ⟨records, hrecords⟩ : ∃ records,
      LegacyUpdate.compose v quantity filter delete add = .ok records :=
    LegacyUpdate.exists_compose_iff.2 fun b hb _ _ => htags b hb
  rw [← LegacyUpdate.length_compose hrecords hpass, ← exists_frame_iff]
  constructor
  · rintro ⟨frame, m, hm, hframe⟩
    obtain ⟨records', hrecords', rfl⟩ := legacy_eq_ok.1 hm
    rw [hrecords] at hrecords'
    cases hrecords'
    exact ⟨frame, hframe⟩
  · rintro ⟨frame, hframe⟩
    exact ⟨frame, _, legacy_eq_ok.2 ⟨records, hrecords, rfl⟩, hframe⟩

theorem legacy_sized (htags : ∀ b ∈ add, b.Tagged) :
    (legacy v quantity filter).Sized delete add := by
  intro d a _ ha
  obtain ⟨records, hrecords⟩ : ∃ records,
      LegacyUpdate.compose v quantity filter d a = .ok records :=
    LegacyUpdate.exists_compose_iff.2 fun b hb _ _ => htags b (ha hb)
  have hm := legacy_eq_ok.2 ⟨records, hrecords, rfl⟩
  cases hframe : (Message.legacyUpdate v records).frame with
  | ok frame => exact .inl ⟨frame, _, hm, hframe⟩
  | error f => exact .inr ⟨_, f, hm, hframe, kind_of_frame_error hframe⟩

/-- Of what fits together each binding fits. -/
theorem legacy_fitsSingly (htags : ∀ b ∈ add, b.Tagged) (hpass : ∀ b ∈ add, filter b = false)
    (h : (legacy v quantity filter).Fits (delete, add)) :
    (legacy v quantity filter).FitsSingly delete add := by
  rw [legacy_fits_iff htags hpass] at h
  refine ⟨fun b hb => ?_, fun b hb => ?_⟩
  · rw [legacy_fits_iff (by simp) (by simp)]
    have hle := List.single_le_sum (by simp) _
      (List.mem_map_of_mem (f := fun b : Binding => b.net.withdrawSize v quantity) hb)
    simp only [List.map_singleton, List.sum_singleton, List.map_nil, List.sum_nil]
    omega
  · rw [legacy_fits_iff (by simpa using htags b hb) (by simpa using hpass b hb)]
    have hle := List.single_le_sum (by simp) _
      (List.mem_map_of_mem (f := fun b : Binding => b.net.announceSize v quantity) hb)
    simp only [List.map_singleton, List.sum_singleton, List.map_nil, List.sum_nil]
    omega

/-- Records can be divided into frames exactly when those of each binding fit into one. -/
theorem legacy_frames_iff (htags : ∀ b ∈ add, b.Tagged) (hpass : ∀ b ∈ add, filter b = false) :
    (∃ fs, (legacy v quantity filter).frames delete add = .ok fs) ↔
      (∀ b ∈ delete, headerSize + b.net.withdrawSize v quantity ≤ messageLimit) ∧
        ∀ b ∈ add, headerSize + b.net.announceSize v quantity ≤ messageLimit := by
  rw [frames_ok_iff (fun _ => legacy_sized htags) fun _ ha hfits =>
    legacy_fitsSingly (fun b hb => htags b (ha hb)) (fun b hb => hpass b (ha hb)) hfits]
  have hdelete (b : Binding) : (legacy v quantity filter).Fits ([b], []) ↔
      headerSize + b.net.withdrawSize v quantity ≤ messageLimit := by
    simp [legacy_fits_iff]
  have hadd {b : Binding} (hb : b ∈ add) : (legacy v quantity filter).Fits ([], [b]) ↔
      headerSize + b.net.announceSize v quantity ≤ messageLimit := by
    simp [legacy_fits_iff, htags b hb, hpass b hb]
  constructor
  · rintro ⟨hwithdrawn, hannounced⟩
    exact ⟨fun b hb => (hdelete b).1 (hwithdrawn b hb), fun b hb => (hadd hb).1 (hannounced b hb)⟩
  · rintro ⟨hwithdrawn, hannounced⟩
    exact ⟨fun b hb => (hdelete b).2 (hwithdrawn b hb), fun b hb => (hadd hb).2 (hannounced b hb)⟩

end Composer

/-- Some frame has a record that gives a network a tag. -/
def Message.Enters (v : Version) (frames : List Bytes) (net : Network) (tag : UInt16) : Prop :=
  ∃ frame ∈ frames, ∃ records, ofFrame v frame = .ok (.legacyUpdate v records) ∧
    ∃ r ∈ records, r.type.isAdd = true ∧ r.net = net ∧ r.tag.map Tag.value = some tag

/-- The hosts of a network are what is told of it, as it is read. -/
theorem Binding.standIns_shows {v : Version} (hv : v = .v1 ∨ v = .v2) {quantity : Nat}
    {b : Binding} {host : Network} (h : b.net.Shows v quantity host) :
    ∃ c ∈ b.standIns v quantity, c.net.rebuilt = host := by
  obtain ⟨c, hc, -, hfamily, hread⟩ := expand_shows.2 h
  have hsubnets : takesSubnets v = false := by
    rcases hv with rfl | rfl <;> decide
  refine ⟨c, ?_, hread⟩
  rw [standIns, hsubnets]
  exact List.mem_filter.2 ⟨hc, hfamily⟩

namespace Composer

variable {v : Version} {quantity : Nat} {filter : Filter} {delete add : List Binding}

/-- The frame that announces a binding has records for its hosts. -/
theorem Carries.enters (hv : v = .v1 ∨ v = .v2) {part : Part} {frame : Bytes}
    (h : Carries (.legacy v quantity filter) part frame) {b : Binding} (hb : b ∈ part.2)
    (hpass : filter b = false) {host : Network} (hshows : b.net.Shows v quantity host) :
    ∃ records, Message.ofFrame v frame = .ok (.legacyUpdate v records) ∧
      ∃ r ∈ records, r.type.isAdd = true ∧ r.net = host ∧ r.tag.map Tag.value = some b.tag := by
  have hlegacy : v.isLegacy = true := by
    rcases hv with rfl | rfl <;> rfl
  obtain ⟨records, hrecords, hframe⟩ := h.legacy hlegacy
  obtain ⟨added, hadded, hrecords⟩ := Except.bind_eq_ok.1 hrecords
  cases hrecords
  obtain ⟨c, hc, hread⟩ := Binding.standIns_shows hv hshows
  have hkept : b ∈ part.2.filter fun b => !filter b := List.mem_filter.2 ⟨hb, by simp [hpass]⟩
  obtain ⟨r, hr, hrecord⟩ := Update.exists_mem_of_mapM hadded
    (LegacyUpdate.mem_usable.2 ⟨b, hkept, hc⟩)
  have hadd := (LegacyUpdate.isAdd_addRecord hrecord).1
  obtain ⟨tag, htag, rfl⟩ := Except.map_eq_ok.1 hrecord
  refine ⟨_, hframe, _, List.mem_map_of_mem
    (List.mem_append_right _ hr), hadd, ?_, ?_⟩
  · rw [MappingRecord.net_canonical]
    exact hread
  · rw [← (Binding.of_mem_standIns hc).1, UInt16.toNat_inj.1 (Tag.of?_eq_ok_iff.1 htag)]
    rfl

theorem enters_of_frames (hv : v = .v1 ∨ v = .v2) {frames : List Bytes}
    (h : (legacy v quantity filter).frames delete add = .ok frames) {b : Binding} (hb : b ∈ add)
    (hpass : filter b = false) {host : Network} (hshows : b.net.Shows v quantity host) :
    Message.Enters v frames host b.tag := by
  obtain ⟨parts, -, rfl, hcarries⟩ := frames_parts h
  obtain ⟨part, hpart, hb⟩ := List.mem_flatMap.1 hb
  obtain ⟨frame, hframe, hcarried⟩ := exists_of_mem_left hcarries hpart
  exact ⟨frame, hframe, hcarried.enters hv hb hpass hshows⟩

end Composer

namespace Session

variable {n : Node}

theorem composer_legacy (hversion : n.conn.version.isLegacy = true) :
    n.conn.composer n.conn.version =
      .legacy n.conn.version n.conn.config.expansionQuantity n.conn.holdsBack :=
  if_pos hversion

/-- What is exported is in the database and not held back. -/
theorem of_mem_exported {b : Binding} (h : b ∈ (exported n.conn n.db).bindings) :
    b ∈ n.db.bindings ∧ n.conn.holdsBack b = false := by
  have h := List.mem_filter.1 (Table.mem_ofBindings h)
  exact ⟨h.1, by simpa using h.2⟩

/-- A speaker of a legacy version can export its database exactly when the records of every change
fit into a frame of their own. -/
theorem advertise_legacy_iff (htags : ∀ b ∈ n.db.bindings, b.Tagged) (hphase : n.conn.phase = .on)
    (hmode : n.conn.mode.isSpeaker = true) (hversion : n.conn.version.isLegacy = true)
    (hfree : n.conn.line.Free) :
    (∃ k n', advertise n.conn.version n = .ok k n') ↔
      (∀ b ∈ n.conn.advertised.bindings, (exported n.conn n.db)[b.net]? = none →
        headerSize + b.net.withdrawSize n.conn.version n.conn.config.expansionQuantity ≤
          messageLimit) ∧
      ∀ b ∈ (exported n.conn n.db).bindings, n.conn.advertised[b.net]? ≠ some b →
        headerSize + b.net.announceSize n.conn.version n.conn.config.expansionQuantity ≤
          messageLimit := by
  rw [advertise_ok_iff hphase hmode hfree]
  simp only [Node.Exports, composer_legacy hversion]
  rw [Composer.legacy_frames_iff]
  · simp only [Exports.mem_add, Exports.mem_delete, and_imp]
  · exact fun b hb => htags b (of_mem_exported (Exports.mem_add.1 hb).1).1
  · exact fun b hb => (of_mem_exported (Exports.mem_add.1 hb).1).2

theorem advertise_legacy_error (htags : ∀ b ∈ n.db.bindings, b.Tagged)
    (hphase : n.conn.phase = .on) (hmode : n.conn.mode.isSpeaker = true)
    (hversion : n.conn.version.isLegacy = true) (hfree : n.conn.line.Free) {f : Fault} {n' : Node}
    (h : advertise n.conn.version n = .error f n') : f.kind = .tooLarge ∧ n' = n := by
  refine advertise_error_of_sized hphase hmode hfree ?_ h
  rw [composer_legacy hversion]
  exact Composer.legacy_sized fun b hb => htags b (of_mem_exported (Exports.mem_add.1 hb).1).1

/-- What a speaker of a legacy version can export. The records of one binding are never divided, so
every change has to fit into a frame; when one does not, nothing at all is sent. An export that
succeeds has sent frames within the limit, and the first one to a peer that takes no subnets tells
every host. -/
theorem expands_iff (htags : ∀ b ∈ n.db.bindings, b.Tagged) (hphase : n.conn.phase = .on)
    (hmode : n.conn.mode.isSpeaker = true) (hversion : n.conn.version.isLegacy = true)
    (hfree : n.conn.line.Free) :
    ((∃ k n', advertise n.conn.version n = .ok k n') ↔
      (∀ b ∈ n.conn.advertised.bindings, (exported n.conn n.db)[b.net]? = none →
        headerSize + b.net.withdrawSize n.conn.version n.conn.config.expansionQuantity ≤
          messageLimit) ∧
      ∀ b ∈ (exported n.conn n.db).bindings, n.conn.advertised[b.net]? ≠ some b →
        headerSize + b.net.announceSize n.conn.version n.conn.config.expansionQuantity ≤
          messageLimit) ∧
    (∀ f n', advertise n.conn.version n = .error f n' → f.kind = .tooLarge ∧ n' = n) ∧
    ∀ k n', advertise n.conn.version n = .ok k n' → ∃ frames,
      n'.conn.line.sent = n.conn.line.sent ++ frames ∧ k = frames.length ∧
      (∀ frame ∈ frames, frame.length ≤ messageLimit) ∧
      ((n.conn.version = .v1 ∨ n.conn.version = .v2) → n.conn.advertised = ∅ →
        ∀ b ∈ (exported n.conn n.db).bindings, ∀ host,
          b.net.Shows n.conn.version n.conn.config.expansionQuantity host →
            Message.Enters n.conn.version frames host b.tag) := by
  refine ⟨advertise_legacy_iff htags hphase hmode hversion hfree,
    fun f n' h => advertise_legacy_error htags hphase hmode hversion hfree h, fun k n' h => ?_⟩
  obtain ⟨frames, line, hframes, hextends, hcount, rfl⟩ := advertise_ok hphase hmode h
  refine ⟨frames, hextends.sent, hcount, fun frame hframe => ?_,
    fun hv hblank b hb host hshows => ?_⟩
  · obtain ⟨part, hcarries, -⟩ := Composer.carries_of_mem_frames hframes hframe
    exact hcarries.length_le
  · have hnew : b ∈ (difference n.conn.advertised (exported n.conn n.db)).2 :=
      Exports.mem_add.2 ⟨hb, by simp [hblank]⟩
    rw [Node.Exports, composer_legacy hversion] at hframes
    exact Composer.enters_of_frames hv hframes hnew (of_mem_exported hb).2 hshows

/-- The speaker of version 2 that expands subnets to four hosts, with a block in its database. -/
def telling : Node := { Node.expander with db := Node.holding [Node.subnet] }

theorem expands_iff_telling : (∀ b ∈ telling.db.bindings, b.Tagged) ∧ telling.conn.phase = .on ∧
    telling.conn.mode.isSpeaker = true ∧ telling.conn.version.isLegacy = true ∧
    telling.conn.line.Free ∧ ∃ k n', advertise telling.conn.version telling = .ok k n' ∧
      Message.Enters .v2 n'.conn.line.sent Node.inside.net 10 := by
  have htags : ∀ b ∈ telling.db.bindings, b.Tagged := by
    intro b hb
    obtain rfl := List.mem_singleton.1 (Table.mem_ofBindings hb)
    exact ⟨_, rfl⟩
  have hexported : Node.subnet ∈ (exported telling.conn telling.db).bindings :=
    Table.mem_bindings.2 ⟨Node.subnet.net, by decide +kernel⟩
  obtain ⟨hiff, -, hsent⟩ := expands_iff (n := telling) htags rfl rfl rfl ⟨rfl, rfl⟩
  obtain ⟨k, n', hok⟩ := hiff.2
    ⟨fun b hb => absurd hb (by simp [telling, Node.expander, Table.mem_bindings]),
      fun b _ _ => b.net.announceSize_le (by decide)⟩
  obtain ⟨frames, hframes, -, -, henters⟩ := hsent k n' hok
  refine ⟨htags, rfl, rfl, rfl, ⟨rfl, rfl⟩, k, n', hok, ?_⟩
  rw [hframes]
  exact henters (.inr rfl) rfl _ hexported _ Node.subnet_shows

/-- A block of 256 addresses. -/
def block : Binding := ⟨.v4 ⟨0x0a000000, 24⟩, 10, [], ⟨10, 0⟩⟩

/-- The same speaker, with the block and a quantity that covers all of it. -/
def spelling : Node where
  conn := { Node.expander.conn with config := { expansionQuantity := 256 } }
  db := Node.holding [block]

/-- Its records would take more than one frame, and the export fails. -/
theorem expansion_not_divided : block.net.Canonical ∧ (∀ b ∈ spelling.db.bindings, b = block) ∧
    (∀ b ∈ spelling.db.bindings, b.Tagged) ∧ spelling.conn.phase = .on ∧
    spelling.conn.mode.isSpeaker = true ∧ spelling.conn.version.isLegacy = true ∧
    spelling.conn.line.Free ∧
    ∃ f, advertise spelling.conn.version spelling = .error f spelling ∧ f.kind = .tooLarge := by
  have hblock : ∀ b ∈ spelling.db.bindings, b = block := fun b hb =>
    List.mem_singleton.1 (Table.mem_ofBindings hb)
  have htags : ∀ b ∈ spelling.db.bindings, b.Tagged := by
    intro b hb
    rw [hblock b hb]
    exact ⟨_, rfl⟩
  have hexported : block ∈ (exported spelling.conn spelling.db).bindings :=
    Table.mem_bindings.2 ⟨block.net, by decide +kernel⟩
  refine ⟨?_, hblock, htags, rfl, rfl, rfl, ⟨rfl, rfl⟩, ?_⟩
  · exact ⟨by decide, by decide⟩
  cases hrun : advertise spelling.conn.version spelling with
  | ok k n' =>
    have hroom := ((advertise_legacy_iff htags rfl rfl rfl ⟨rfl, rfl⟩).1 ⟨k, n', hrun⟩).2 block
      hexported (by simp [spelling, Node.expander])
    exact absurd hroom (by decide +kernel)
  | error f n' =>
    obtain ⟨hkind, rfl⟩ := advertise_legacy_error htags rfl rfl rfl ⟨rfl, rfl⟩ hrun
    exact ⟨f, rfl, hkind⟩

end Session

end TagExchange
