import TagExchange.Connection
import TagExchange.Proofs.Exchange.Updates

/-!
# What an update is taken for

The reader of a frame cannot mistake the type of its message (`Message.type_ofFrame`), but the two
ends of a line may be at different versions for a while. Under its own version an update is read as
the changes that went into it, every network as `Network.of` builds it (`Composer.Carries.current`,
`Composer.Carries.legacy`). Under version 4 the records of a legacy update pass for attributes that
nobody knows, so it is read as an update that changes nothing (`Composer.Carries.unread`).
-/

namespace TagExchange

theorem Message.frame_eq_ok {m : Message} {bs : Bytes} (h : m.frame = .ok bs) :
    ∃ payload, m.payload = .ok payload ∧ Header.ofFrame bs = .ok ⟨bs.length, m.type⟩ ∧
      bs.drop headerSize = payload := by
  obtain ⟨payload, hpayload, hframe⟩ := Except.bind_eq_ok.1 h
  exact ⟨payload, hpayload, Header.ofFrame_of_frame hframe⟩

/-- A frame is read under a version by the type of its message. -/
theorem Message.ofFrame_eq {m : Message} {bs payload : Bytes} (h : m.frame = .ok bs)
    (hpayload : m.payload = .ok payload) (v : Version) :
    ofFrame v bs = ofPayload v m.type payload := by
  obtain ⟨payload', hpayload', hheader, hdrop⟩ := Message.frame_eq_ok h
  rw [hpayload] at hpayload'
  cases hpayload'
  simp only [ofFrame, hheader, bind, Except.bind, hdrop]

theorem Message.type_ofPayload {v : Version} {type : MessageType} {bs : Bytes} {m : Message}
    (h : ofPayload v type bs = .ok m) : m.type = type := by
  cases type with
  | opening | reply | error =>
    obtain ⟨_, -, rfl⟩ := Except.map_eq_ok.1 h
    rfl
  | update =>
    rw [ofPayload] at h
    split at h <;>
    · obtain ⟨_, -, rfl⟩ := Except.map_eq_ok.1 h
      rfl
  | purgeAll =>
    cases h
    rfl
  | keepalive =>
    rw [ofPayload] at h
    split at h <;> cases h
    rfl

/-- Whatever version it is read under, a frame is taken for a message of the type it has. -/
theorem Message.type_ofFrame {v : Version} {m m' : Message} {bs : Bytes} (h : m.frame = .ok bs)
    (h' : ofFrame v bs = .ok m') : m'.type = m.type := by
  obtain ⟨payload, hpayload, -⟩ := Message.frame_eq_ok h
  rw [Message.ofFrame_eq h hpayload] at h'
  exact type_ofPayload h'

/-- Attributes are read under version 4 only. -/
theorem Message.version_of_update {v : Version} {bs : Bytes} {attrs : List Attribute}
    (h : ofFrame v bs = .ok (.update attrs)) : v = .v4 := by
  obtain ⟨header, -, h⟩ := Except.bind_eq_ok.1 h
  have htype := type_ofPayload h
  rw [← htype, type, ofPayload] at h
  split at h
  · obtain ⟨records, -, h⟩ := Except.map_eq_ok.1 h
    cases h
  · next hlegacy =>
    cases v <;> first | rfl | exact absurd rfl hlegacy

/-- The binding with its network as `Network.of` builds it. -/
def Binding.rebuilt (b : Binding) : Binding := { b with net := b.net.rebuilt }

/-- The changes with every network as `Network.of` builds it. -/
def Changes.rebuilt (c : Changes) : Changes :=
  ⟨c.add.map Binding.rebuilt, c.delete.map Network.rebuilt⟩

namespace Update

def Reading.rebuilt (r : Reading) : Reading := { r with changes := r.changes.rebuilt }

variable {stamp : Instant}

theorem withdraw_rebuilt (r : Reading) (nets : List Network) :
    r.rebuilt.withdraw (nets.map Network.rebuilt) = (r.withdraw nets).rebuilt := by
  simp [Reading.withdraw, Reading.rebuilt, Changes.rebuilt]

theorem announce_rebuilt (r : Reading) (nets : List Network) :
    r.rebuilt.announce stamp (nets.map Network.rebuilt) =
      (r.announce stamp nets).map Reading.rebuilt := by
  rcases r with ⟨_ | path, _ | tag, c⟩ <;>
    simp [Reading.announce, Reading.rebuilt, Changes.rebuilt, Binding.rebuilt, Except.map]

theorem next_rebuilt (r : Reading) (a : Attribute) :
    Reading.next stamp r.rebuilt a.rebuilt = (Reading.next stamp r a).map Reading.rebuilt := by
  have hnets {w : Nat} (f : Net w → Network) (hf : ∀ n, f n.rebuilt = (f n).rebuilt)
      (nets : List (Net w)) :
      (nets.map Net.rebuilt).map f = (nets.map f).map Network.rebuilt := by
    simp [hf]
  obtain ⟨flags, value⟩ := a
  cases value with
  | withdraw4 nets =>
    show Except.ok (r.rebuilt.withdraw ((nets.map Net.rebuilt).map .v4)) = _
    rw [hnets _ (fun _ => rfl), withdraw_rebuilt]
    rfl
  | withdraw6 nets =>
    show Except.ok (r.rebuilt.withdraw ((nets.map Net.rebuilt).map .v6)) = _
    rw [hnets _ (fun _ => rfl), withdraw_rebuilt]
    rfl
  | announce4 nets =>
    show r.rebuilt.announce stamp ((nets.map Net.rebuilt).map .v4) = _
    rw [hnets _ (fun _ => rfl), announce_rebuilt]
    rfl
  | announce6 nets =>
    show r.rebuilt.announce stamp ((nets.map Net.rebuilt).map .v6) = _
    rw [hnets _ (fun _ => rfl), announce_rebuilt]
    rfl
  | _ => rfl

theorem foldlM_rebuilt (attrs : List Attribute) (r : Reading) :
    (attrs.map Attribute.rebuilt).foldlM (Reading.next stamp) r.rebuilt =
      (attrs.foldlM (Reading.next stamp) r).map Reading.rebuilt := by
  induction attrs generalizing r with
  | nil => rfl
  | cons a attrs ih =>
    rw [List.map_cons, List.foldlM_cons, List.foldlM_cons, next_rebuilt]
    cases Reading.next stamp r a with
    | error f => rfl
    | ok r' => exact ih r'

/-- Rebuilt attributes say rebuilt changes. -/
theorem changes_rebuilt (attrs : List Attribute) :
    changes stamp (attrs.map Attribute.rebuilt) = (changes stamp attrs).map Changes.rebuilt := by
  have hfold : (attrs.map Attribute.rebuilt).foldlM (Reading.next stamp) {} =
      (attrs.foldlM (Reading.next stamp) {}).map Reading.rebuilt := foldlM_rebuilt attrs {}
  rw [changes, changes, hfold]
  cases attrs.foldlM (Reading.next stamp) {} <;> rfl

end Update

namespace Composer

/-- A frame of version 4 is read as the update that it carries, every network rebuilt. -/
theorem Carries.exists_update {id : NodeId} {caps : List Capability} {filter : Filter}
    {part : Part} {frame : Bytes} (h : Carries (.current id caps filter) part frame) :
    ∃ attrs, Update.compose id caps filter part.1 part.2 = .ok attrs ∧
      Message.ofFrame .v4 frame = .ok (.update (attrs.map Attribute.rebuilt)) := by
  obtain ⟨m, hm, hframe⟩ := h
  obtain ⟨attrs, hattrs, rfl⟩ := Except.map_eq_ok.1 hm
  obtain ⟨payload, hpayload, -⟩ := Message.frame_eq_ok hframe
  have hread := Attribute.ofBytes_listBytes_rebuilt
    (fun a ha => (Update.composed_compose hattrs a ha).legible) hpayload
  refine ⟨attrs, hattrs, ?_⟩
  rw [Message.ofFrame_eq hframe hpayload]
  simp [Message.ofPayload, Message.type, Version.isLegacy, hread, Except.map]

/-- A frame of version 4 is read as the deletions and the additions that it carries. -/
theorem Carries.current {id : NodeId} {caps : List Capability} {filter : Filter}
    {part : Part} {frame : Bytes}
    (h : Carries (.current id caps filter) part frame) :
    ∃ attrs, Message.ofFrame .v4 frame = .ok (.update attrs) ∧
      ∀ stamp, ∃ c, Update.changes stamp attrs = .ok c ∧
        c.delete.Perm (part.1.map fun b => b.net.rebuilt) ∧
        c.add.Perm ((part.2.filter fun b => !filter b).map fun b =>
          (b.relayed id stamp).rebuilt) := by
  obtain ⟨attrs, hattrs, hread⟩ := h.exists_update
  refine ⟨attrs.map Attribute.rebuilt, hread, fun stamp => ?_⟩
  obtain ⟨c, hc, hdelete, hadd⟩ := Update.changes_compose hattrs stamp
  refine ⟨c.rebuilt, ?_, ?_, ?_⟩
  · rw [Update.changes_rebuilt, hc]
    rfl
  · have hperm := hdelete.map Network.rebuilt
    rw [List.map_map] at hperm
    exact hperm
  · have hperm := hadd.map Binding.rebuilt
    rw [List.map_map] at hperm
    exact hperm

end Composer

namespace LegacyUpdate

/-- Of the legacy versions only the last takes subnets. -/
theorem takesSubnets_iff {v : Version} (hlegacy : v.isLegacy = true) :
    takesSubnets v = true ↔ v = .v3 := by
  cases v with
  | v1 | v2 | v3 => decide
  | v4 => cases hlegacy

theorem usable_isHost {v : Version} {quantity : Nat} {bs : List Binding} {b : Binding}
    (hb : b ∈ usable v quantity bs) (hlegacy : v.isLegacy = true) (hv : v ≠ .v3) :
    b.net.isHost = true := by
  have hkept := (List.mem_filter.1 hb).2
  have hsubnets : takesSubnets v = false := Bool.eq_false_iff.2 (mt (takesSubnets_iff hlegacy).1 hv)
  simpa [hsubnets] using (Bool.and_eq_true_iff.1 hkept).2

theorem wellFormed_compose {v : Version} (hlegacy : v.isLegacy = true) {quantity : Nat}
    {filter : Filter} {delete add : List Binding} {records : List MappingRecord}
    (h : compose v quantity filter delete add = .ok records) : ∀ r ∈ records, r.WellFormed v := by
  obtain ⟨added, hadded, h⟩ := Except.bind_eq_ok.1 h
  cases h
  intro r hr
  rcases List.mem_append.1 hr with hr | hr
  · obtain ⟨b, hb, rfl⟩ := List.mem_map.1 hr
    refine ⟨.inr rfl, ?_, usable_isHost hb hlegacy⟩
    cases hnet : b.net <;> simp [deleteRecord, hnet, MappingType.deleting, MappingType.isAdd]
  · obtain ⟨b, hb, hrecord⟩ := Update.exists_of_mem_mapM hadded hr
    obtain ⟨tag, -, rfl⟩ := Except.map_eq_ok.1 hrecord
    exact ⟨.inl rfl, by simp, usable_isHost hb hlegacy⟩

end LegacyUpdate

namespace MappingRecord

/-- The attribute that a record passes for. -/
def unread (v : Version) (r : MappingRecord) : Attribute :=
  .of 0 (.raw r.type.code (r.net.addr.octets ++ tagPart r.tag ++ lengthPart v r.net))

/-- The first byte of a record says that what follows is an attribute with a wide header. -/
theorem reads_unread (v : Version) (r : MappingRecord) :
    Attribute.reader.Reads (r.bytes v) (r.unread v) := by
  intro rest
  have hraw : ∀ k ∈ AttributeKind.modelled, r.type.code ≠ k.code := by
    cases r.type <;> decide
  have hcode : r.type.code < 256 ^ 3 := by cases r.type <;> decide
  have hfront : wordBytes 4 r.type.code = 0 :: wordBytes 3 r.type.code := by
    cases r.type <;> rfl
  have hread := Attribute.read_fields (f := 0) hcode (length_body_lt v r) rfl
    (AttributeValue.ofBytes_raw hraw _) rest
  rw [bytes, hfront]
  exact hread

theorem next_unread (stamp : Instant) (v : Version) (r : MappingRecord)
    (reading : Update.Reading) : Update.Reading.next stamp reading (r.unread v) = .ok reading := rfl

theorem changes_unread (stamp : Instant) (v : Version) (records : List MappingRecord) :
    Update.changes stamp (records.map (unread v)) = .ok {} := by
  have hfold : (records.map (unread v)).foldlM (Update.Reading.next stamp) {} = .ok {} := by
    induction records with
    | nil => rfl
    | cons r records ih =>
      rw [List.map_cons, List.foldlM_cons, next_unread]
      exact ih
  rw [Update.changes, hfold]
  rfl

end MappingRecord

namespace Composer

variable {v : Version} {quantity : Nat} {filter : Filter} {part : Part}
  {frame : Bytes}

theorem Carries.records (h : Carries (.legacy v quantity filter) part frame) : ∃ records,
    LegacyUpdate.compose v quantity filter part.1 part.2 = .ok records ∧
      (Message.legacyUpdate v records).frame = .ok frame := by
  obtain ⟨m, hm, hframe⟩ := h
  obtain ⟨records, hrecords, rfl⟩ := Except.map_eq_ok.1 hm
  exact ⟨records, hrecords, hframe⟩

/-- A frame of a legacy version is read under it as the records that were composed. -/
theorem Carries.legacy (h : Carries (.legacy v quantity filter) part frame)
    (hlegacy : v.isLegacy = true) : ∃ records,
    LegacyUpdate.compose v quantity filter part.1 part.2 = .ok records ∧
      Message.ofFrame v frame = .ok (.legacyUpdate v (records.map MappingRecord.canonical)) := by
  obtain ⟨records, hrecords, hframe⟩ := h.records
  have hwell : (Message.legacyUpdate v records).WellFormed v :=
    ⟨rfl, hlegacy, LegacyUpdate.wellFormed_compose hlegacy hrecords⟩
  exact ⟨records, hrecords, Message.ofFrame_of_frame hwell hframe⟩

/-- Under version 4 it says nothing. -/
theorem Carries.unread (h : Carries (.legacy v quantity filter) part frame) :
    ∃ attrs, Message.ofFrame .v4 frame = .ok (.update attrs) ∧
      ∀ stamp, Update.changes stamp attrs = .ok {} := by
  obtain ⟨records, -, hframe⟩ := h.records
  have hread : Attribute.ofBytes (records.flatMap (MappingRecord.bytes v)) =
      .ok (records.map (MappingRecord.unread v)) :=
    ItemReader.readAll_flatMap_map fun r _ => MappingRecord.reads_unread v r
  refine ⟨records.map (MappingRecord.unread v), ?_,
    fun stamp => MappingRecord.changes_unread stamp v records⟩
  rw [Message.ofFrame_eq hframe rfl]
  simp [Message.ofPayload, Message.type, Version.isLegacy, hread, Except.map]

/-- What a connection composes is an update, whatever the version. -/
theorem Carries.type_eq {c : Connection} (h : Carries (c.composer v) part frame) :
    ∃ m : Message, m.type = .update ∧ m.frame = .ok frame := by
  obtain ⟨m, hm, hframe⟩ := h
  refine ⟨m, ?_, hframe⟩
  rw [Connection.composer] at hm
  split at hm <;>
  · obtain ⟨_, -, rfl⟩ := Except.map_eq_ok.1 hm
    rfl

end Composer

end TagExchange
