import TagExchange.Message.Codec
import TagExchange.Proofs.RoundTrip.Attributes
import TagExchange.Proofs.RoundTrip.Mappings

/-!
# Messages on the wire

A message that is well formed for a version and has a frame is read back from it under that
version (`Message.ofFrame_of_frame`). A mapping record comes back with its network as `Network.of`
builds it, so an update of an older version comes back as it was only when its networks are
canonical (`Message.canonical_eq_self_iff`); everything else comes back as it was.
-/

namespace TagExchange

/-- The bytes of a frame, which is within the limit. -/
theorem frame_eq_ok {type : MessageType} {payload bs : Bytes} (h : frame type payload = .ok bs) :
    bs = wordBytes 4 bs.length ++ wordBytes 4 type.code ++ payload ∧
      headerSize ≤ bs.length ∧ bs.length ≤ messageLimit := by
  have hnot : ¬ headerSize + payload.length < headerSize := by omega
  by_cases hbig : messageLimit < headerSize + payload.length
  · simp [frame, Header.of?, hbig, hnot, Except.map] at h
  · have hbs : bs = wordBytes 4 (headerSize + payload.length) ++ wordBytes 4 type.code ++
        payload := by
      simpa [frame, Header.of?, hbig, hnot, Except.map, Header.bytes, eq_comm] using h
    have hlen : bs.length = headerSize + payload.length := by
      rw [hbs]
      simp [headerSize]
      omega
    rw [hlen]
    exact ⟨hbs, by omega, by omega⟩

/-- A frame declares its own length. -/
theorem frameLength_of_frame {type : MessageType} {payload bs : Bytes}
    (h : frame type payload = .ok bs) : frameLength bs = .ok (some bs.length) := by
  obtain ⟨hbs, hlow, hhigh⟩ := frame_eq_ok h
  have hlt : bs.length < 256 ^ 4 := Nat.lt_of_le_of_lt hhigh (by decide)
  have hsplit : split? 4 bs =
      some (wordBytes 4 bs.length, wordBytes 4 type.code ++ payload) := by
    apply split?_eq_some_iff.2
    exact ⟨by rw [← List.append_assoc]; exact hbs, by simp⟩
  have hword : word (wordBytes 4 bs.length) = bs.length := word_wordBytes_of_lt hlt
  have h1 : ¬ messageLimit < bs.length := by omega
  have h2 : ¬ bs.length < headerSize := by omega
  simp only [frameLength, hsplit, hword, h1, h2, if_false]

/-- The header of a frame, and the payload behind it. -/
theorem Header.ofFrame_of_frame {type : MessageType} {payload bs : Bytes}
    (h : frame type payload = .ok bs) :
    Header.ofFrame bs = .ok ⟨bs.length, type⟩ ∧ bs.drop headerSize = payload := by
  obtain ⟨hbs, -, -⟩ := frame_eq_ok h
  have hfront : (wordBytes 4 bs.length ++ wordBytes 4 type.code).length = headerSize := by
    simp [headerSize]
  have hcode : (bs[7]?.getD 0).toNat = type.code := by
    rw [hbs]
    cases type <;> simp [wordBytes, MessageType.code]
  refine ⟨?_, ?_⟩
  · simp only [ofFrame, frameLength_of_frame h, bind, Except.bind, hcode,
      MessageType.ofCode?_code, ne_eq, not_true_eq_false, if_false, pure, Except.pure]
  · rw [hbs]
    exact List.drop_left' hfront

namespace ErrorNotice

theorem ofBytes_extended {code : ErrorCode} {subcode : ErrorSubcode} {data bs : Bytes}
    (h : bytes (extended code subcode data) = .ok bs) :
    ofBytes bs = .ok (extended code subcode data) := by
  by_cases hdata : dataLimit < data.length
  · simp [bytes, hdata] at h
  · have hcode : extendedBit + code.number < 256 ^ 1 := by
      cases code <;> simp [extendedBit, ErrorCode.number]
    have hsubcode : subcode.number < 256 ^ 1 := by
      cases subcode <;> simp [ErrorSubcode.number]
    have hle : extendedBit ≤ extendedBit + code.number := by omega
    have hbs : bs = wordBytes 1 (extendedBit + code.number) ++ (wordBytes 1 subcode.number ++
        (wordBytes 2 0 ++ data)) := by
      simpa [bytes, hdata, eq_comm] using h
    have hfirst := readWord_wordBytes_of_lt hcode
    have hsecond := readWord_wordBytes_of_lt hsubcode (wordBytes 2 0 ++ data)
    have hgap := readBytes_append (length_wordBytes 2 0) data
    have hnumber : ErrorCode.ofNumber? (extendedBit + code.number - extendedBit) = some code := by
      rw [Nat.add_sub_cancel_left, ErrorCode.ofNumber?_number]
    rw [hbs]
    simp only [ofBytes, hfirst, bind, Except.bind, if_pos hle]
    unfold ofExtended
    simp only [hnumber, bind, Except.bind, hsecond, ErrorSubcode.ofNumber?_number, hgap, extended?,
      if_neg hdata]

theorem ofBytes_legacy {code : LegacyErrorCode} {data bs : Bytes}
    (h : bytes (legacy code data) = .ok bs) : ofBytes bs = .ok (legacy code data) := by
  have hcode : code.number < 256 ^ 2 := by cases code <;> decide
  have hsmall : ¬ 65535 < code.number := by cases code <;> decide
  have hword : word (wordBytes 2 0 ++ wordBytes 2 code.number) = code.number := by
    rw [word_append, word_wordBytes_of_lt hcode, word_wordBytes_of_lt (by decide)]
    omega
  have hread : readWord 4 bs = .ok (code.number, data) := by
    refine readWord_eq_ok.2 ⟨wordBytes 2 0 ++ wordBytes 2 code.number, ?_, by simp, hword⟩
    simpa [bytes, eq_comm] using h
  have hfirst : ∃ rest, readWord 1 bs = .ok (0, rest) := by
    refine ⟨wordBytes 1 0 ++ (wordBytes 2 code.number ++ data), ?_⟩
    refine readWord_eq_ok.2 ⟨[0], ?_, rfl, rfl⟩
    simpa [bytes, wordBytes, eq_comm] using h
  obtain ⟨rest, hfirst⟩ := hfirst
  have hnot : ¬ extendedBit ≤ 0 := by decide
  simp only [ofBytes, hfirst, bind, Except.bind, hnot, if_false, ofLegacy, hread, hsmall,
    LegacyErrorCode.ofNumber?_number, pure, Except.pure]

/-- Either form of a notice is read back. -/
theorem ofBytes_bytes {n : ErrorNotice} {bs : Bytes} (h : n.bytes = .ok bs) :
    ofBytes bs = .ok n := by
  cases n with
  | extended code subcode data => exact ofBytes_extended h
  | legacy code data => exact ofBytes_legacy h

end ErrorNotice

namespace Opening

/-- Attributes are well formed, and a legacy opening has none. -/
structure WellFormed (o : Opening) : Prop where
  legacy : o.version.isLegacy = true → o.attributes = []
  attributes : ∀ a ∈ o.attributes, a.WellFormed

theorem bytes_eq_ok {o : Opening} {bs : Bytes} (h : o.bytes = .ok bs) :
    ∃ attributes, (if o.version.isLegacy then .ok [] else Attribute.listBytes o.attributes) =
        .ok attributes ∧
      bs = wordBytes 4 o.version.number ++ (wordBytes 4 o.mode.number ++ attributes) := by
  by_cases hlegacy : o.version.isLegacy = true
  · refine ⟨[], by simp [hlegacy], ?_⟩
    simpa [bytes, hlegacy, bind, Except.bind, pure, Except.pure, eq_comm] using h
  · simp only [bytes, hlegacy] at h
    obtain ⟨attributes, hattributes, hb⟩ := Except.bind_eq_ok.1 h
    refine ⟨attributes, by simpa [hlegacy] using hattributes, ?_⟩
    simpa [pure, Except.pure, eq_comm] using hb

theorem readFixed_bytes (o : Opening) (rest : Bytes) :
    readFixed (wordBytes 4 o.version.number ++ (wordBytes 4 o.mode.number ++ rest)) =
      .ok ((o.version, o.mode), rest) := by
  have hversion : o.version.number < 256 ^ 4 := by cases o.version <;> decide
  have hmode : o.mode.number < 256 ^ 4 := by cases o.mode <;> decide
  simp only [readFixed, readWord_wordBytes_of_lt hversion, readWord_wordBytes_of_lt hmode, bind,
    Except.bind, Version.ofWord, Version.ofNumber?_number, Mode.ofWord, Mode.ofNumber?_number, pure,
    Except.pure]

/-- The version at the front says whether attributes follow. -/
theorem ofPayload_bytes {o : Opening} (h : o.WellFormed) {bs : Bytes} (hb : o.bytes = .ok bs) :
    ofPayload bs = .ok o := by
  have hlt : o.version.number < 256 ^ 4 := by cases o.version <;> decide
  obtain ⟨attributes, hattributes, hbs⟩ := bytes_eq_ok hb
  have hversion : Version.ofPayload bs = .ok o.version := by
    rw [hbs, Version.ofPayload, readWord_wordBytes_of_lt hlt]
    simp only [bind, Except.bind, Version.ofWord, Version.ofNumber?_number]
  have hfixed : readFixed bs = .ok ((o.version, o.mode), attributes) := by
    rw [hbs]
    exact readFixed_bytes o attributes
  by_cases hlegacy : o.version.isLegacy = true
  · have hnone := h.legacy hlegacy
    simp only [ofPayload, hversion, bind, Except.bind, hlegacy, if_true, ofLegacyBytes, hfixed,
      pure, Except.pure, ← hnone]
  · rw [if_neg hlegacy] at hattributes
    have hread := Attribute.ofBytes_listBytes h.attributes hattributes
    simp only [ofPayload, hversion, bind, Except.bind, hlegacy, ofBytes, hfixed, hread, pure,
      Except.pure]
    rfl

end Opening

namespace Message

/-- What a connection of a version exchanges: updates in the form of the version, well-formed
attributes and records, and keepalives in version 4 only. -/
def WellFormed (v : Version) : Message → Prop
  | opening o | reply o => o.WellFormed
  | update attributes => v = .v4 ∧ ∀ a ∈ attributes, a.WellFormed
  | legacyUpdate version records =>
    version = v ∧ v.isLegacy = true ∧ ∀ r ∈ records, r.WellFormed v
  | error _ | purgeAll => True
  | keepalive => v = .v4

def records : Message → List MappingRecord
  | legacyUpdate _ records => records
  | _ => []

/-- The message with every mapped network as `Network.of` builds it. -/
def canonical : Message → Message
  | legacyUpdate version records => legacyUpdate version (records.map MappingRecord.canonical)
  | m => m

theorem canonical_eq_self_iff (m : Message) :
    m.canonical = m ↔ ∀ r ∈ m.records, r.net.Canonical := by
  cases m with
  | legacyUpdate version records =>
    have hmap : records.map MappingRecord.canonical = records ↔
        ∀ r ∈ records, r.canonical = r := by
      simpa using List.map_inj_left (f := MappingRecord.canonical) (g := id) (l := records)
    simp [canonical, Message.records, hmap, MappingRecord.canonical_eq_self_iff]
  | _ => simp [canonical, Message.records]

theorem ofPayload_payload {v : Version} {m : Message} (h : m.WellFormed v) {bs : Bytes}
    (hb : m.payload = .ok bs) : ofPayload v m.type bs = .ok m.canonical := by
  cases m with
  | opening o => simp [ofPayload, type, Opening.ofPayload_bytes h hb, Except.map, canonical]
  | reply o => simp [ofPayload, type, Opening.ofPayload_bytes h hb, Except.map, canonical]
  | update attributes =>
    obtain ⟨rfl, hattributes⟩ := h
    have hread := Attribute.ofBytes_listBytes hattributes hb
    simp [ofPayload, type, Version.isLegacy, hread, Except.map, canonical]
  | legacyUpdate version records =>
    obtain ⟨rfl, hlegacy, hrecords⟩ := h
    have hbs : bs = records.flatMap (MappingRecord.bytes version) := by
      simpa [payload, eq_comm] using hb
    have hread := MappingRecord.readAll_flatMap_bytes hrecords
    simp [ofPayload, type, hlegacy, hbs, hread, Except.map, canonical]
  | error notice => simp [ofPayload, type, ErrorNotice.ofBytes_bytes hb, Except.map, canonical]
  | purgeAll => rfl
  | keepalive =>
    obtain rfl : v = .v4 := h
    rfl

/-- A frame of a well-formed message is read back. -/
theorem ofFrame_of_frame {v : Version} {m : Message} (h : m.WellFormed v) {bs : Bytes}
    (hb : m.frame = .ok bs) : ofFrame v bs = .ok m.canonical := by
  obtain ⟨payload, hpayload, hframe⟩ := Except.bind_eq_ok.1 hb
  obtain ⟨hheader, hdrop⟩ := Header.ofFrame_of_frame hframe
  have hread := ofPayload_payload h hpayload
  simp only [ofFrame, hheader, bind, Except.bind, hdrop, hread]

/-- A frame is within the limit, its header gives its length and the type of the message, and it is
read back with canonical networks; that is the message itself exactly when its mapped networks are
canonical. -/
theorem frame_roundTrip {v : Version} {m : Message} {bs : Bytes} (h : m.WellFormed v)
    (hb : m.frame = .ok bs) :
    bs.length ≤ messageLimit ∧ Header.ofFrame bs = .ok ⟨bs.length, m.type⟩ ∧
      ofFrame v bs = .ok m.canonical ∧
      (ofFrame v bs = .ok m ↔ ∀ r ∈ m.records, r.net.Canonical) := by
  obtain ⟨payload, hpayload, hframe⟩ := Except.bind_eq_ok.1 hb
  have hread := ofFrame_of_frame h hb
  refine ⟨(frame_eq_ok hframe).2.2, (Header.ofFrame_of_frame hframe).1, hread, ?_⟩
  rw [hread, Except.ok.injEq]
  exact canonical_eq_self_iff m

/-- The tag of the examples. -/
def plainTag : Tag := ⟨100, by decide⟩

/-- An update that adds the subnet 10.0.0.0/24 and deletes a single IPv6 address. -/
def subnetUpdate : Message :=
  legacyUpdate .v3 [⟨.addIpv4, .v4 ⟨0x0A000000, 24⟩, some plainTag⟩,
    ⟨.delIpv6, .v6 ⟨1, 128⟩, none⟩]

/-- The same with a bit set beyond the length of the subnet. -/
def unclearedUpdate : Message :=
  legacyUpdate .v3 [⟨.addIpv4, .v4 ⟨0x0A000001, 24⟩, some plainTag⟩]

theorem subnetUpdate_wellFormed : subnetUpdate.WellFormed .v3 := by
  refine ⟨rfl, rfl, ?_⟩
  intro r hr
  rcases List.mem_pair.1 hr with rfl | rfl
  · exact ⟨.inl rfl, by simp, by simp⟩
  · exact ⟨.inr rfl, by simp [MappingType.isAdd], by simp⟩

theorem unclearedUpdate_wellFormed : unclearedUpdate.WellFormed .v3 := by
  refine ⟨rfl, rfl, ?_⟩
  intro r hr
  obtain rfl := List.mem_singleton.1 hr
  exact ⟨.inl rfl, by simp, by simp⟩

theorem frame_roundTrip_subnetUpdate : subnetUpdate.WellFormed .v3 ∧
    ∃ bs, subnetUpdate.frame = .ok bs ∧ ofFrame .v3 bs = .ok subnetUpdate := by
  refine ⟨subnetUpdate_wellFormed, _, rfl, ?_⟩
  apply (frame_roundTrip subnetUpdate_wellFormed rfl).2.2.2.2
  intro r hr
  rcases List.mem_pair.1 hr with rfl | rfl <;>
    exact ⟨by decide, by decide⟩

theorem ofFrame_unclearedUpdate : unclearedUpdate.WellFormed .v3 ∧
    ∃ bs, unclearedUpdate.frame = .ok bs ∧ ofFrame .v3 bs ≠ .ok unclearedUpdate := by
  refine ⟨unclearedUpdate_wellFormed, _, rfl, ?_⟩
  rw [ofFrame_of_frame unclearedUpdate_wellFormed rfl]
  decide

end Message

end TagExchange
