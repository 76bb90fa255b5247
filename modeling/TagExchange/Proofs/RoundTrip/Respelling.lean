import TagExchange.Proofs.RoundTrip.Spellings

/-!
# Legacy updates written again

The reader of mapping records does not look at the version: it takes a length wherever there is one.
The writer gives lengths in version 3 only. So an update that was read under version 3 is the same
when it is written and read again, while under an earlier version every subnet comes back as the
single address it starts with (`Message.ofPayload_respelt`).
-/

namespace TagExchange

/-- The address of a record is of the family that its type says. -/
theorem MappingType.fits_of (t : MappingType) (front : Bytes) (length : UInt8) :
    t.Fits (.of (t.address front) length) := by
  cases t with
  | addIpv4 | addIpv6 => exact .inl rfl
  | delIpv4 | delIpv6 => exact .inr rfl

namespace MappingRecord

variable {v : Version} {r : MappingRecord} {records : List MappingRecord}

/-- What the reader promises of a record, whatever the version. -/
structure Legible (r : MappingRecord) : Prop where
  fits : r.type.Fits r.net
  tagged : r.type.isAdd = true → r.tag ≠ none
  canonical : r.net.Canonical

theorem legible_of_ofBody {type : MappingType} {body : Bytes} (h : ofBody type body = .ok r) :
    r.Legible := by
  rw [ofBody] at h
  split at h
  · cases h
  · obtain ⟨⟨front, parts⟩, -, h⟩ := Except.bind_eq_ok.1 h
    obtain ⟨s, -, h⟩ := Except.bind_eq_ok.1 h
    split at h
    · cases h
    · next htagged =>
      cases h
      refine ⟨type.fits_of _ _, ?_, Network.canonical_of _ _⟩
      intro hadd hnone
      exact htagged ⟨hadd, hnone⟩

theorem legible_of_read {bs rest : Bytes} (h : read bs = .ok (r, rest)) : r.Legible := by
  obtain ⟨⟨code, bs₁⟩, -, h⟩ := Except.bind_eq_ok.1 h
  dsimp only at h
  split at h
  · cases h
  · obtain ⟨⟨size, bs₂⟩, -, h⟩ := Except.bind_eq_ok.1 h
    obtain ⟨⟨body, rest'⟩, -, h⟩ := Except.bind_eq_ok.1 h
    obtain ⟨r', hbody, h⟩ := Except.bind_eq_ok.1 h
    cases h
    exact legible_of_ofBody hbody

/-- The record as a version carries it: without a length, a network is the single address it
starts with. -/
def carried (v : Version) (r : MappingRecord) : MappingRecord :=
  if v = .v3 then r else { r with net := .host r.net.addr }

@[simp] theorem carried_v3 (r : MappingRecord) : r.carried .v3 = r := rfl

theorem carried_of_ne (hv : v ≠ .v3) (r : MappingRecord) :
    r.carried v = { r with net := .host r.net.addr } := if_neg hv

/-- What a version does not carry it does not write either. -/
theorem bytes_carried (v : Version) (r : MappingRecord) : (r.carried v).bytes v = r.bytes v := by
  by_cases hv : v = .v3
  · rw [hv, carried_v3]
  · have hlength (net : Network) : lengthPart v net = [] := by simp [lengthPart, hv]
    rw [carried_of_ne hv]
    simp only [bytes, hlength, Network.addr_host]

theorem Legible.carried (h : r.Legible) (v : Version) :
    (r.carried v).WellFormed v ∧ (r.carried v).canonical = r.carried v := by
  by_cases hv : v = .v3
  · subst hv
    exact ⟨⟨h.fits, h.tagged, fun hne => absurd rfl hne⟩, r.canonical_eq_self_iff.2 h.canonical⟩
  · rw [carried_of_ne hv]
    have hfits : r.type.Fits (.host r.net.addr) := by
      have hfits := h.fits
      cases hnet : r.net <;> rw [hnet] at hfits <;> exact hfits
    exact ⟨⟨hfits, h.tagged, fun _ => Network.isHost_host _⟩,
      (canonical_eq_self_iff _).2 (Network.canonical_host _)⟩

/-- A record that was read comes back as its version carries it. -/
theorem Legible.reads (h : r.Legible) (v : Version) : reader.Reads (r.bytes v) (r.carried v) := by
  obtain ⟨hwell, hcanonical⟩ := h.carried v
  have hreads := MappingRecord.reads hwell
  rwa [bytes_carried, hcanonical] at hreads

theorem Legible.carried_eq_self_iff (h : r.Legible) :
    r.carried v = r ↔ v = .v3 ∨ r.net.isHost = true := by
  by_cases hv : v = .v3
  · simp [hv]
  · rw [carried_of_ne hv]
    constructor
    · intro heq
      have hnet : Network.host r.net.addr = r.net := congrArg MappingRecord.net heq
      rw [← hnet]
      exact .inr (Network.isHost_host _)
    · intro hhost
      rw [Network.host_addr h.canonical (hhost.resolve_left hv)]

end MappingRecord

namespace Message

variable {v : Version}

/-- An update with its records as a version carries them. -/
def carried (v : Version) : Message → Message
  | legacyUpdate version records => legacyUpdate version (records.map (MappingRecord.carried v))
  | m => m

/-- A legacy update that was read under its version has a written form, which is read as the update
that the version carries. That is the update itself exactly when the version is 3 or every record is
about a single address; and it has the same written form, so that it stays as it is from then on. -/
theorem ofPayload_respelt (hv : v.isLegacy = true) {bs : Bytes} {m : Message}
    (hread : ofPayload v .update bs = .ok m) :
    ∃ records respelt, m = legacyUpdate v records ∧ m.payload = .ok respelt ∧
      ofPayload v .update respelt = .ok (m.carried v) ∧
      (ofPayload v .update respelt = .ok m ↔ v = .v3 ∨ ∀ r ∈ records, r.net.isHost = true) ∧
      (m.carried v).payload = .ok respelt := by
  rw [ofPayload, if_pos hv] at hread
  obtain ⟨records, hrecords, rfl⟩ := Except.map_eq_ok.1 hread
  have hlegible : ∀ r ∈ records, r.Legible := by
    have hfirst {bs rest : Bytes} {r : MappingRecord} (h : MappingRecord.read bs = .ok (r, rest)) :
        r.Legible ∧ 0 + rest.length ≤ bs.length := by
      have hshorter := MappingRecord.read_shorter h
      exact ⟨MappingRecord.legible_of_read h, by omega⟩
    exact (ItemReader.of_readAll hfirst hrecords).1
  have hback : ofPayload v .update (records.flatMap (MappingRecord.bytes v)) =
      .ok ((legacyUpdate v records).carried v) := by
    have hall := ItemReader.readAll_flatMap_map fun r hr => (hlegible r hr).reads v
    rw [ofPayload, if_pos hv, hall]
    rfl
  refine ⟨records, _, rfl, rfl, hback, ?_, ?_⟩
  · rw [hback, carried, Except.ok.injEq, legacyUpdate.injEq]
    simp only [true_and]
    rw [show records.map (MappingRecord.carried v) = records ↔
      ∀ r ∈ records, r.carried v = r by
        simpa using List.map_inj_left (f := MappingRecord.carried v) (g := id) (l := records)]
    constructor
    · intro hself
      by_cases hv3 : v = .v3
      · exact .inl hv3
      · refine .inr fun r hr => ?_
        exact ((hlegible r hr).carried_eq_self_iff.1 (hself r hr)).resolve_left hv3
    · rintro hcarries r hr
      exact (hlegible r hr).carried_eq_self_iff.2 (hcarries.imp_right fun hhosts => hhosts r hr)
  · simp only [carried, payload, List.flatMap_map, MappingRecord.bytes_carried]

/-- The parts of a record that says its length twice, and something that nobody knows. -/
def wordyParts : Bytes :=
  MappingPart.bytesOf MappingPart.lengthCode [28] ++ (MappingPart.bytesOf 9 [7] ++
    (MappingPart.bytesOf MappingPart.tagCode (wordBytes 2 plainTag.value.toNat) ++
      (MappingPart.bytesOf MappingPart.lengthCode [24] ++ [])))

/-- A payload with the one record, about 10.0.0.9. -/
def wordyPayload : Bytes := [0, 0, 0, 1, 0, 0, 0, 41, 10, 0, 0, 9] ++ wordyParts

def wordyRecord : MappingRecord := ⟨.addIpv4, .v4 ⟨0x0A000000, 24⟩, some plainTag⟩

theorem readAll_wordyPayload : MappingRecord.reader.readAll wordyPayload = .ok [wordyRecord] := by
  have hother : MappingPart.reader.Reads (MappingPart.bytesOf 9 [7]) .other :=
    MappingPart.reads_bytesOf (by decide) (by decide) rfl
  have hparts : MappingPart.reader.foldAll MappingPart.Summary.add { bits := 32 } wordyParts =
      .ok ⟨some plainTag, 24⟩ := by
    simp only [wordyParts, ItemReader.foldAll_append (MappingPart.reads_length 28),
      ItemReader.foldAll_append hother, ItemReader.foldAll_append (MappingPart.reads_tag plainTag),
      ItemReader.foldAll_append (MappingPart.reads_length 24), ItemReader.foldAll_nil,
      MappingPart.Summary.add, Except.bind]
    rfl
  have hbody : MappingRecord.ofBody .addIpv4 ([10, 0, 0, 9] ++ wordyParts) = .ok wordyRecord := by
    rw [MappingRecord.ofBody, if_neg (by decide)]
    refine Except.bind_eq_ok.2 ⟨([10, 0, 0, 9], wordyParts), readBytes_eq_ok.2 ⟨rfl, rfl⟩, ?_⟩
    refine Except.bind_eq_ok.2 ⟨_, hparts, ?_⟩
    decide +kernel
  have hread : MappingRecord.read wordyPayload = .ok (wordyRecord, []) := by
    refine Except.bind_eq_ok.2 ⟨(1, wordyPayload.drop 4), by decide +kernel, ?_⟩
    refine Except.bind_eq_ok.2 ⟨(41, wordyPayload.drop 8), by decide +kernel, ?_⟩
    refine Except.bind_eq_ok.2 ⟨([10, 0, 0, 9] ++ wordyParts, []), by decide +kernel, ?_⟩
    exact Except.bind_eq_ok.2 ⟨_, hbody, rfl⟩
  exact ItemReader.readAll_eq_ok_cons.2 ⟨_, hread, ItemReader.readAll_nil _⟩

theorem ofPayload_wordyPayload {v : Version} (hv : v.isLegacy = true) :
    ofPayload v .update wordyPayload = .ok (legacyUpdate v [wordyRecord]) := by
  rw [ofPayload, if_pos hv, readAll_wordyPayload]
  rfl

theorem ofPayload_respelt_wordy : Version.v3.isLegacy = true ∧
    ofPayload .v3 .update wordyPayload = .ok (legacyUpdate .v3 [wordyRecord]) ∧
    ∃ respelt, (legacyUpdate .v3 [wordyRecord]).payload = .ok respelt ∧
      ofPayload .v3 .update respelt = .ok (legacyUpdate .v3 [wordyRecord]) := by
  have hread := ofPayload_wordyPayload (v := .v3) rfl
  obtain ⟨records, respelt, -, hpayload, -, hsame, -⟩ := ofPayload_respelt rfl hread
  exact ⟨rfl, hread, respelt, hpayload, hsame.2 (.inl rfl)⟩

/-- Under version 1 the subnet is read, but not written. -/
theorem wordy_not_respelt : ∃ respelt,
    ofPayload .v1 .update wordyPayload = .ok (legacyUpdate .v1 [wordyRecord]) ∧
    (legacyUpdate .v1 [wordyRecord]).payload = .ok respelt ∧
    ofPayload .v1 .update respelt =
      .ok (legacyUpdate .v1 [⟨.addIpv4, .v4 ⟨0x0A000000, 32⟩, some plainTag⟩]) ∧
    ofPayload .v1 .update respelt ≠ .ok (legacyUpdate .v1 [wordyRecord]) := by
  have hlegible : wordyRecord.Legible := ⟨.inl rfl, by decide, by decide, by decide⟩
  have hback : MappingRecord.reader.readAll (wordyRecord.bytes .v1 ++ []) =
      .ok [wordyRecord.carried .v1] := by
    rw [ItemReader.readAll_append (hlegible.reads .v1), ItemReader.readAll_nil]
    rfl
  have hrespelt : ofPayload .v1 .update (wordyRecord.bytes .v1 ++ []) =
      .ok (legacyUpdate .v1 [wordyRecord.carried .v1]) := by
    rw [ofPayload, if_pos (show Version.v1.isLegacy = true from rfl), hback]
    rfl
  refine ⟨wordyRecord.bytes .v1 ++ [], ofPayload_wordyPayload rfl, rfl, hrespelt, ?_⟩
  rw [hrespelt]
  decide

end Message

end TagExchange
