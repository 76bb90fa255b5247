import TagExchange.Mapping
import TagExchange.Proofs.RoundTrip.Networks

/-!
# Mapping records on the wire

A record that its version can carry is read back, with its network as `Network.of` builds it
(`MappingRecord.reads`). The address is written whole, so unlike in attributes the bits beyond the
length are on the wire; the reader clears them.
-/

namespace TagExchange

namespace MappingPart

theorem reads_bytesOf {code : Nat} {value : Bytes} {p : MappingPart} (hcode : code < 256 ^ 4)
    (hlen : value.length < 256 ^ 4) (hp : ofValue code value = .ok p) :
    reader.Reads (bytesOf code value) p := by
  intro rest
  show read (bytesOf code value ++ rest) = .ok (p, rest)
  simp only [read, bytesOf, List.append_assoc, readWord_wordBytes_of_lt hcode,
    readWord_wordBytes_of_lt hlen, readBytes_append rfl, bind, Except.bind, hp, pure, Except.pure]

theorem reads_tag (t : Tag) :
    reader.Reads (bytesOf tagCode (wordBytes 2 t.value.toNat)) (.tag t) := by
  apply reads_bytesOf (by decide) (by simp)
  have hlt : t.value.toNat < 256 ^ 2 := t.value.toNat_lt
  have hread := readWord_wordBytes_of_lt hlt []
  rw [List.append_nil] at hread
  simp only [ofValue, if_true, hread, bind, Except.bind, Tag.of?_value, pure, Except.pure]

theorem reads_length (bits : UInt8) :
    reader.Reads (bytesOf lengthCode [bits]) (.length bits.toNat) := by
  apply reads_bytesOf (by decide) (by simp)
  simp [ofValue, lengthCode, tagCode, readWord_cons, bind, Except.bind, pure, Except.pure]

end MappingPart

namespace MappingType

/-- The type of a record about a network of its family. -/
def Fits (t : MappingType) (n : Network) : Prop := t = adding n ∨ t = deleting n

theorem Fits.width_eq {t : MappingType} {n : Network} (h : t.Fits n) :
    t.width / 8 = n.addr.octets.length := by
  rcases h with rfl | rfl <;> cases n <;>
    simp [adding, deleting, width, Network.addr, Address.octets]

theorem Fits.address_octets {t : MappingType} {n : Network} (h : t.Fits n) :
    t.address n.addr.octets = n.addr := by
  have h4 (a : Addr4) : ofOctets 32 (octets a) = a := ofOctets_octets (by decide) a
  have h6 (a : Addr6) : ofOctets 128 (octets a) = a := ofOctets_octets (by decide) a
  rcases h with rfl | rfl <;> cases n <;>
    simp [adding, deleting, address, Network.addr, Address.octets, h4, h6]

/-- A host network has the length of the whole address, or a longer one that is cut to it. -/
theorem Fits.of_width {t : MappingType} {n : Network} (h : t.Fits n) (hhost : n.isHost = true) :
    Network.of n.addr (UInt8.ofNat t.width) = Network.of n.addr n.length := by
  rcases h with rfl | rfl <;> cases n with
  | v4 n | v6 n =>
    have hlen : n.length.toNat = 0 + n.length.toNat := by omega
    simp only [Network.isHost, Network.hostBits, Net.hostBits, beq_iff_eq] at hhost
    simp only [adding, deleting, width, Network.of, Network.addr, Network.length, Net.of]
    congr 4
    simp
    omega

theorem Fits.length_le {t : MappingType} {n : Network} (h : t.Fits n) (hhost : n.isHost = false) :
    n.length.toNat ≤ t.width := by
  rcases h with rfl | rfl <;> cases n <;>
    simp_all [Network.isHost, Network.hostBits, Net.hostBits, Network.length, adding, deleting,
      width] <;> omega

end MappingType

namespace MappingRecord

/-- What a version can carry: a type of the network's family, a tag wherever a network is added,
and before version 3 no subnets. -/
structure WellFormed (v : Version) (r : MappingRecord) : Prop where
  fits : r.type.Fits r.net
  tagged : r.type.isAdd = true → r.tag ≠ none
  host : v ≠ .v3 → r.net.isHost = true

/-- The record with its network as `Network.of` builds it. -/
def canonical (r : MappingRecord) : MappingRecord :=
  { r with net := .of r.net.addr r.net.length }

theorem canonical_eq_self_iff (r : MappingRecord) : r.canonical = r ↔ r.net.Canonical := by
  constructor
  · intro h
    have hnet : Network.of r.net.addr r.net.length = r.net := congrArg MappingRecord.net h
    rw [← hnet]
    exact Network.canonical_of _ _
  · intro h
    simp [canonical, Network.of_canonical h]

/-- What the parts of a record add up to. -/
theorem foldAll_parts {v : Version} {r : MappingRecord} (h : r.WellFormed v) :
    ∃ s : MappingPart.Summary, MappingPart.reader.foldAll MappingPart.Summary.add
        { bits := r.type.width } (tagPart r.tag ++ lengthPart v r.net) = .ok s ∧
      s.tag = r.tag ∧ Network.of r.net.addr (UInt8.ofNat s.bits) = .of r.net.addr r.net.length := by
  have hlength (tag : Option Tag) : ∃ s : MappingPart.Summary,
      MappingPart.reader.foldAll MappingPart.Summary.add ⟨tag, r.type.width⟩
        (lengthPart v r.net) = .ok s ∧
      s.tag = tag ∧ Network.of r.net.addr (UInt8.ofNat s.bits) = .of r.net.addr r.net.length := by
    by_cases hhost : r.net.isHost = true
    · have hnone : lengthPart v r.net = [] := by simp [lengthPart, hhost]
      exact ⟨⟨tag, r.type.width⟩, by simp [hnone], rfl, h.fits.of_width hhost⟩
    · have hv : v = .v3 := by
        by_contra hv
        exact hhost (h.host hv)
      have hle := h.fits.length_le (by simpa using hhost)
      have hsome : lengthPart v r.net =
          MappingPart.bytesOf MappingPart.lengthCode [r.net.length] ++ [] := by
        simp [lengthPart, hhost, hv]
      have hnot : ¬ r.type.width < r.net.length.toNat := by omega
      refine ⟨⟨tag, r.net.length.toNat⟩, ?_, rfl, by rw [UInt8.ofNat_toNat]⟩
      rw [hsome, ItemReader.foldAll_append (MappingPart.reads_length _)]
      simp [MappingPart.Summary.add, hnot, Except.bind]
  cases htag : r.tag with
  | none => simpa [tagPart] using hlength none
  | some t =>
    rw [tagPart, ItemReader.foldAll_append (MappingPart.reads_tag t)]
    simpa [MappingPart.Summary.add, Except.bind] using hlength (some t)

theorem ofBody_body {v : Version} {r : MappingRecord} (h : r.WellFormed v) :
    ofBody r.type (r.net.addr.octets ++ tagPart r.tag ++ lengthPart v r.net) = .ok r.canonical := by
  obtain ⟨s, hs, htag, hnet⟩ := foldAll_parts h
  have hwidth := h.fits.width_eq
  have hnot : ¬ (r.net.addr.octets ++ (tagPart r.tag ++ lengthPart v r.net)).length <
      r.type.width / 8 := by simp [hwidth]
  have hadd : ¬ (r.type.isAdd = true ∧ r.tag = none) := by
    rintro ⟨hadd, hnone⟩
    exact h.tagged hadd hnone
  simp only [ofBody, List.append_assoc, hnot, if_false, readBytes_append hwidth.symm, bind,
    Except.bind, hs, hadd, h.fits.address_octets, pure, Except.pure, hnet, htag]
  rfl

theorem length_body_lt (v : Version) (r : MappingRecord) :
    (r.net.addr.octets ++ tagPart r.tag ++ lengthPart v r.net).length < 256 ^ 4 := by
  have haddr : r.net.addr.octets.length ≤ 16 := by
    cases r.net <;> simp [Network.addr, Address.octets]
  have htag : (tagPart r.tag).length ≤ 10 := by
    cases r.tag <;> simp [tagPart, MappingPart.bytesOf]
  have hlen : (lengthPart v r.net).length ≤ 9 := by
    rw [lengthPart]
    split <;> simp [MappingPart.bytesOf]
  simp only [List.length_append]
  norm_num
  omega

theorem reads {v : Version} {r : MappingRecord} (h : r.WellFormed v) :
    reader.Reads (r.bytes v) r.canonical := by
  intro rest
  have hcode : r.type.code < 256 ^ 4 := by cases r.type <;> decide
  show read (r.bytes v ++ rest) = .ok (r.canonical, rest)
  rw [bytes, List.append_assoc, List.append_assoc]
  simp only [read, readWord_wordBytes_of_lt hcode, bind, Except.bind, MappingType.ofCode?_code,
    readWord_wordBytes_of_lt (length_body_lt v r), readBytes_append rfl, ofBody_body h, pure,
    Except.pure]

/-- A list of records is read back with every network as `Network.of` builds it. -/
theorem readAll_flatMap_bytes {v : Version} {records : List MappingRecord}
    (h : ∀ r ∈ records, r.WellFormed v) :
    reader.readAll (records.flatMap (bytes v)) = .ok (records.map canonical) :=
  ItemReader.readAll_flatMap_map fun r hr => reads (h r hr)

end MappingRecord

end TagExchange
