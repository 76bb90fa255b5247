import TagExchange.Proofs.RoundTrip.Sizes

/-!
# Other spellings of a message

A message can be spelt in more than one way: an extended length that is not needed, bits beyond the
length of a network, a hold time that is off with a maximum, reserved bytes, bytes behind a legacy
opening, the payload of a keepalive. Whatever the reader takes is a well-formed value, and its own
written form is no longer than what was read (`Attribute.of_read`, `Opening.of_ofPayload`,
`ErrorNotice.of_ofBytes`). So every frame that is read as a message of version 4 or as one that all
versions have can be put into the form that the writer gives, which fits where the frame did and is
read as the same message (`Message.frame_of_ofFrame`). Updates of the older versions are left out.
-/

namespace TagExchange

theorem lt_of_readWord {n k : Nat} {bs rest : Bytes} (h : readWord n bs = .ok (k, rest)) :
    k < 256 ^ n := by
  obtain ⟨x, -, rfl, rfl⟩ := readWord_eq_ok.1 h
  exact word_lt x

namespace ItemReader

variable {α : Type} {r : ItemReader α}

theorem readAll_eq_ok_cons {bs : Bytes} {x : α} {xs : List α} :
    r.readAll bs = .ok (x :: xs) ↔ ∃ rest, r.read bs = .ok (x, rest) ∧ r.readAll rest = .ok xs := by
  constructor
  · intro h
    rw [readAll] at h
    split at h
    · cases h
    · split at h
      · cases h
      · next y rest hread =>
        split at h
        · cases h
        · next ys hrest =>
          cases h
          exact ⟨rest, hread, hrest⟩
  · rintro ⟨rest, hread, hrest⟩
    rw [readAll_of_read hread, hrest]
    rfl

/-- What holds of every item that is read holds of the items of a list, and if no item is longer
than what it was read from, nor are they all together. -/
theorem of_readAll {P : α → Prop} {size : α → Nat}
    (h : ∀ {bs x rest}, r.read bs = .ok (x, rest) → P x ∧ size x + rest.length ≤ bs.length)
    {bs : Bytes} {xs : List α} (hread : r.readAll bs = .ok xs) :
    (∀ x ∈ xs, P x) ∧ (xs.map size).sum ≤ bs.length := by
  induction xs generalizing bs with
  | nil => simp
  | cons x xs ih =>
    obtain ⟨rest, hx, hrest⟩ := readAll_eq_ok_cons.1 hread
    obtain ⟨hfirst, hsize⟩ := h hx
    obtain ⟨hothers, htotal⟩ := ih hrest
    refine ⟨List.forall_mem_cons.2 ⟨hfirst, hothers⟩, ?_⟩
    rw [List.map_cons, List.sum_cons]
    omega

end ItemReader

/-- Bits beyond the length are cleared, so the network is canonical. -/
theorem Net.of_read {w : Nat} (hw : w % 8 = 0) (hw' : w < 256) {bs rest : Bytes} {n : Net w}
    (h : read w bs = .ok (n, rest)) :
    n.Canonical ∧ n.bytes.length + rest.length ≤ bs.length := by
  obtain ⟨⟨bits, bs₁⟩, hbits, h⟩ := Except.bind_eq_ok.1 h
  have hfirst := length_of_readWord hbits
  dsimp only at h
  split at h
  · cases h
  · next hle =>
    obtain ⟨⟨part, rest'⟩, hpart, h⟩ := Except.bind_eq_ok.1 h
    have hoctets := length_of_readBytes hpart
    cases h
    have hlength := length_of hw' (ofOctets w (part ++ List.replicate (w / 8 - part.length) 0))
      (UInt8.ofNat bits)
    have hbyte : (UInt8.ofNat bits).toNat = bits := by
      simp
      omega
    simp only at hoctets ⊢
    refine ⟨canonical_of hw' _ _, ?_⟩
    rw [length_bytes hw, hlength, hbyte, Nat.min_eq_left (Nat.min_le_right _ _),
      Nat.min_eq_left (Nat.le_of_not_lt hle)]
    omega

theorem Capability.of_read {bs rest : Bytes} {c : Capability} (h : read bs = .ok (c, rest)) :
    c.bytes.length + rest.length ≤ bs.length := by
  obtain ⟨⟨code, bs₁⟩, hcode, h⟩ := Except.bind_eq_ok.1 h
  obtain ⟨⟨length, rest'⟩, hlength, h⟩ := Except.bind_eq_ok.1 h
  have hfirst := length_of_readWord hcode
  have hsecond := length_of_readWord hlength
  dsimp only at h
  split at h
  · cases h
  · split at h
    · cases h
      show 2 + rest.length ≤ bs.length
      omega
    · cases h

/-- A range that turns the timer off is written without its maximum. -/
theorem HoldTime.of_ofBytes {bs : Bytes} {h : HoldTime} (hread : ofBytes bs = .ok h) :
    h.Constructed ∧ h.bytes.length ≤ bs.length := by
  rw [ofBytes] at hread
  split at hread
  · next hlen =>
    obtain ⟨-, rfl⟩ := ofMin_eq_ok.1 hread
    exact ⟨.inl ⟨_, hread⟩, by simp [length_bytes, hlen]⟩
  · split at hread
    · next hlen =>
      refine ⟨.inr ⟨_, _, hread⟩, ?_⟩
      rw [length_bytes, hlen]
      split <;> omega
    · cases hread

theorem length_nodeIds (bs : Bytes) : 4 * (nodeIds bs).length ≤ bs.length := by
  fun_induction nodeIds bs with
  | case1 a b c d rest ih =>
    simp only [List.length_cons]
    omega
  | case2 bs => simp

namespace AttributeValue

/-- The bytes of a list of items, each no longer than what it was read from. -/
theorem length_flatMap_of_readAll {α : Type} {r : ItemReader α} {P : α → Prop} {write : α → Bytes}
    (h : ∀ {bs x rest}, r.read bs = .ok (x, rest) →
      P x ∧ (write x).length + rest.length ≤ bs.length)
    {bs : Bytes} {xs : List α} (hread : r.readAll bs = .ok xs) :
    (∀ x ∈ xs, P x) ∧ (xs.flatMap write).length ≤ bs.length := by
  rw [List.length_flatMap]
  exact ItemReader.of_readAll h hread

theorem of_ofBytes {code : Nat} {bs : Bytes} {v : AttributeValue}
    (h : ofBytes code bs = .ok v) :
    v.WellFormed ∧ v.code = code ∧ v.bytes.length ≤ bs.length := by
  by_cases hmodelled : ∀ k ∈ AttributeKind.modelled, code ≠ k.code
  · rw [ofBytes_raw hmodelled] at h
    cases h
    exact ⟨hmodelled, rfl, le_refl _⟩
  · push Not at hmodelled
    obtain ⟨k, hk, rfl⟩ := hmodelled
    have h4 {bs : Bytes} {nets : List (Net 32)} (h : (Net.reader 32).readAll bs = .ok nets) :=
      length_flatMap_of_readAll (Net.of_read (by decide) (by decide)) h
    have h6 {bs : Bytes} {nets : List (Net 128)} (h : (Net.reader 128).readAll bs = .ok nets) :=
      length_flatMap_of_readAll (Net.of_read (by decide) (by decide)) h
    rw [ofBytes, AttributeKind.ofCode?_code] at h
    cases k with
    | nodeId =>
      dsimp only at h
      split at h
      · next hlen =>
        cases h
        exact ⟨trivial, rfl, by simp [bytes, hlen]⟩
      · cases h
    | capabilities =>
      obtain ⟨list, hlist, rfl⟩ := Except.map_eq_ok.1 h
      have hsize := length_flatMap_of_readAll (P := fun _ => True)
        (fun hc => ⟨trivial, Capability.of_read hc⟩) hlist
      exact ⟨trivial, rfl, hsize.2⟩
    | holdTime =>
      obtain ⟨range, hrange, rfl⟩ := Except.map_eq_ok.1 h
      obtain ⟨hconstructed, hsize⟩ := HoldTime.of_ofBytes hrange
      exact ⟨hconstructed, rfl, hsize⟩
    | ipv4Add | ipv4Delete =>
      obtain ⟨nets, hnets, rfl⟩ := Except.map_eq_ok.1 h
      obtain ⟨hcanonical, hsize⟩ := h4 hnets
      exact ⟨hcanonical, rfl, hsize⟩
    | ipv6Add | ipv6Delete =>
      obtain ⟨nets, hnets, rfl⟩ := Except.map_eq_ok.1 h
      obtain ⟨hcanonical, hsize⟩ := h6 hnets
      exact ⟨hcanonical, rfl, hsize⟩
    | peerSequence =>
      dsimp only at h
      split at h
      · cases h
        refine ⟨trivial, rfl, ?_⟩
        have hids := length_nodeIds bs
        simp only [bytes, List.length_flatMap, length_octets, List.map_const', List.sum_replicate,
          smul_eq_mul]
        omega
      · cases h
    | sourceGroupTag =>
      dsimp only at h
      split at h
      · next hlen =>
        obtain ⟨t, -, rfl⟩ := Except.map_eq_ok.1 h
        exact ⟨trivial, rfl, by simp [bytes, hlen]⟩
      · cases h
    | addIpv4 | addIpv6 | delIpv4 | delIpv6 | ipv4AddTable | ipv6AddTable =>
      exact absurd hk (by decide)

end AttributeValue

namespace Attribute

/-- A type and a length that were read with some flags fit without the extended length flag, and a
shorter value takes no more room. -/
theorem fits_of_widths {f : UInt8} {code size n : Nat} (hcode : code < 256 ^ (widths f).1)
    (hsize : size < 256 ^ (widths f).2) (hle : n ≤ size) :
    (Layout.for (f &&& ~~~Flags.extended) n).Fits code n ∧
      (Layout.for (f &&& ~~~Flags.extended) n).headerSize ≤ 1 + (widths f).1 + (widths f).2 := by
  rw [Layout.for, Flags.has_compact_clear_extended]
  cases hcompact : Flags.has f Flags.compact with
  | false =>
    have hwidths : widths f = (3, 4) := by simp [widths, hcompact]
    rw [hwidths] at hcode hsize ⊢
    norm_num at hcode hsize
    simp only [Bool.not_false, if_true, Layout.Fits, Layout.headerSize]
    omega
  | true =>
    cases hextended : Flags.has f Flags.extended with
    | false =>
      have hwidths : widths f = (1, 1) := by simp [widths, hcompact, hextended]
      rw [hwidths] at hcode hsize ⊢
      norm_num at hcode hsize
      have hshort : ¬ 255 < n := by omega
      simp only [Bool.not_true, Bool.false_eq_true, hshort, if_false, Layout.Fits,
        Layout.headerSize]
      omega
    | true =>
      have hwidths : widths f = (1, 2) := by simp [widths, hcompact, hextended]
      rw [hwidths] at hcode hsize ⊢
      norm_num at hcode hsize
      simp only [Bool.not_true, Bool.false_eq_true, if_false]
      split <;> simp only [Layout.Fits, Layout.headerSize] <;> omega

/-- An attribute that is read is well formed, can be written, and is no longer than it was. -/
theorem of_read {bs rest : Bytes} {a : Attribute} (h : read bs = .ok (a, rest)) :
    (a.WellFormed ∧ ∃ bs', a.bytes = .ok bs') ∧ a.size + rest.length ≤ bs.length := by
  obtain ⟨⟨f, bs₁⟩, hflags, h⟩ := Except.bind_eq_ok.1 h
  obtain ⟨⟨code, bs₂⟩, hcode, h⟩ := Except.bind_eq_ok.1 h
  obtain ⟨⟨size, bs₃⟩, hsize, h⟩ := Except.bind_eq_ok.1 h
  dsimp only at h hcode hsize
  split at h
  · cases h
  · obtain ⟨⟨value, rest'⟩, hvalue, h⟩ := Except.bind_eq_ok.1 h
    obtain ⟨v, hv, h⟩ := Except.bind_eq_ok.1 h
    cases h
    obtain ⟨hwell, rfl, hle⟩ := AttributeValue.of_ofBytes hv
    have h₁ := length_of_readWord hflags
    have h₂ := length_of_readWord hcode
    have h₃ := length_of_readWord hsize
    have h₄ := length_of_readBytes hvalue
    have hlen : value.length = size := (readBytes_eq_ok.1 hvalue).2
    obtain ⟨hfits, hheader⟩ := fits_of_widths (lt_of_readWord hcode) (lt_of_readWord hsize)
      (hle.trans hlen.le)
    refine ⟨⟨wellFormed_of _ hwell, exists_bytes_iff.2 hfits⟩, ?_⟩
    have hsize : (of (UInt8.ofNat f) v).size =
        (Layout.for (UInt8.ofNat f &&& ~~~Flags.extended) v.bytes.length).headerSize +
          v.bytes.length := rfl
    dsimp only at hle ⊢
    omega

theorem of_ofBytes {bs : Bytes} {attrs : List Attribute} (h : ofBytes bs = .ok attrs) :
    (∀ a ∈ attrs, a.WellFormed) ∧
      ∃ bs', listBytes attrs = .ok bs' ∧ bs'.length ≤ bs.length := by
  obtain ⟨hall, hsize⟩ := ItemReader.of_readAll of_read h
  obtain ⟨bs', hbs'⟩ := exists_listBytes_iff.2 fun a ha => (hall a ha).2
  exact ⟨fun a ha => (hall a ha).1, bs', hbs', (length_of_listBytes hbs').trans_le hsize⟩

end Attribute

namespace Opening

theorem of_readFixed {bs rest : Bytes} {version : Version} {mode : Mode}
    (h : readFixed bs = .ok ((version, mode), rest)) :
    Version.ofPayload bs = .ok version ∧ bs.length = 8 + rest.length := by
  obtain ⟨⟨n, bs₁⟩, hn, h⟩ := Except.bind_eq_ok.1 h
  obtain ⟨⟨k, bs₂⟩, hk, h⟩ := Except.bind_eq_ok.1 h
  obtain ⟨version', hversion, h⟩ := Except.bind_eq_ok.1 h
  obtain ⟨mode', -, h⟩ := Except.bind_eq_ok.1 h
  cases h
  have h₁ := length_of_readWord hn
  have h₂ := length_of_readWord hk
  exact ⟨Except.bind_eq_ok.2 ⟨_, hn, hversion⟩, by omega⟩

/-- A legacy opening loses what stands behind its fixed part. -/
theorem of_ofPayload {bs : Bytes} {o : Opening} (h : ofPayload bs = .ok o) :
    o.WellFormed ∧ ∃ bs', o.bytes = .ok bs' ∧ bs'.length ≤ bs.length := by
  obtain ⟨version, hversion, h⟩ := Except.bind_eq_ok.1 h
  split at h
  · next hlegacy =>
    obtain ⟨⟨⟨version', mode⟩, rest⟩, hfixed, h⟩ := Except.bind_eq_ok.1 h
    cases h
    obtain ⟨hsame, hlen⟩ := of_readFixed hfixed
    obtain rfl : version = version' := by simpa [hversion] using hsame
    refine ⟨⟨fun _ => rfl, by simp⟩, _, by simp [bytes, hlegacy]; rfl, ?_⟩
    simp
    omega
  · next hlegacy =>
    obtain ⟨⟨⟨version', mode⟩, rest⟩, hfixed, h⟩ := Except.bind_eq_ok.1 h
    obtain ⟨attrs, hattrs, h⟩ := Except.bind_eq_ok.1 h
    cases h
    obtain ⟨hsame, hlen⟩ := of_readFixed hfixed
    obtain rfl : version = version' := by simpa [hversion] using hsame
    obtain ⟨hwell, front, hfront, hle⟩ := Attribute.of_ofBytes hattrs
    refine ⟨⟨fun h => absurd h hlegacy, hwell⟩, _, by simp [bytes, hlegacy, hfront]; rfl, ?_⟩
    simp
    omega

end Opening

namespace ErrorNotice

theorem of_ofExtended {first : Nat} {bs : Bytes} {n : ErrorNotice}
    (h : ofExtended first bs = .ok n) :
    ∃ bs', n.bytes = .ok bs' ∧ bs'.length ≤ 1 + bs.length := by
  unfold ofExtended at h
  generalize ErrorCode.ofNumber? (first - extendedBit) = code at h
  cases code with
  | none => cases h
  | some code =>
    obtain ⟨⟨subcode, bs₁⟩, hsubcode, h⟩ := Except.bind_eq_ok.1 h
    have h₁ := length_of_readWord hsubcode
    dsimp only at h
    split at h
    · cases h
    · obtain ⟨⟨gap, data⟩, hgap, h⟩ := Except.bind_eq_ok.1 h
      have h₂ := length_of_readBytes hgap
      dsimp only [extended?] at h
      split at h
      · cases h
      · next hdata =>
        cases h
        refine ⟨_, if_neg hdata, ?_⟩
        simp only [List.length_append, length_wordBytes]
        omega

theorem of_ofLegacy {bs : Bytes} {n : ErrorNotice} (h : ofLegacy bs = .ok n) :
    ∃ bs', n.bytes = .ok bs' ∧ bs'.length ≤ bs.length := by
  obtain ⟨⟨code, data⟩, hcode, h⟩ := Except.bind_eq_ok.1 h
  have hlen := length_of_readWord hcode
  dsimp only at h
  split at h
  · cases h
  · split at h
    · cases h
    · cases h
      refine ⟨_, rfl, ?_⟩
      simp only [List.length_append, length_wordBytes]
      omega

/-- Reserved bytes are written as zero, and the data stays. -/
theorem of_ofBytes {bs : Bytes} {n : ErrorNotice} (h : ofBytes bs = .ok n) :
    ∃ bs', n.bytes = .ok bs' ∧ bs'.length ≤ bs.length := by
  obtain ⟨⟨first, rest⟩, hfirst, h⟩ := Except.bind_eq_ok.1 h
  have hlen := length_of_readWord hfirst
  dsimp only at h
  split at h
  · obtain ⟨bs', hbytes, hle⟩ := of_ofExtended h
    exact ⟨bs', hbytes, by omega⟩
  · exact of_ofLegacy h

end ErrorNotice

namespace Message

/-- The older form of an update. -/
def IsLegacyUpdate : Message → Prop
  | legacyUpdate _ _ => True
  | _ => False

instance : DecidablePred IsLegacyUpdate
  | legacyUpdate _ _ => isTrue trivial
  | opening _ | reply _ | update _ | error _ | purgeAll | keepalive => isFalse id

/-- What is read from a payload is well formed, and its own payload is no longer. -/
theorem of_ofPayload {v : Version} {type : MessageType} {bs : Bytes} {m : Message}
    (h : ofPayload v type bs = .ok m) (hm : ¬ m.IsLegacyUpdate) :
    m.WellFormed v ∧ m.canonical = m ∧ ∃ bs', m.payload = .ok bs' ∧ bs'.length ≤ bs.length := by
  cases type with
  | opening | reply =>
    obtain ⟨o, ho, rfl⟩ := Except.map_eq_ok.1 h
    obtain ⟨hwell, hbytes⟩ := Opening.of_ofPayload ho
    exact ⟨hwell, rfl, hbytes⟩
  | update =>
    rw [ofPayload] at h
    split at h
    · obtain ⟨records, -, rfl⟩ := Except.map_eq_ok.1 h
      exact absurd trivial hm
    · next hlegacy =>
      obtain ⟨attrs, hattrs, rfl⟩ := Except.map_eq_ok.1 h
      obtain ⟨hwell, hbytes⟩ := Attribute.of_ofBytes hattrs
      have hv : v = .v4 := by cases v <;> first | rfl | exact absurd rfl hlegacy
      exact ⟨⟨hv, hwell⟩, rfl, hbytes⟩
  | error =>
    obtain ⟨notice, hnotice, rfl⟩ := Except.map_eq_ok.1 h
    exact ⟨trivial, rfl, ErrorNotice.of_ofBytes hnotice⟩
  | purgeAll =>
    cases h
    exact ⟨trivial, rfl, [], rfl, Nat.zero_le _⟩
  | keepalive =>
    rw [ofPayload] at h
    split at h
    · cases h
    · next hlegacy =>
      cases h
      have hv : v = .v4 := by cases v <;> first | rfl | exact absurd rfl hlegacy
      exact ⟨hv, rfl, [], rfl, Nat.zero_le _⟩

/-- Every frame that is read, but for an update of an older version, can be written again: in no
more bytes, and to be read as the same message. -/
theorem frame_of_ofFrame {v : Version} {bs : Bytes} {m : Message} (h : ofFrame v bs = .ok m)
    (hm : ¬ m.IsLegacyUpdate) :
    ∃ bs', m.frame = .ok bs' ∧ bs'.length ≤ bs.length ∧ ofFrame v bs' = .ok m := by
  obtain ⟨header, hheader, h⟩ := Except.bind_eq_ok.1 h
  obtain ⟨-, hlow, hhigh⟩ := Header.ofFrame_eq_ok hheader
  obtain ⟨hwell, hcanonical, payload, hpayload, hle⟩ := of_ofPayload h hm
  rw [List.length_drop] at hle
  obtain ⟨bs', hframe, hlen⟩ := frame_of_le hpayload (by omega)
  have hback := ofFrame_of_frame hwell hframe
  rw [hcanonical] at hback
  exact ⟨bs', hframe, by omega, hback⟩

/-- A hold time that is off, and a network. -/
def plainUpdate : Message :=
  update [.wellKnown (.holdTime { min := 0 }), .wellKnown (.announce4 [⟨0xF0000000, 4⟩])]

/-- The same with reserved bytes set, a maximum and an extended length for the hold time, and bits
beyond the length of the network. -/
def looseFrame : Bytes :=
  [0, 0, 0, 21, 1, 2, 4, 3, 0x58, 7, 0, 4, 0, 0, 0, 9, 0x50, 11, 2, 4, 0xFF]

theorem ofFrame_looseFrame : ofFrame .v4 looseFrame = .ok plainUpdate := by
  have hoff : Attribute.read [0x58, 7, 0, 4, 0, 0, 0, 9, 0x50, 11, 2, 4, 0xFF] =
      .ok (.wellKnown (.holdTime { min := 0 }), [0x50, 11, 2, 4, 0xFF]) := by
    decide +kernel
  have hnets : (Net.reader 32).readAll [4, 0xFF] = .ok [⟨0xF0000000, 4⟩] :=
    ItemReader.readAll_eq_ok_cons.2 ⟨[], by decide +kernel, ItemReader.readAll_nil _⟩
  have hadd : Attribute.read [0x50, 11, 2, 4, 0xFF] =
      .ok (.wellKnown (.announce4 [⟨0xF0000000, 4⟩]), []) := by
    have hvalue : AttributeValue.ofBytes 11 [4, 0xFF] = .ok (.announce4 [⟨0xF0000000, 4⟩]) :=
      Except.map_eq_ok.2 ⟨_, hnets, rfl⟩
    exact Attribute.read_fields (f := 0x50) (by decide) (by decide) rfl hvalue []
  have hall : Attribute.ofBytes (looseFrame.drop headerSize) = .ok _ :=
    ItemReader.readAll_eq_ok_cons.2 ⟨_, hoff,
      ItemReader.readAll_eq_ok_cons.2 ⟨_, hadd, ItemReader.readAll_nil _⟩⟩
  have hheader : Header.ofFrame looseFrame = .ok ⟨21, .update⟩ := by decide +kernel
  refine Except.bind_eq_ok.2 ⟨_, hheader, ?_⟩
  exact Except.map_eq_ok.2 ⟨_, hall, rfl⟩

theorem frame_of_ofFrame_looseFrame : ofFrame .v4 looseFrame = .ok plainUpdate ∧
    ∃ bs', plainUpdate.frame = .ok bs' ∧ bs'.length ≤ looseFrame.length ∧
      ofFrame .v4 bs' = .ok plainUpdate :=
  ⟨ofFrame_looseFrame, frame_of_ofFrame ofFrame_looseFrame (by decide)⟩

end Message

end TagExchange
