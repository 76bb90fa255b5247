import TagExchange.Proofs.RoundTrip.Networks

/-!
# Attributes on the wire

A legible attribute is read back from its written form in each of the three layouts, with its
networks as `Net.of` builds them (`Attribute.reads`), and so is a list of them
(`Attribute.ofBytes_listBytes_rebuilt`). Well-formed means what the constructors of values give:
canonical networks, hold times within their rules, and raw values only for types that have no value
form of their own. A list of well-formed attributes is read back as it was
(`Attribute.ofBytes_listBytes`).
-/

namespace TagExchange

namespace HoldTime

/-- A hold time that one of the two constructors gave. -/
def Constructed (h : HoldTime) : Prop :=
  (∃ min, ofMin min = .ok h) ∨ ∃ min max, ofRange min max = .ok h

theorem ofMin_eq_ok {min : Nat} {h : HoldTime} :
    ofMin min = .ok h ↔ MinOk min ∧ h = { min } := by
  rw [ofMin]
  split <;> simp_all [eq_comm]

theorem ofRange_eq_ok {min max : Nat} {h : HoldTime} :
    ofRange min max = .ok h ↔ MinOk min ∧
      ((min = 0 ∧ h = { min := 0 }) ∨ (min ≠ 0 ∧ min ≤ max ∧ max ≤ top ∧ h = { min, max })) := by
  rw [ofRange]
  split
  · simp_all
  · split
    · simp_all [eq_comm]
    · split <;> simp_all [eq_comm]

theorem MinOk.lt {min : Nat} (h : MinOk min) : min < 256 ^ 2 := by
  rcases h with rfl | ⟨-, h⟩
  · decide
  · exact Nat.lt_of_le_of_lt h (by decide)

/-- A bare minimum takes two bytes. -/
theorem ofBytes_bytes_of_ofMin {min : Nat} {h : HoldTime} (hm : ofMin min = .ok h) :
    ofBytes h.bytes = .ok h := by
  obtain ⟨hmin, rfl⟩ := ofMin_eq_ok.1 hm
  simp [bytes, ofBytes, word_wordBytes_of_lt hmin.lt, hm]

/-- A range takes four bytes, unless it turns the timer off. -/
theorem ofBytes_bytes_of_ofRange {min max : Nat} {h : HoldTime} (hr : ofRange min max = .ok h) :
    ofBytes h.bytes = .ok h := by
  obtain ⟨hmin, ⟨rfl, rfl⟩ | ⟨hne, hle, htop, rfl⟩⟩ := ofRange_eq_ok.1 hr
  · have hoff : ofMin 0 = .ok _ := rfl
    exact ofBytes_bytes_of_ofMin hoff
  · have hmax : max ≠ 0 := by omega
    have hlt : max < 256 ^ 2 := Nat.lt_of_le_of_lt htop (by decide)
    have htake : (wordBytes 2 min ++ wordBytes 2 max).take 2 = wordBytes 2 min :=
      List.take_left' (length_wordBytes 2 min)
    have hdrop : (wordBytes 2 min ++ wordBytes 2 max).drop 2 = wordBytes 2 max :=
      List.drop_left' (length_wordBytes 2 min)
    simp only [bytes, if_neg hmax, ofBytes, List.length_append, length_wordBytes, htake, hdrop,
      word_wordBytes_of_lt hmin.lt, word_wordBytes_of_lt hlt, hr]
    rfl

theorem Constructed.ofBytes_bytes {h : HoldTime} (hc : h.Constructed) :
    ofBytes h.bytes = .ok h := by
  rcases hc with ⟨min, hm⟩ | ⟨min, max, hr⟩
  · exact ofBytes_bytes_of_ofMin hm
  · exact ofBytes_bytes_of_ofRange hr

end HoldTime

theorem Capability.reads (c : Capability) : Capability.reader.Reads c.bytes c := by
  intro rest
  have hcode : c.code < 256 := by cases c <;> decide
  have hnat : (UInt8.ofNat c.code).toNat = c.code := UInt8.toNat_ofNat_of_lt' hcode
  show read (c.bytes ++ rest) = .ok (c, rest)
  simp [read, bytes, readWord_cons, hnat, bind, Except.bind, pure, Except.pure]

theorem nodeIds_flatMap (ids : List NodeId) : nodeIds (ids.flatMap octets) = ids := by
  induction ids with
  | nil => rfl
  | cons id ids ih =>
    have hlen : (octets id).length = 4 := length_octets id
    obtain ⟨a, b, c, d, hid⟩ : ∃ a b c d, octets id = [a, b, c, d] := by
      match h : octets id, hlen with
      | [a, b, c, d], _ => exact ⟨a, b, c, d, rfl⟩
    have hback : ofOctets 32 (octets id) = id := ofOctets_octets (by decide) id
    rw [List.flatMap_cons, hid]
    rw [hid] at hback
    simp [nodeIds, hback, ih]

namespace AttributeKind

/-- The kinds that have a value form of their own. -/
def modelled : List AttributeKind :=
  [nodeId, capabilities, holdTime, ipv4Add, ipv6Add, ipv4Delete, ipv6Delete, peerSequence,
    sourceGroupTag]

theorem ofCode?_eq_some {n : Nat} {k : AttributeKind} (h : ofCode? n = some k) : n = k.code := by
  unfold ofCode? at h
  split at h <;> first | (cases h; rfl) | cases h

end AttributeKind

namespace AttributeValue

/-- What the constructors of values give. -/
def WellFormed : AttributeValue → Prop
  | holdTime range => range.Constructed
  | announce4 nets | withdraw4 nets => ∀ n ∈ nets, n.Canonical
  | announce6 nets | withdraw6 nets => ∀ n ∈ nets, n.Canonical
  | raw code _ => ∀ k ∈ AttributeKind.modelled, code ≠ k.code
  | _ => True

/-- What the reader understands, whatever the networks are. -/
def Legible : AttributeValue → Prop
  | holdTime range => range.Constructed
  | raw code _ => ∀ k ∈ AttributeKind.modelled, code ≠ k.code
  | _ => True

theorem WellFormed.legible {v : AttributeValue} (h : v.WellFormed) : v.Legible := by
  cases v <;> first | exact h | trivial

/-- The value with every network as `Net.of` builds it. -/
def rebuilt : AttributeValue → AttributeValue
  | announce4 nets => announce4 (nets.map Net.rebuilt)
  | announce6 nets => announce6 (nets.map Net.rebuilt)
  | withdraw4 nets => withdraw4 (nets.map Net.rebuilt)
  | withdraw6 nets => withdraw6 (nets.map Net.rebuilt)
  | v => v

theorem map_rebuilt_of_canonical {w : Nat} {nets : List (Net w)} (h : ∀ n ∈ nets, n.Canonical) :
    nets.map Net.rebuilt = nets :=
  (List.map_congr_left fun n hn => Net.rebuilt_of_canonical (h n hn)).trans (List.map_id nets)

theorem WellFormed.rebuilt_eq {v : AttributeValue} (h : v.WellFormed) : v.rebuilt = v := by
  cases v with
  | announce4 nets => exact congrArg announce4 (map_rebuilt_of_canonical h)
  | announce6 nets => exact congrArg announce6 (map_rebuilt_of_canonical h)
  | withdraw4 nets => exact congrArg withdraw4 (map_rebuilt_of_canonical h)
  | withdraw6 nets => exact congrArg withdraw6 (map_rebuilt_of_canonical h)
  | _ => rfl

theorem readAll_nets {w : Nat} (hw : w % 8 = 0) (nets : List (Net w)) :
    (Net.reader w).readAll (nets.flatMap Net.bytes) = .ok (nets.map Net.rebuilt) :=
  ItemReader.readAll_flatMap_map fun n _ => Net.reads hw n

/-- A type without a value form of its own keeps its bytes. -/
theorem ofBytes_raw {code : Nat} (h : ∀ k ∈ AttributeKind.modelled, code ≠ k.code) (bs : Bytes) :
    ofBytes code bs = .ok (raw code bs) := by
  cases hk : AttributeKind.ofCode? code with
  | none => simp [ofBytes, hk]
  | some k =>
    have hcode := AttributeKind.ofCode?_eq_some hk
    have hmem : k ∉ AttributeKind.modelled := fun hmem => h k hmem hcode
    cases k <;> first | exact absurd (by decide) hmem | simp [ofBytes, hk]

theorem ofBytes_bytes {v : AttributeValue} (h : v.Legible) :
    ofBytes v.code v.bytes = .ok v.rebuilt := by
  have h4 := readAll_nets (show 32 % 8 = 0 by decide)
  have h6 := readAll_nets (show 128 % 8 = 0 by decide)
  cases v with
  | nodeId id =>
    simp [ofBytes, code, bytes, rebuilt, ofOctets_octets (show 32 % 8 = 0 by decide) id]
  | capabilities list =>
    have hread : Capability.reader.readAll (list.flatMap Capability.bytes) = .ok list :=
      ItemReader.readAll_flatMap fun c _ => Capability.reads c
    simp [ofBytes, code, bytes, rebuilt, hread, Except.map]
  | holdTime range =>
    simp [ofBytes, code, bytes, rebuilt, HoldTime.Constructed.ofBytes_bytes h, Except.map]
  | announce4 nets => simp [ofBytes, code, bytes, rebuilt, h4, Except.map]
  | announce6 nets => simp [ofBytes, code, bytes, rebuilt, h6, Except.map]
  | withdraw4 nets => simp [ofBytes, code, bytes, rebuilt, h4, Except.map]
  | withdraw6 nets => simp [ofBytes, code, bytes, rebuilt, h6, Except.map]
  | path ids =>
    simp [ofBytes, code, bytes, rebuilt, nodeIds_flatMap]
  | tag t =>
    have hlt : t.value.toNat < 256 ^ 2 := t.value.toNat_lt
    simp [ofBytes, code, bytes, rebuilt, word_wordBytes_of_lt hlt, Tag.of?_value, Except.map]
  | raw code bs => exact ofBytes_raw h bs

end AttributeValue

namespace Flags

theorem clear_extended : ∀ f : UInt8, f &&& extended = 0 → f &&& ~~~extended = f := by
  decide +kernel

theorem clear_or_extended : ∀ f : UInt8, (f ||| extended) &&& ~~~extended = f &&& ~~~extended := by
  decide +kernel

theorem and_clear_extended : ∀ f : UInt8, (f &&& ~~~extended) &&& extended = 0 := by
  decide +kernel

theorem has_compact_or_extended : ∀ f : UInt8, has (f ||| extended) compact = has f compact := by
  decide +kernel

theorem has_compact_clear_extended :
    ∀ f : UInt8, has (f &&& ~~~extended) compact = has f compact := by
  decide +kernel

theorem has_extended_or_extended : ∀ f : UInt8, has (f ||| extended) extended = true := by
  decide +kernel

end Flags

namespace Attribute

/-- The extended length flag is not set, and the value is well formed. -/
structure WellFormed (a : Attribute) : Prop where
  flags : a.flags &&& Flags.extended = 0
  value : a.value.WellFormed

/-- The extended length flag is not set, and the value is legible. -/
structure Legible (a : Attribute) : Prop where
  flags : a.flags &&& Flags.extended = 0
  value : a.value.Legible

theorem WellFormed.legible {a : Attribute} (h : a.WellFormed) : a.Legible :=
  ⟨h.flags, h.value.legible⟩

/-- The attribute with every network as `Net.of` builds it. -/
def rebuilt (a : Attribute) : Attribute := { a with value := a.value.rebuilt }

theorem WellFormed.rebuilt_eq {a : Attribute} (h : a.WellFormed) : a.rebuilt = a := by
  rw [rebuilt, h.value.rebuilt_eq]

theorem legible_of (flags : UInt8) {v : AttributeValue} (h : v.Legible) : (of flags v).Legible :=
  ⟨Flags.and_clear_extended flags, h⟩

theorem wellFormed_of (flags : UInt8) {v : AttributeValue} (h : v.WellFormed) :
    (of flags v).WellFormed :=
  ⟨Flags.and_clear_extended flags, h⟩

theorem of_flags {a : Attribute} (h : a.flags &&& Flags.extended = 0) : of a.flags a.value = a := by
  rw [of, Flags.clear_extended a.flags h]

theorem of_extended {a : Attribute} (h : a.flags &&& Flags.extended = 0) :
    of (a.flags ||| Flags.extended) a.value = a := by
  rw [of, Flags.clear_or_extended, Flags.clear_extended a.flags h]

/-- What stands behind the flags: a type and a length of the widths that the flags give, and as
many bytes as the length says. -/
theorem read_fields {f : UInt8} {code size : Nat} {value : Bytes} {v : AttributeValue}
    (hcode : code < 256 ^ (widths f).1) (hsize : size < 256 ^ (widths f).2)
    (hlen : value.length = size) (hv : AttributeValue.ofBytes code value = .ok v) (rest : Bytes) :
    read (f :: (wordBytes (widths f).1 code ++ wordBytes (widths f).2 size) ++ value ++ rest) =
      .ok (of f v, rest) := by
  have hnot : ¬ (value ++ rest).length < size := by simp; omega
  simp only [read, List.cons_append, List.append_assoc, readWord_cons, UInt8.ofNat_toNat,
    readWord_wordBytes_of_lt hcode, readWord_wordBytes_of_lt hsize, readBytes_append hlen, bind,
    Except.bind, hv, hnot, if_false, pure, Except.pure]

/-- The flags that stand on the wire for a value of so many bytes. -/
def wireFlags (flags : UInt8) (size : Nat) : UInt8 :=
  if Layout.for flags size = .compactExtended then flags ||| Flags.extended else flags

/-- A header that can be written is the flags on the wire and two words of the widths that these
flags give. -/
theorem header_eq_ok {flags : UInt8} {code size : Nat} {front : Bytes}
    (hflags : flags &&& Flags.extended = 0) (h : header flags code size = .ok front) :
    front = wireFlags flags size :: (wordBytes (widths (wireFlags flags size)).1 code ++
        wordBytes (widths (wireFlags flags size)).2 size) ∧
      code < 256 ^ (widths (wireFlags flags size)).1 ∧
      size < 256 ^ (widths (wireFlags flags size)).2 := by
  have hext : Flags.has flags Flags.extended = false := by simp [Flags.has, hflags]
  rw [header] at h
  split at h
  · next hl =>
    have hcompact : Flags.has flags Flags.compact = true ∧ size ≤ 255 := by
      simp only [Layout.for] at hl
      split at hl <;> simp_all
    have hw : widths (wireFlags flags size) = (1, 1) := by
      simp [wireFlags, hl, widths, hcompact, hext]
    split at h
    · cases h
    · cases h
      rw [hw]
      exact ⟨by simp [wireFlags, hl], by norm_num; omega, by norm_num; omega⟩
  · next hl =>
    have hcompact : Flags.has flags Flags.compact = true := by
      simp only [Layout.for] at hl
      split at hl <;> simp_all
    have hw : widths (wireFlags flags size) = (1, 2) := by
      simp [wireFlags, hl, widths, Flags.has_compact_or_extended, Flags.has_extended_or_extended,
        hcompact]
    split at h
    · cases h
    · split at h
      · cases h
      · cases h
        rw [hw]
        exact ⟨by simp [wireFlags, hl], by norm_num; omega, by norm_num; omega⟩
  · next hl =>
    have hcompact : Flags.has flags Flags.compact = false := by
      simp only [Layout.for] at hl
      split at hl
      · simp_all
      · split at hl <;> cases hl
    have hw : widths (wireFlags flags size) = (3, 4) := by simp [wireFlags, hl, widths, hcompact]
    split at h
    · cases h
    · split at h
      · cases h
      · cases h
        rw [hw]
        exact ⟨by simp [wireFlags, hl], by norm_num; omega, by norm_num; omega⟩

theorem of_wireFlags {a : Attribute} (h : a.flags &&& Flags.extended = 0) (size : Nat) :
    of (wireFlags a.flags size) a.value = a := by
  rw [wireFlags]
  split
  · exact of_extended h
  · exact of_flags h

/-- An attribute that can be written is read back, whichever layout it was written in. -/
theorem reads {a : Attribute} (h : a.Legible) {bs : Bytes} (hb : a.bytes = .ok bs) :
    reader.Reads bs a.rebuilt := by
  intro rest
  cases hh : header a.flags a.value.code a.value.bytes.length with
  | error f => simp [bytes, hh, Except.map] at hb
  | ok front =>
    obtain ⟨hfront, hcode, hsize⟩ := header_eq_ok h.flags hh
    have hbs : bs = front ++ a.value.bytes := by simpa [bytes, hh, Except.map, eq_comm] using hb
    have hread := read_fields hcode hsize rfl (AttributeValue.ofBytes_bytes h.value) rest
    have hof := of_wireFlags (a := a.rebuilt) h.flags a.value.bytes.length
    rw [← hfront, ← hbs] at hread
    exact hread.trans (congrArg (fun a => Except.ok (a, rest)) hof)

theorem ofBytes_listBytes_rebuilt {attrs : List Attribute} (h : ∀ a ∈ attrs, a.Legible)
    {bs : Bytes} (hb : listBytes attrs = .ok bs) : ofBytes bs = .ok (attrs.map rebuilt) := by
  induction attrs generalizing bs with
  | nil =>
    cases hb
    exact ItemReader.readAll_nil reader
  | cons a attrs ih =>
    obtain ⟨front, hfront, hb⟩ := Except.bind_eq_ok.1 hb
    obtain ⟨back, hback, hb⟩ := Except.bind_eq_ok.1 hb
    cases hb
    have ha := reads (h a (by simp)) hfront
    have hrest := ih (fun b hb => h b (by simp [hb])) hback
    rw [ofBytes] at hrest ⊢
    rw [ItemReader.readAll_append ha, hrest]
    rfl

theorem ofBytes_listBytes {attrs : List Attribute} (h : ∀ a ∈ attrs, a.WellFormed) {bs : Bytes}
    (hb : listBytes attrs = .ok bs) : ofBytes bs = .ok attrs := by
  have hmap : attrs.map rebuilt = attrs :=
    (List.map_congr_left fun a ha => (h a ha).rebuilt_eq).trans (List.map_id attrs)
  rw [ofBytes_listBytes_rebuilt (fun a ha => (h a ha).legible) hb, hmap]

end Attribute

end TagExchange
