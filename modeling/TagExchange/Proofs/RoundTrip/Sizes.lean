import TagExchange.Proofs.RoundTrip.Messages

/-!
# How long the written forms are

What is written of a network, a hold time or an attribute has a length that can be told without
writing it (`Net.length_bytes`, `Attribute.size`). A list of attributes can be written exactly when
each of them can, and its length is the sum of theirs. A message has a frame when its payload leaves
room for the header.
-/

namespace TagExchange

/-- A network is a byte of length and the octets that the length covers. -/
theorem Net.length_bytes {w : Nat} (hw : w % 8 = 0) (n : Net w) :
    n.bytes.length = 1 + octetsFor (min n.length.toNat w) := by
  have hfit : octetsFor (min n.length.toNat w) ≤ w / 8 := by
    simp only [octetsFor]
    omega
  simp [bytes, Nat.min_eq_left hfit, Nat.add_comm]

theorem HoldTime.length_bytes (h : HoldTime) : h.bytes.length = if h.max = 0 then 2 else 4 := by
  by_cases hmax : h.max = 0 <;> simp [bytes, hmax]

namespace Layout

/-- The bytes that a layout puts before a value. -/
def headerSize : Layout → Nat
  | compact => 3
  | compactExtended => 4
  | wide => 8

/-- A layout has room for a type and for the length of a value. -/
def Fits : Layout → Nat → Nat → Prop
  | compact, code, _ => code ≤ 255
  | compactExtended, code, n => n ≤ 65535 ∧ code ≤ 255
  | wide, code, n => code ≤ 0xFFFFFF ∧ n ≤ 0xFFFFFFFF

end Layout

namespace Attribute

/-- The bytes of an attribute. -/
def size (a : Attribute) : Nat := a.layout.headerSize + a.value.bytes.length

theorem exists_header_iff {flags : UInt8} {code n : Nat} :
    (∃ front, header flags code n = .ok front) ↔ (Layout.for flags n).Fits code n := by
  rw [header]
  split <;> next hl =>
    rw [hl, Layout.Fits]
    split_ifs <;> simp <;> omega

theorem length_of_header {flags : UInt8} {code n : Nat} {front : Bytes}
    (h : header flags code n = .ok front) : front.length = (Layout.for flags n).headerSize := by
  rw [header] at h
  split at h <;> next hl =>
    rw [hl]
    split_ifs at h
    cases h
    simp [Layout.headerSize]

theorem exists_bytes_iff {a : Attribute} :
    (∃ bs, a.bytes = .ok bs) ↔ a.layout.Fits a.value.code a.value.bytes.length := by
  rw [layout, ← exists_header_iff]
  constructor
  · rintro ⟨bs, h⟩
    obtain ⟨front, hfront, -⟩ := Except.map_eq_ok.1 h
    exact ⟨front, hfront⟩
  · rintro ⟨front, hfront⟩
    exact ⟨_, Except.map_eq_ok.2 ⟨front, hfront, rfl⟩⟩

theorem length_of_bytes {a : Attribute} {bs : Bytes} (h : a.bytes = .ok bs) :
    bs.length = a.size := by
  obtain ⟨front, hfront, rfl⟩ := Except.map_eq_ok.1 h
  simp [size, layout, length_of_header hfront]

theorem listBytes_cons {a : Attribute} {attrs : List Attribute} {bs : Bytes} :
    listBytes (a :: attrs) = .ok bs ↔
      ∃ front back, a.bytes = .ok front ∧ listBytes attrs = .ok back ∧ bs = front ++ back := by
  constructor
  · intro h
    obtain ⟨front, hfront, h⟩ := Except.bind_eq_ok.1 h
    obtain ⟨back, hback, h⟩ := Except.bind_eq_ok.1 h
    cases h
    exact ⟨front, back, hfront, hback, rfl⟩
  · rintro ⟨front, back, hfront, hback, rfl⟩
    simp only [listBytes, hfront, hback]
    rfl

/-- The bytes of a list of attributes. -/
def listSize (attrs : List Attribute) : Nat := (attrs.map size).sum

@[simp] theorem listSize_nil : listSize [] = 0 := rfl

@[simp] theorem listSize_cons (a : Attribute) (attrs : List Attribute) :
    listSize (a :: attrs) = a.size + listSize attrs := rfl

@[simp] theorem listSize_append (attrs attrs' : List Attribute) :
    listSize (attrs ++ attrs') = listSize attrs + listSize attrs' := by
  simp [listSize]

theorem size_le_listSize {a : Attribute} {attrs : List Attribute} (h : a ∈ attrs) :
    a.size ≤ listSize attrs :=
  List.single_le_sum (by simp) _ (List.mem_map_of_mem h)

theorem length_of_listBytes {attrs : List Attribute} {bs : Bytes} (h : listBytes attrs = .ok bs) :
    bs.length = listSize attrs := by
  induction attrs generalizing bs with
  | nil =>
    cases h
    rfl
  | cons a attrs ih =>
    obtain ⟨front, back, hfront, hback, rfl⟩ := listBytes_cons.1 h
    simp [length_of_bytes hfront, ih hback]

theorem exists_listBytes_iff {attrs : List Attribute} :
    (∃ bs, listBytes attrs = .ok bs) ↔ ∀ a ∈ attrs, ∃ bs, a.bytes = .ok bs := by
  induction attrs with
  | nil => simp [listBytes]
  | cons a attrs ih =>
    rw [List.forall_mem_cons, ← ih]
    constructor
    · rintro ⟨bs, hbs⟩
      obtain ⟨front, back, hfront, hback, -⟩ := listBytes_cons.1 hbs
      exact ⟨⟨front, hfront⟩, back, hback⟩
    · rintro ⟨⟨front, hfront⟩, back, hback⟩
      exact ⟨_, listBytes_cons.2 ⟨front, back, hfront, hback, rfl⟩⟩

end Attribute

/-- A payload goes into a frame when it leaves room for the header. -/
theorem frame_of_le (type : MessageType) {payload : Bytes}
    (h : headerSize + payload.length ≤ messageLimit) :
    ∃ bs, frame type payload = .ok bs ∧ bs.length = headerSize + payload.length := by
  have hlow : ¬ headerSize + payload.length < headerSize := by omega
  have hhigh : ¬ messageLimit < headerSize + payload.length := by omega
  refine ⟨_, by rw [frame, Header.of?, if_neg hlow, if_neg hhigh]; rfl, ?_⟩
  simp only [Header.bytes, List.length_append, length_wordBytes, headerSize]

theorem exists_frame_iff {type : MessageType} {payload : Bytes} :
    (∃ bs, frame type payload = .ok bs) ↔ headerSize + payload.length ≤ messageLimit := by
  constructor
  · rintro ⟨bs, hframe⟩
    obtain ⟨hbytes, -, hlimit⟩ := frame_eq_ok hframe
    rw [hbytes] at hlimit
    simp only [List.length_append, length_wordBytes] at hlimit
    exact hlimit
  · intro h
    obtain ⟨bs, hframe, -⟩ := frame_of_le type h
    exact ⟨bs, hframe⟩

theorem kind_of_frame_error {type : MessageType} {payload : Bytes} {f : Fault}
    (h : frame type payload = .error f) : f.kind = .tooLarge := by
  have hlow : ¬ headerSize + payload.length < headerSize := by omega
  rw [frame, Header.of?, if_neg hlow] at h
  split at h <;> cases h
  rfl

namespace Message

variable {m : Message} {payload : Bytes}

theorem frame_of_payload (h : m.payload = .ok payload) :
    m.frame = TagExchange.frame m.type payload := by
  rw [frame, h]
  rfl

theorem frame_of_le (hpayload : m.payload = .ok payload)
    (h : headerSize + payload.length ≤ messageLimit) :
    ∃ bs, m.frame = .ok bs ∧ bs.length = headerSize + payload.length := by
  rw [frame_of_payload hpayload]
  exact TagExchange.frame_of_le m.type h

end Message

/-- A declared length lies between that of a bare header and the limit. -/
theorem frameLength_bounds {bs : Bytes} {n : Nat} (h : frameLength bs = .ok (some n)) :
    headerSize ≤ n ∧ n ≤ messageLimit := by
  simp only [frameLength] at h
  split at h
  · cases h
  · split at h
    · cases h
    · split at h
      · cases h
      · split at h
        · cases h
        · cases h
          omega

/-- What has a header is as long as it declares, and within the limit. -/
theorem Header.ofFrame_eq_ok {bs : Bytes} {h : Header} (hread : Header.ofFrame bs = .ok h) :
    h.length = bs.length ∧ headerSize ≤ bs.length ∧ bs.length ≤ messageLimit := by
  obtain ⟨declared, hlength, hread⟩ := Except.bind_eq_ok.1 hread
  cases declared with
  | none => cases hread
  | some n =>
    have hbounds := frameLength_bounds hlength
    dsimp only at hread
    split at hread
    · cases hread
    · next hsame =>
      have hn : n = bs.length := not_not.1 hsame
      split at hread
      · cases hread
      · cases hread
        exact ⟨hn, hn ▸ hbounds.1, hn ▸ hbounds.2⟩

end TagExchange
