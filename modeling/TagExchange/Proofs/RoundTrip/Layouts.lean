import TagExchange.Proofs.RoundTrip.Sizes

/-!
# Which layout is which on the wire

The layout of an attribute depends on its compact flag and on the length of its value, and the
reader finds it by the flags on the wire alone. The extended length flag is set there exactly for a
compact value beyond 255 bytes (`Attribute.writtenAs_of_bytes`). A list has a written form exactly
when type and length of each attribute go into the fields that its compact flag leaves for them, and
is read back from it (`Attribute.listBytes_exact`).
-/

namespace TagExchange

namespace Layout

variable {flags : UInt8} {n : Nat}

theorem for_eq_compactExtended_iff :
    Layout.for flags n = .compactExtended ↔ Flags.has flags Flags.compact = true ∧ 255 < n := by
  rw [Layout.for]
  cases Flags.has flags Flags.compact <;> by_cases hn : 255 < n <;> simp [hn]

end Layout

namespace Attribute

variable {a : Attribute} {part : Bytes}

/-- Type and length go into the fields that the compact flag leaves for them. -/
def Fits (a : Attribute) : Prop :=
  if Flags.has a.flags Flags.compact then a.value.code ≤ 255 ∧ a.value.bytes.length ≤ 65535
  else a.value.code < 2 ^ 24 ∧ a.value.bytes.length < 2 ^ 32

theorem fits_of_compact (h : Flags.has a.flags Flags.compact = true) :
    a.Fits ↔ a.value.code ≤ 255 ∧ a.value.bytes.length ≤ 65535 := by
  rw [Fits, if_pos h]

theorem fits_of_wide (h : Flags.has a.flags Flags.compact = false) :
    a.Fits ↔ a.value.code < 2 ^ 24 ∧ a.value.bytes.length < 2 ^ 32 := by
  simp [Fits, h]

theorem layout_fits_iff (a : Attribute) :
    a.layout.Fits a.value.code a.value.bytes.length ↔ a.Fits := by
  rw [layout, Layout.for]
  cases hcompact : Flags.has a.flags Flags.compact with
  | false =>
    rw [fits_of_wide hcompact]
    simp only [Bool.not_false, if_true, Layout.Fits]
    omega
  | true =>
    rw [fits_of_compact hcompact]
    by_cases hlong : 255 < a.value.bytes.length
    · simp only [Bool.not_true, Bool.false_eq_true, if_false, hlong, if_true, Layout.Fits]
      omega
    · simp only [Bool.not_true, Bool.false_eq_true, if_false, hlong, Layout.Fits]
      omega

/-- The bytes of an attribute: flags, then type and length in the widths that these flags give, then
the value. But for the extended length flag the flags are those of the attribute, and that one says
that a compact value is beyond 255 bytes. -/
def WrittenAs (a : Attribute) (part : Bytes) : Prop :=
  ∃ f, part = f :: (wordBytes (widths f).1 a.value.code ++
      wordBytes (widths f).2 a.value.bytes.length) ++ a.value.bytes ∧
    f &&& ~~~Flags.extended = a.flags ∧
    (Flags.has f Flags.extended = true ↔
      Flags.has a.flags Flags.compact = true ∧ 255 < a.value.bytes.length)

theorem wireFlags_clear (h : a.flags &&& Flags.extended = 0) (n : Nat) :
    wireFlags a.flags n &&& ~~~Flags.extended = a.flags :=
  congrArg Attribute.flags (of_wireFlags h n)

theorem has_extended_wireFlags {flags : UInt8} (h : flags &&& Flags.extended = 0) (n : Nat) :
    Flags.has (wireFlags flags n) Flags.extended = true ↔
      Flags.has flags Flags.compact = true ∧ 255 < n := by
  rw [← Layout.for_eq_compactExtended_iff, wireFlags]
  split
  · next hl => simp [hl, Flags.has_extended_or_extended]
  · next hl => simp [hl, Flags.has, h]

theorem writtenAs_of_bytes (h : a.flags &&& Flags.extended = 0) (hb : a.bytes = .ok part) :
    a.WrittenAs part := by
  obtain ⟨front, hfront, rfl⟩ := Except.map_eq_ok.1 hb
  obtain ⟨rfl, -, -⟩ := header_eq_ok h hfront
  exact ⟨_, rfl, wireFlags_clear h _, has_extended_wireFlags h _⟩

/-- A list is written attribute by attribute. -/
theorem exists_writtenAs {attrs : List Attribute} (h : ∀ a ∈ attrs, a.WellFormed) {bs : Bytes}
    (hb : listBytes attrs = .ok bs) :
    ∃ parts, bs = parts.flatten ∧ List.Forall₂ WrittenAs attrs parts := by
  induction attrs generalizing bs with
  | nil =>
    cases hb
    exact ⟨[], rfl, .nil⟩
  | cons a attrs ih =>
    obtain ⟨ha, hattrs⟩ := List.forall_mem_cons.1 h
    obtain ⟨front, back, hfront, hback, rfl⟩ := listBytes_cons.1 hb
    obtain ⟨parts, rfl, hparts⟩ := ih hattrs hback
    exact ⟨front :: parts, rfl, .cons (writtenAs_of_bytes ha.flags hfront) hparts⟩

/-- A list of well-formed attributes has a written form exactly when each of them fits. From that
form the same list is read, and in it every attribute stands in the layout of its own, the extended
length flag set for compact values beyond 255 bytes and for no other. -/
theorem listBytes_exact {attrs : List Attribute} (h : ∀ a ∈ attrs, a.WellFormed) :
    ((∃ bs, listBytes attrs = .ok bs) ↔ ∀ a ∈ attrs, a.Fits) ∧
      ∀ bs, listBytes attrs = .ok bs → ofBytes bs = .ok attrs ∧
        ∃ parts, bs = parts.flatten ∧ List.Forall₂ WrittenAs attrs parts := by
  refine ⟨?_, fun bs hb => ⟨ofBytes_listBytes h hb, exists_writtenAs h hb⟩⟩
  rw [exists_listBytes_iff]
  simp only [exists_bytes_iff, layout_fits_iff]

/-- A value on either side of 255 bytes, the widest type there is, and a value with its own form. -/
def layeredAttributes : List Attribute :=
  [.wellKnown (.raw 200 (List.replicate 255 7)), .wellKnown (.raw 201 (List.replicate 256 7)),
    .of Flags.optional (.raw 0xFFFFFF (List.replicate 256 7)),
    .wellKnown (.announce4 [⟨0x0A000000, 8⟩])]

theorem listBytes_exact_layered : (∀ a ∈ layeredAttributes, a.WellFormed) ∧
    ∃ bs, listBytes layeredAttributes = .ok bs ∧ ofBytes bs = .ok layeredAttributes := by
  have hwell : ∀ a ∈ layeredAttributes, a.WellFormed := by
    have hraw {code : Nat} (bytes : Bytes) (h : ∀ k ∈ AttributeKind.modelled, code ≠ k.code) :
        (AttributeValue.raw code bytes).WellFormed := h
    simp only [layeredAttributes, List.forall_mem_cons]
    refine ⟨wellFormed_of _ (hraw _ (by decide)), wellFormed_of _ (hraw _ (by decide)),
      wellFormed_of _ (hraw _ (by decide)), wellFormed_of _ ?_, by simp⟩
    intro n hn
    obtain rfl := List.mem_singleton.1 hn
    decide
  have hfits : ∀ a ∈ layeredAttributes, a.Fits := by
    have hflags : Flags.has (Flags.wellKnown &&& ~~~Flags.extended) Flags.compact = true := by
      decide
    have hcompact {code n : Nat} (h : code ≤ 255 ∧ n ≤ 65535) :
        (wellKnown (.raw code (List.replicate n 7))).Fits := by
      refine (fits_of_compact hflags).2 ?_
      simpa [wellKnown, of, AttributeValue.code, AttributeValue.bytes] using h
    have hwide : (of Flags.optional (.raw 0xFFFFFF (List.replicate 256 7))).Fits := by
      rw [fits_of_wide (by decide)]
      simp [of, AttributeValue.code, AttributeValue.bytes, -List.reduceReplicate]
    simp only [layeredAttributes, List.forall_mem_cons]
    exact ⟨hcompact (by decide), hcompact (by decide), hwide,
      (fits_of_compact hflags).2 (by decide), by simp⟩
  obtain ⟨hexact, hback⟩ := listBytes_exact hwell
  obtain ⟨bs, hbs⟩ := hexact.2 hfits
  exact ⟨hwell, bs, hbs, (hback bs hbs).1⟩

end Attribute

end TagExchange
