import TagExchange.Proofs.RoundTrip.Respelling

/-!
# The grammar of mapping records

A payload is a list of records, each with an address of its family and parts that are whole
(`MappingRecord.Spelling`). By the grammar a tag takes two bytes and a length one, no tag is reserved,
no length goes beyond the family, and what adds has a tag. The reader departs from it in two ways
(`Message.ofPayload_grammar`): it takes values that are longer, of which it looks at the front, and it
compares a length with the one before it, so it refuses a record that says a longer one later.
-/

namespace TagExchange

theorem exists_readWord_iff {n v : Nat} {bs : Bytes} : (∃ rest, readWord n bs = .ok (v, rest)) ↔
    n ≤ bs.length ∧ word (bs.take n) = v := by
  constructor
  · rintro ⟨rest, h⟩
    obtain ⟨x, rfl, rfl, rfl⟩ := readWord_eq_ok.1 h
    simp
  · rintro ⟨hle, hword⟩
    exact ⟨bs.drop n, readWord_eq_ok.2
      ⟨bs.take n, (List.take_append_drop n bs).symm, List.length_take_of_le hle, hword⟩⟩

namespace ItemReader

variable {α σ ρ : Type} {r : ItemReader α}

theorem readAll_eq_ok_nil {bs : Bytes} : r.readAll bs = .ok [] ↔ bs = [] := by
  constructor
  · intro h
    by_contra hne
    rw [readAll, if_neg hne] at h
    split at h
    · cases h
    · split at h <;> cases h
  · rintro rfl
    exact readAll_nil r

theorem readAll_of_error {bs : Bytes} {f : Fault} (hne : bs ≠ []) (h : r.read bs = .error f) :
    r.readAll bs = .error f := by
  rw [readAll, if_neg hne]
  split
  · simp_all
  · simp_all

/-- Folding succeeds when all the items can be read and the fold over them succeeds. -/
theorem foldAll_eq_ok {step : σ → α → Except Fault σ} {s s' : σ} {bs : Bytes} :
    r.foldAll step s bs = .ok s' ↔ ∃ xs, r.readAll bs = .ok xs ∧ xs.foldlM step s = .ok s' := by
  fun_induction foldAll r step s bs with
  | case1 s => simp [pure, Except.pure]
  | case2 s bs hne f hread => simp [readAll_of_error hne hread]
  | case3 s bs hne x rest hread _ f hstep =>
    simp [readAll_of_read hread, Except.map_eq_ok, hstep, bind, Except.bind]
  | case4 s bs hne x rest hread _ s₁ hstep ih =>
    simp [readAll_of_read hread, Except.map_eq_ok, hstep, bind, Except.bind, ih]

/-- When an item is read where its bytes stand, a list is read where the bytes of its items stand. -/
theorem readAll_iff {write : ρ → Bytes} {Gives : ρ → α → Prop}
    (h : ∀ {bs x rest}, r.read bs = .ok (x, rest) ↔ ∃ y, bs = write y ++ rest ∧ Gives y x)
    {bs : Bytes} {xs : List α} :
    r.readAll bs = .ok xs ↔ ∃ ys, bs = ys.flatMap write ∧ List.Forall₂ Gives ys xs := by
  induction xs generalizing bs with
  | nil =>
    rw [readAll_eq_ok_nil]
    simp
  | cons x xs ih =>
    rw [readAll_eq_ok_cons]
    constructor
    · rintro ⟨rest, hx, hxs⟩
      obtain ⟨y, rfl, hy⟩ := h.1 hx
      obtain ⟨ys, rfl, hys⟩ := ih.1 hxs
      exact ⟨y :: ys, rfl, .cons hy hys⟩
    · rintro ⟨_, rfl, hall⟩
      obtain ⟨y, ys, hy, hys, rfl⟩ := List.forall₂_cons_right_iff.1 hall
      exact ⟨ys.flatMap write, h.2 ⟨y, rfl, hy⟩, ih.2 ⟨ys, rfl, hys⟩⟩

end ItemReader

/-- Items whose bytes say where they end can be told apart in a list. -/
theorem flatMap_inj {ρ : Type} {write : ρ → Bytes} {P : ρ → Prop} (hne : ∀ y, write y ≠ [])
    (hinj : ∀ {y z rest rest'}, P y → P z → write y ++ rest = write z ++ rest' →
      y = z ∧ rest = rest')
    {ys zs : List ρ} (hys : ∀ y ∈ ys, P y) (hzs : ∀ z ∈ zs, P z)
    (h : ys.flatMap write = zs.flatMap write) : ys = zs := by
  induction ys generalizing zs with
  | nil =>
    cases zs with
    | nil => rfl
    | cons z zs => exact absurd (List.append_eq_nil_iff.1 h.symm).1 (hne z)
  | cons y ys ih =>
    cases zs with
    | nil => exact absurd (List.append_eq_nil_iff.1 h).1 (hne y)
    | cons z zs =>
      obtain ⟨hy, hys⟩ := List.forall_mem_cons.1 hys
      obtain ⟨hz, hzs⟩ := List.forall_mem_cons.1 hzs
      obtain ⟨hfirst, hrest⟩ := hinj hy hz h
      rw [hfirst, ih hys hzs hrest]

theorem filterMap_of_forall₂ {α β γ : Type} {R : α → β → Prop} {f : α → Option γ}
    {g : β → Option γ} {xs : List α} {ys : List β} (h : List.Forall₂ R xs ys)
    (hfg : ∀ {x y}, R x y → f x = g y) : xs.filterMap f = ys.filterMap g := by
  induction h with
  | nil => rfl
  | cons hxy _ ih => rw [List.filterMap_cons, List.filterMap_cons, hfg hxy, ih]

theorem Tag.toNat_injective : Function.Injective fun t : Tag => t.value.toNat := by
  rintro ⟨v, hv⟩ ⟨v', hv'⟩ h
  obtain rfl : v = v' := UInt16.toNat_inj.1 h
  rfl

theorem Tag.exists_toNat_eq {n : Nat} (h : 2 ≤ n ∧ n ≤ 65519) : ∃ t : Tag, n = t.value.toNat :=
  ⟨_, of?_eq_ok_iff.1 (dif_pos h)⟩

namespace MappingPart

variable {value : Bytes} {p : MappingPart}

theorem tagCode_ne_lengthCode : tagCode ≠ lengthCode := by decide

theorem ofValue_tag : ofValue tagCode value = .ok p ↔
    ∃ t, p = tag t ∧ 2 ≤ value.length ∧ word (value.take 2) = t.value.toNat := by
  rw [ofValue, if_pos rfl]
  constructor
  · intro h
    obtain ⟨⟨v, rest⟩, hv, h⟩ := Except.bind_eq_ok.1 h
    obtain ⟨t, ht, h⟩ := Except.bind_eq_ok.1 h
    cases h
    obtain ⟨hlength, hword⟩ := exists_readWord_iff.1 ⟨rest, hv⟩
    exact ⟨t, rfl, hlength, hword.trans (Tag.of?_eq_ok_iff.1 ht)⟩
  · rintro ⟨t, rfl, hread⟩
    obtain ⟨rest, hv⟩ := exists_readWord_iff.2 hread
    simp only [hv, bind, Except.bind, Tag.of?_value, pure, Except.pure]

theorem ofValue_length : ofValue lengthCode value = .ok p ↔
    ∃ bits, p = length bits ∧ 1 ≤ value.length ∧ word (value.take 1) = bits := by
  rw [ofValue, if_neg tagCode_ne_lengthCode.symm, if_pos rfl]
  constructor
  · intro h
    obtain ⟨⟨v, rest⟩, hv, h⟩ := Except.bind_eq_ok.1 h
    cases h
    exact ⟨v, rfl, exists_readWord_iff.1 ⟨rest, hv⟩⟩
  · rintro ⟨bits, rfl, hread⟩
    obtain ⟨rest, hv⟩ := exists_readWord_iff.2 hread
    simp only [hv, bind, Except.bind, pure, Except.pure]

end MappingPart

/-- A code and a value, as records and their parts have them on the wire. -/
structure Field where
  code : Nat
  value : Bytes
  deriving DecidableEq, Repr

namespace Field

def bytes (f : Field) : Bytes := MappingPart.bytesOf f.code f.value

/-- The code and the size of the value fit into their words. -/
@[mk_iff] structure Framed (f : Field) : Prop where
  code_lt : f.code < 256 ^ 4
  length_lt : f.value.length < 256 ^ 4

variable {f g : Field} {bs rest rest' : Bytes}

/-- Reading a code, a size and as many bytes is reading a field. -/
theorem read_iff : (∃ bs₁, readWord 4 bs = .ok (f.code, bs₁) ∧
      ∃ size bs₂, readWord 4 bs₁ = .ok (size, bs₂) ∧ readBytes size bs₂ = .ok (f.value, rest)) ↔
    bs = f.bytes ++ rest ∧ f.Framed := by
  constructor
  · rintro ⟨bs₁, hcode, size, bs₂, hsize, hvalue⟩
    have hword (x : Bytes) (hx : x.length = 4) : word x < 256 ^ 4 ∧ wordBytes 4 (word x) = x := by
      rw [← hx]
      exact ⟨word_lt x, wordBytes_word x⟩
    obtain ⟨x, hbs, hx, hxcode⟩ := readWord_eq_ok.1 hcode
    obtain ⟨y, hbs₁, hy, hysize⟩ := readWord_eq_ok.1 hsize
    obtain ⟨hbs₂, hlength⟩ := readBytes_eq_ok.1 hvalue
    obtain ⟨hxlt, hxback⟩ := hword x hx
    obtain ⟨hylt, hyback⟩ := hword y hy
    rw [← hysize] at hlength
    refine ⟨?_, hxcode ▸ hxlt, hlength ▸ hylt⟩
    rw [bytes, MappingPart.bytesOf, hlength, ← hxcode, hxback, hyback, List.append_assoc,
      List.append_assoc, hbs, hbs₁, hbs₂]
  · rintro ⟨rfl, hcode, hlength⟩
    refine ⟨_, ?_, _, _, readWord_wordBytes_of_lt hlength (f.value ++ rest), readBytes_append rfl _⟩
    rw [bytes, MappingPart.bytesOf, List.append_assoc, List.append_assoc]
    exact readWord_wordBytes_of_lt hcode _

/-- The bytes of a field say where it ends. -/
theorem bytes_append_inj (hf : f.Framed) (hg : g.Framed)
    (h : f.bytes ++ rest = g.bytes ++ rest') : f = g ∧ rest = rest' := by
  obtain ⟨bs₁, hcode, size, bs₂, hsize, hvalue⟩ := read_iff.2 ⟨rfl, hf⟩
  obtain ⟨bs₁', hcode', size', bs₂', hsize', hvalue'⟩ := read_iff.2 ⟨rfl, hg⟩
  rw [h] at hcode
  obtain ⟨hc, rfl⟩ : f.code = g.code ∧ bs₁ = bs₁' := by simpa using hcode.symm.trans hcode'
  obtain ⟨rfl, rfl⟩ : size = size' ∧ bs₂ = bs₂' := by simpa using hsize.symm.trans hsize'
  obtain ⟨hv, rfl⟩ : f.value = g.value ∧ rest = rest' := by
    simpa using hvalue.symm.trans hvalue'
  refine ⟨?_, rfl⟩
  cases f
  cases g
  simp_all

theorem bytes_ne_nil (f : Field) : f.bytes ≠ [] := by
  simp [bytes, MappingPart.bytesOf, wordBytes]

open MappingPart (tagCode lengthCode tagCode_ne_lengthCode)

/-- What the reader of parts makes of a field. -/
def Gives (f : Field) : MappingPart → Prop
  | .tag t => f.code = tagCode ∧ 2 ≤ f.value.length ∧ word (f.value.take 2) = t.value.toNat
  | .length bits => f.code = lengthCode ∧ 1 ≤ f.value.length ∧ word (f.value.take 1) = bits
  | .other => f.code ≠ tagCode ∧ f.code ≠ lengthCode

theorem ofValue_eq_ok {p : MappingPart} :
    MappingPart.ofValue f.code f.value = .ok p ↔ f.Gives p := by
  by_cases htag : f.code = tagCode
  · rw [htag, MappingPart.ofValue_tag]
    cases p <;> simp [Gives, htag, tagCode_ne_lengthCode]
  · by_cases hlength : f.code = lengthCode
    · rw [hlength, MappingPart.ofValue_length]
      cases p <;> simp [Gives, hlength, tagCode_ne_lengthCode.symm, and_comm, eq_comm]
    · rw [MappingPart.ofValue, if_neg htag, if_neg hlength]
      cases p <;> simp [Gives, htag, hlength, pure, Except.pure]

theorem read_part_iff {p : MappingPart} : MappingPart.reader.read bs = .ok (p, rest) ↔
    ∃ f : Field, bs = f.bytes ++ rest ∧ f.Framed ∧ f.Gives p := by
  constructor
  · intro h
    obtain ⟨⟨code, bs₁⟩, hcode, h⟩ := Except.bind_eq_ok.1 h
    obtain ⟨⟨size, bs₂⟩, hsize, h⟩ := Except.bind_eq_ok.1 h
    obtain ⟨⟨value, rest'⟩, hvalue, h⟩ := Except.bind_eq_ok.1 h
    obtain ⟨p', hp, h⟩ := Except.bind_eq_ok.1 h
    cases h
    let f : Field := ⟨code, value⟩
    obtain ⟨hbs, hframed⟩ := (read_iff (f := f)).1 ⟨bs₁, hcode, size, bs₂, hsize, hvalue⟩
    exact ⟨f, hbs, hframed, (ofValue_eq_ok (f := f)).1 hp⟩
  · rintro ⟨f, hbs, hframed, hp⟩
    obtain ⟨bs₁, hcode, size, bs₂, hsize, hvalue⟩ := read_iff.2 ⟨hbs, hframed⟩
    refine Except.bind_eq_ok.2 ⟨_, hcode, Except.bind_eq_ok.2 ⟨_, hsize, ?_⟩⟩
    exact Except.bind_eq_ok.2 ⟨_, hvalue, Except.bind_eq_ok.2 ⟨p, ofValue_eq_ok.2 hp, rfl⟩⟩

/-- A part by the grammar: a tag has two bytes and is not reserved, a length one byte and is within
the width. -/
@[mk_iff] structure Grammatical (width : Nat) (f : Field) : Prop where
  framed : f.Framed
  tag : f.code = tagCode → f.value.length = 2 ∧ 2 ≤ word f.value ∧ word f.value ≤ 65519
  length : f.code = lengthCode → f.value.length = 1 ∧ word f.value ≤ width

/-- The same of the front of the value, which may be longer. -/
@[mk_iff] structure Legible (width : Nat) (f : Field) : Prop where
  framed : f.Framed
  tag : f.code = tagCode → 2 ≤ f.value.length ∧ 2 ≤ word (f.value.take 2) ∧
    word (f.value.take 2) ≤ 65519
  length : f.code = lengthCode → 1 ≤ f.value.length ∧ word (f.value.take 1) ≤ width

/-- No value is longer than it has to be. -/
@[mk_iff] structure Exact (f : Field) : Prop where
  tag : f.code = tagCode → f.value.length = 2
  length : f.code = lengthCode → f.value.length = 1

instance (f : Field) : Decidable f.Framed := decidable_of_iff _ (framed_iff f).symm

instance (width : Nat) (f : Field) : Decidable (f.Grammatical width) :=
  decidable_of_iff _ (grammatical_iff width f).symm

instance (width : Nat) (f : Field) : Decidable (f.Legible width) :=
  decidable_of_iff _ (legible_iff width f).symm

instance (f : Field) : Decidable f.Exact := decidable_of_iff _ (exact_iff f).symm

theorem grammatical_iff_legible {width : Nat} : f.Grammatical width ↔ f.Legible width ∧ f.Exact := by
  have hfront {n : Nat} (h : f.value.length = n) : f.value.take n = f.value :=
    List.take_of_length_le h.le
  constructor
  · intro h
    refine ⟨⟨h.framed, fun hcode => ?_, fun hcode => ?_⟩, fun hcode => (h.tag hcode).1,
      fun hcode => (h.length hcode).1⟩
    · obtain ⟨hlength, hrange⟩ := h.tag hcode
      exact ⟨hlength.ge, by rwa [hfront hlength]⟩
    · obtain ⟨hlength, hle⟩ := h.length hcode
      exact ⟨hlength.ge, by rwa [hfront hlength]⟩
  · rintro ⟨h, hexact⟩
    refine ⟨h.framed, fun hcode => ⟨hexact.tag hcode, ?_⟩, fun hcode => ⟨hexact.length hcode, ?_⟩⟩
    · have hrange := (h.tag hcode).2
      rwa [hfront (hexact.tag hcode)] at hrange
    · have hle := (h.length hcode).2
      rwa [hfront (hexact.length hcode)] at hle

theorem Legible.exists_gives {width : Nat} (h : f.Legible width) : ∃ p, f.Gives p := by
  by_cases htag : f.code = tagCode
  · obtain ⟨hlength, hrange⟩ := h.tag htag
    obtain ⟨t, ht⟩ := Tag.exists_toNat_eq hrange
    exact ⟨.tag t, htag, hlength, ht⟩
  · by_cases hlength : f.code = lengthCode
    · exact ⟨.length _, hlength, (h.length hlength).1, rfl⟩
    · exact ⟨.other, htag, hlength⟩

/-- The tag that a part says, if it is one. -/
def tag? (f : Field) : Option Nat :=
  if f.code = tagCode then some (word (f.value.take 2)) else none

/-- The length that a part says, if it is one. -/
def length? (f : Field) : Option Nat :=
  if f.code = lengthCode then some (word (f.value.take 1)) else none

theorem tag?_eq_some {n : Nat} :
    f.tag? = some n ↔ f.code = tagCode ∧ word (f.value.take 2) = n := by
  simp [tag?]

theorem length?_eq_some {bits : Nat} :
    f.length? = some bits ↔ f.code = lengthCode ∧ word (f.value.take 1) = bits := by
  simp [length?]

theorem tag?_eq_none : f.tag? = none ↔ f.code ≠ tagCode := by
  simp [tag?]

end Field

namespace MappingPart

def tag? : MappingPart → Option Tag
  | tag t => some t
  | _ => none

def length? : MappingPart → Option Nat
  | length bits => some bits
  | _ => none

/-- Each length is compared with the one before it. What is left are the last ones. -/
theorem foldlM_add_eq_ok {ps : List MappingPart} {s s' : Summary} :
    ps.foldlM Summary.add s = .ok s' ↔ (s.bits :: ps.filterMap length?).IsChain (· ≥ ·) ∧
      s'.bits = (ps.filterMap length?).getLast?.getD s.bits ∧
      s'.tag = (ps.filterMap tag?).getLast?.or s.tag := by
  induction ps generalizing s with
  | nil =>
    cases s
    cases s'
    simp [pure, Except.pure, eq_comm, and_comm]
  | cons p ps ih =>
    rw [List.foldlM_cons]
    cases p with
    | tag t =>
      show ps.foldlM Summary.add { s with tag := some t } = .ok s' ↔ _
      rw [ih]
      have hlast (o : Option Tag) : (some (o.getD t)).or s.tag = o.or (some t) := by
        cases o <;> rfl
      simp only [List.filterMap_cons, length?, tag?, List.getLast?_cons, hlast]
    | length bits =>
      have hstep : Summary.add s (.length bits) =
        if s.bits < bits then .error (.addressLength bits s.bits) else .ok { s with bits } := rfl
      by_cases hlt : s.bits < bits
      · have hnot : ¬ s.bits ≥ bits := by omega
        simp [hstep, hlt, length?, hnot, bind, Except.bind]
      · have hge : s.bits ≥ bits := by omega
        rw [hstep, if_neg hlt]
        show ps.foldlM Summary.add { s with bits } = .ok s' ↔ _
        rw [ih]
        simp [length?, tag?, hge, List.getLast?_cons]
    | other => exact ih

end MappingPart

namespace Field

open MappingPart (tagCode lengthCode tagCode_ne_lengthCode)

variable {f : Field} {p : MappingPart} {fs : List Field} {ps : List MappingPart} {width : Nat}

theorem Gives.legible (h : f.Gives p) (hframed : f.Framed)
    (hle : f.code = lengthCode → word (f.value.take 1) ≤ width) : f.Legible width := by
  refine ⟨hframed, fun htag => ?_, fun hlength => ⟨?_, hle hlength⟩⟩
  · cases p with
    | tag t => exact ⟨h.2.1, h.2.2 ▸ t.inRange⟩
    | length bits => exact absurd (htag.symm.trans h.1) tagCode_ne_lengthCode
    | other => exact absurd htag h.1
  · cases p with
    | tag t => exact absurd (h.1.symm.trans hlength) tagCode_ne_lengthCode
    | length bits => exact h.2.1
    | other => exact absurd hlength h.2

theorem Gives.tag? (h : f.Gives p) : f.tag? = p.tag?.map fun t => t.value.toNat := by
  cases p with
  | tag t => rw [Field.tag?, if_pos h.1, h.2.2]; rfl
  | length bits => exact if_neg fun htag => tagCode_ne_lengthCode (htag.symm.trans h.1)
  | other => exact if_neg h.1

theorem Gives.length? (h : f.Gives p) : f.length? = p.length? := by
  cases p with
  | tag t => exact if_neg fun hlength => tagCode_ne_lengthCode (h.1.symm.trans hlength)
  | length bits => rw [Field.length?, if_pos h.1, h.2.2]; rfl
  | other => exact if_neg h.2

/-- What the parts of a record add up to. -/
theorem foldAll_parts_iff {s : MappingPart.Summary} {bs : Bytes} :
    MappingPart.reader.foldAll MappingPart.Summary.add { bits := width } bs = .ok s ↔
      ∃ fs : List Field, bs = fs.flatMap bytes ∧ (∀ f ∈ fs, f.Legible width) ∧
        (fs.filterMap Field.length?).Pairwise (· ≥ ·) ∧
        s.bits = (fs.filterMap Field.length?).getLast?.getD width ∧
        s.tag.map (fun t => t.value.toNat) = (fs.filterMap Field.tag?).getLast? := by
  have hparts (ps : List MappingPart) : MappingPart.reader.readAll bs = .ok ps ↔
      ∃ fs, bs = fs.flatMap bytes ∧ List.Forall₂ (fun f p => Framed f ∧ f.Gives p) fs ps :=
    ItemReader.readAll_iff read_part_iff
  have hlengths {fs : List Field} {ps : List MappingPart}
      (h : List.Forall₂ (fun f p => Framed f ∧ f.Gives p) fs ps) :
      fs.filterMap Field.length? = ps.filterMap MappingPart.length? :=
    filterMap_of_forall₂ h fun hp => hp.2.length?
  have htags {fs : List Field} {ps : List MappingPart}
      (h : List.Forall₂ (fun f p => Framed f ∧ f.Gives p) fs ps) :
      (fs.filterMap Field.tag?).getLast? =
        (ps.filterMap MappingPart.tag?).getLast?.map fun t => t.value.toNat := by
    rw [filterMap_of_forall₂ h fun hp => hp.2.tag?, ← List.map_filterMap, List.getLast?_map]
  rw [ItemReader.foldAll_eq_ok]
  simp only [hparts, MappingPart.foldlM_add_eq_ok, List.isChain_iff_pairwise, List.pairwise_cons,
    Option.or_none]
  constructor
  · rintro ⟨ps, ⟨fs, hbs, hgives⟩, ⟨hwithin, hnarrowing⟩, hbits, htag⟩
    rw [← hlengths hgives] at hwithin hnarrowing hbits
    refine ⟨fs, hbs, fun f hf => ?_, hnarrowing, hbits, ?_⟩
    · obtain ⟨p, -, hframed, hp⟩ := exists_of_mem_left hgives hf
      exact hp.legible hframed fun hlength =>
        hwithin _ (List.mem_filterMap.2 ⟨f, hf, length?_eq_some.2 ⟨hlength, rfl⟩⟩)
    · rw [htags hgives, htag]
  · rintro ⟨fs, hbs, hlegible, hnarrowing, hbits, htag⟩
    obtain ⟨ps, hgives⟩ : ∃ ps, List.Forall₂ (fun f p => Framed f ∧ f.Gives p) fs ps :=
      exists_forall₂ fun f hf =>
        (hlegible f hf).exists_gives.imp fun _ hp => ⟨(hlegible f hf).framed, hp⟩
    have hwithin : ∀ bits ∈ fs.filterMap Field.length?, width ≥ bits := by
      intro bits hbits
      obtain ⟨f, hf, hlength⟩ := List.mem_filterMap.1 hbits
      obtain ⟨hcode, rfl⟩ := length?_eq_some.1 hlength
      exact ((hlegible f hf).length hcode).2
    rw [htags hgives] at htag
    rw [hlengths hgives] at hwithin hnarrowing hbits
    exact ⟨ps, ⟨fs, hbs, hgives⟩, ⟨hwithin, hnarrowing⟩, hbits,
      Option.map_injective Tag.toNat_injective htag⟩

end Field

theorem MappingType.ofCode?_eq_some {n : Nat} {t : MappingType} (h : ofCode? n = some t) :
    n = t.code := by
  unfold ofCode? at h
  split at h <;> cases h <;> rfl

namespace MappingRecord

open MappingPart (tagCode)

/-- A record as it stands on the wire. -/
structure Spelling where
  type : MappingType
  address : Bytes
  parts : List Field
  deriving DecidableEq, Repr

namespace Spelling

variable {s t : Spelling} {r : MappingRecord} {bs rest rest' : Bytes}

def body (s : Spelling) : Bytes := s.address ++ s.parts.flatMap Field.bytes

def field (s : Spelling) : Field := ⟨s.type.code, s.body⟩

def bytes (s : Spelling) : Bytes := s.field.bytes

def lengths (s : Spelling) : List Nat := s.parts.filterMap Field.length?

def tags (s : Spelling) : List Nat := s.parts.filterMap Field.tag?

/-- One address of the family, and parts of a kind; what adds has a tag. -/
@[mk_iff] structure Made (part : Field → Prop) (s : Spelling) : Prop where
  address : s.address.length = s.type.width / 8
  body_lt : s.body.length < 256 ^ 4
  parts : ∀ f ∈ s.parts, part f
  tagged : s.type.isAdd = true → ∃ f ∈ s.parts, f.code = tagCode

/-- A record by the grammar. -/
def Grammatical (s : Spelling) : Prop := s.Made (Field.Grammatical s.type.width)

/-- No length is above one before it. -/
def Narrowing (s : Spelling) : Prop := s.lengths.Pairwise (· ≥ ·)

/-- A record that the reader takes. -/
@[mk_iff] structure Accepted (s : Spelling) : Prop where
  made : s.Made (Field.Legible s.type.width)
  narrowing : s.Narrowing

/-- No value in a record is longer than it has to be. -/
def Exact (s : Spelling) : Prop := ∀ f ∈ s.parts, f.Exact

/-- What a record says: its address up to the last length, which is that of the family if there is
none, and the last tag. -/
@[mk_iff] structure Says (s : Spelling) (r : MappingRecord) : Prop where
  type : r.type = s.type
  net : r.net = .of (s.type.address s.address)
    (UInt8.ofNat (s.lengths.getLast?.getD s.type.width))
  tag : r.tag.map (fun t => t.value.toNat) = s.tags.getLast?

instance (part : Field → Prop) [DecidablePred part] (s : Spelling) : Decidable (s.Made part) :=
  decidable_of_iff _ (made_iff part s).symm

instance (s : Spelling) : Decidable s.Grammatical :=
  inferInstanceAs (Decidable (s.Made (Field.Grammatical s.type.width)))

instance (s : Spelling) : Decidable s.Narrowing :=
  inferInstanceAs (Decidable (s.lengths.Pairwise (· ≥ ·)))

instance (s : Spelling) : Decidable s.Accepted := decidable_of_iff _ (accepted_iff s).symm

instance (s : Spelling) (r : MappingRecord) : Decidable (s.Says r) :=
  decidable_of_iff _ (says_iff s r).symm

theorem tags_eq_nil_iff : s.tags = [] ↔ ∀ f ∈ s.parts, f.code ≠ tagCode := by
  simp only [tags, List.filterMap_eq_nil_iff, Field.tag?_eq_none]

/-- What is said has a tag exactly when there is a part with one. -/
theorem Says.tag_eq_none_iff (h : s.Says r) : r.tag = none ↔ ∀ f ∈ s.parts, f.code ≠ tagCode := by
  rw [← tags_eq_nil_iff, ← List.getLast?_eq_none_iff, ← h.tag, Option.map_eq_none_iff]

theorem grammatical_iff_made :
    s.Grammatical ↔ s.Made (Field.Legible s.type.width) ∧ s.Exact := by
  constructor
  · intro h
    have hparts (f : Field) (hf : f ∈ s.parts) := Field.grammatical_iff_legible.1 (h.parts f hf)
    exact ⟨⟨h.address, h.body_lt, fun f hf => (hparts f hf).1, h.tagged⟩,
      fun f hf => (hparts f hf).2⟩
  · rintro ⟨h, hexact⟩
    exact ⟨h.address, h.body_lt,
      fun f hf => Field.grammatical_iff_legible.2 ⟨h.parts f hf, hexact f hf⟩, h.tagged⟩

theorem Made.framed {width : Nat} (h : s.Made (Field.Legible width)) : s.field.Framed := by
  refine ⟨?_, h.body_lt⟩
  show s.type.code < 256 ^ 4
  cases s.type <;> decide

/-- The bytes of a record say what it is made of. -/
theorem bytes_append_inj (hs : s.Made (Field.Legible s.type.width))
    (ht : t.Made (Field.Legible t.type.width)) (h : s.bytes ++ rest = t.bytes ++ rest') :
    s = t ∧ rest = rest' := by
  obtain ⟨hfield, hrest⟩ := Field.bytes_append_inj hs.framed ht.framed h
  have hcode : s.type.code = t.type.code := congrArg Field.code hfield
  have htype : s.type = t.type := by
    have hof := congrArg MappingType.ofCode? hcode
    simpa using hof
  have hbody : s.body = t.body := congrArg Field.value hfield
  have hlength : s.address.length = t.address.length := by
    rw [hs.address, ht.address, htype]
  obtain ⟨haddress, hparts⟩ := List.append_inj hbody hlength
  have hfields : s.parts = t.parts :=
    flatMap_inj Field.bytes_ne_nil Field.bytes_append_inj (fun f hf => (hs.parts f hf).framed)
      (fun f hf => (ht.parts f hf).framed) hparts
  refine ⟨?_, hrest⟩
  cases s
  cases t
  simp_all

/-- A body is read when it is that of a record that the reader takes. -/
theorem ofBody_eq_ok {type : MappingType} {body : Bytes} (hlt : body.length < 256 ^ 4) :
    ofBody type body = .ok r ↔ ∃ s : Spelling, s.type = type ∧ s.body = body ∧ s.Accepted ∧
      s.Says r := by
  constructor
  · intro h
    rw [ofBody] at h
    split at h
    · cases h
    · obtain ⟨⟨front, parts⟩, hfront, h⟩ := Except.bind_eq_ok.1 h
      obtain ⟨sum, hsum, h⟩ := Except.bind_eq_ok.1 h
      split at h
      · cases h
      · next htagged =>
        cases h
        obtain ⟨rfl, hlength⟩ := readBytes_eq_ok.1 hfront
        obtain ⟨fs, rfl, hlegible, hnarrowing, hbits, htag⟩ := Field.foldAll_parts_iff.1 hsum
        have hsaid : Says ⟨type, front, fs⟩
            ⟨type, .of (type.address front) (UInt8.ofNat sum.bits), sum.tag⟩ :=
          ⟨rfl, by rw [hbits]; rfl, htag⟩
        refine ⟨⟨type, front, fs⟩, rfl, rfl, ⟨⟨hlength, hlt, hlegible, fun hadd => ?_⟩,
          hnarrowing⟩, hsaid⟩
        by_contra hnone
        push Not at hnone
        exact htagged ⟨hadd, hsaid.tag_eq_none_iff.2 hnone⟩
  · rintro ⟨s, rfl, rfl, h, hsaid⟩
    have hnot : ¬ s.body.length < s.type.width / 8 := by simp [body, h.made.address]
    have hsum : MappingPart.reader.foldAll MappingPart.Summary.add { bits := s.type.width }
        (s.parts.flatMap Field.bytes) = .ok ⟨r.tag, s.lengths.getLast?.getD s.type.width⟩ :=
      Field.foldAll_parts_iff.2 ⟨s.parts, rfl, h.made.parts, h.narrowing, rfl, hsaid.tag⟩
    have htagged : ¬ (s.type.isAdd = true ∧ r.tag = none) := by
      rintro ⟨hadd, hnone⟩
      obtain ⟨f, hf, hcode⟩ := h.made.tagged hadd
      exact hsaid.tag_eq_none_iff.1 hnone f hf hcode
    rw [ofBody, if_neg hnot]
    refine Except.bind_eq_ok.2 ⟨_, readBytes_append h.made.address _, ?_⟩
    refine Except.bind_eq_ok.2 ⟨_, hsum, ?_⟩
    rw [if_neg htagged]
    dsimp only
    rw [← hsaid.net, ← hsaid.type]
    rfl

theorem read_iff : MappingRecord.reader.read bs = .ok (r, rest) ↔
    ∃ s : Spelling, bs = s.bytes ++ rest ∧ s.Accepted ∧ s.Says r := by
  constructor
  · intro h
    obtain ⟨⟨code, bs₁⟩, hcode, h⟩ := Except.bind_eq_ok.1 h
    dsimp only at h
    split at h
    · cases h
    · next type htype =>
      obtain ⟨⟨size, bs₂⟩, hsize, h⟩ := Except.bind_eq_ok.1 h
      obtain ⟨⟨body, rest'⟩, hbody, h⟩ := Except.bind_eq_ok.1 h
      obtain ⟨r', hr, h⟩ := Except.bind_eq_ok.1 h
      cases h
      let f : Field := ⟨code, body⟩
      obtain ⟨hbs, hframed⟩ := (Field.read_iff (f := f)).1 ⟨bs₁, hcode, size, bs₂, hsize, hbody⟩
      obtain ⟨s, rfl, hspelt, haccepted, hsaid⟩ := (ofBody_eq_ok hframed.length_lt).1 hr
      refine ⟨s, ?_, haccepted, hsaid⟩
      rw [hbs, bytes, field, hspelt, ← MappingType.ofCode?_eq_some htype]
  · rintro ⟨s, hbs, haccepted, hsaid⟩
    obtain ⟨bs₁, hcode, size, bs₂, hsize, hbody⟩ :=
      Field.read_iff.2 ⟨hbs, haccepted.made.framed⟩
    have hr : ofBody s.type s.body = .ok r :=
      (ofBody_eq_ok haccepted.made.body_lt).2 ⟨s, rfl, rfl, haccepted, hsaid⟩
    refine Except.bind_eq_ok.2 ⟨_, hcode, ?_⟩
    have htype : MappingType.ofCode? s.field.code = some s.type := MappingType.ofCode?_code s.type
    dsimp only
    rw [htype]
    refine Except.bind_eq_ok.2 ⟨_, hsize, Except.bind_eq_ok.2 ⟨_, hbody, ?_⟩⟩
    exact Except.bind_eq_ok.2 ⟨r, hr, rfl⟩

theorem Accepted.exists_record (h : s.Accepted) : ∃ r, s.Says r := by
  cases hlast : s.tags.getLast? with
  | none => exact ⟨⟨s.type, _, none⟩, rfl, rfl, hlast.symm⟩
  | some n =>
    obtain ⟨f, hf, htag⟩ := List.mem_filterMap.1 (List.mem_of_getLast? hlast)
    obtain ⟨hcode, rfl⟩ := Field.tag?_eq_some.1 htag
    obtain ⟨t, ht⟩ := Tag.exists_toNat_eq ((h.made.parts f hf).tag hcode).2
    exact ⟨⟨s.type, _, some t⟩, rfl, rfl, by rw [hlast, ht]; rfl⟩

/-- The grammar can be read in one way only. -/
theorem flatMap_bytes_inj {ss ts : List Spelling}
    (hss : ∀ s ∈ ss, s.Made (Field.Legible s.type.width))
    (hts : ∀ t ∈ ts, t.Made (Field.Legible t.type.width))
    (h : ss.flatMap bytes = ts.flatMap bytes) : ss = ts :=
  flatMap_inj (fun s => s.field.bytes_ne_nil) bytes_append_inj hss hts h

/-- What the reader takes is of the grammar when no value in it is longer than it has to be. -/
theorem exists_grammatical_iff {ss : List Spelling} (h : ∀ s ∈ ss, s.Accepted) :
    (∃ ts : List Spelling, ts.flatMap bytes = ss.flatMap bytes ∧ ∀ t ∈ ts, t.Grammatical) ↔
      ∀ s ∈ ss, s.Exact := by
  constructor
  · rintro ⟨ts, hsame, hts⟩
    obtain rfl : ts = ss := flatMap_bytes_inj (fun t ht => (grammatical_iff_made.1 (hts t ht)).1)
      (fun s hs => (h s hs).made) hsame
    exact fun s hs => (grammatical_iff_made.1 (hts s hs)).2
  · exact fun hexact =>
      ⟨ss, rfl, fun s hs => grammatical_iff_made.2 ⟨(h s hs).made, hexact s hs⟩⟩

end Spelling

end MappingRecord

namespace Message

open MappingRecord (Spelling)

variable {v : Version}

/-- A payload is read when it is made of records that the reader takes. -/
theorem ofPayload_eq_ok (hv : v.isLegacy = true) {bs : Bytes} {m : Message} :
    ofPayload v .update bs = .ok m ↔ ∃ (ss : List Spelling) (records : List MappingRecord),
      m = legacyUpdate v records ∧ bs = ss.flatMap Spelling.bytes ∧
        List.Forall₂ (fun s r => Spelling.Accepted s ∧ s.Says r) ss records := by
  have hall (records : List MappingRecord) :
      MappingRecord.reader.readAll bs = .ok records ↔ ∃ ss, bs = ss.flatMap Spelling.bytes ∧
        List.Forall₂ (fun s r => Spelling.Accepted s ∧ s.Says r) ss records :=
    ItemReader.readAll_iff Spelling.read_iff
  rw [ofPayload, if_pos hv, Except.map_eq_ok]
  simp only [hall]
  constructor
  · rintro ⟨records, ⟨ss, hbs, hss⟩, rfl⟩
    exact ⟨ss, records, rfl, hbs, hss⟩
  · rintro ⟨ss, records, rfl, hbs, hss⟩
    exact ⟨records, ⟨ss, hbs, hss⟩, rfl⟩

/-- What is of the grammar is read when no record says a length above one before it. -/
theorem exists_ofPayload_iff (hv : v.isLegacy = true) {ss : List Spelling}
    (h : ∀ s ∈ ss, s.Grammatical) :
    (∃ m, ofPayload v .update (ss.flatMap Spelling.bytes) = .ok m) ↔ ∀ s ∈ ss, s.Narrowing := by
  have hmade (s : Spelling) (hs : s ∈ ss) := (Spelling.grammatical_iff_made.1 (h s hs)).1
  constructor
  · rintro ⟨m, hm⟩
    obtain ⟨ts, records, -, hsame, hts⟩ := (ofPayload_eq_ok hv).1 hm
    have haccepted : ∀ t ∈ ts, t.Accepted := by
      intro t ht
      obtain ⟨r, -, ht, -⟩ := exists_of_mem_left hts ht
      exact ht
    obtain rfl : ss = ts :=
      Spelling.flatMap_bytes_inj hmade (fun t ht => (haccepted t ht).made) hsame
    exact fun s hs => (haccepted s hs).narrowing
  · intro hnarrowing
    obtain ⟨records, hrecords⟩ : ∃ records,
        List.Forall₂ (fun s r => Spelling.Accepted s ∧ s.Says r) ss records := by
      apply exists_forall₂
      intro s hs
      have haccepted : s.Accepted := ⟨hmade s hs, hnarrowing s hs⟩
      exact haccepted.exists_record.imp fun _ hr => ⟨haccepted, hr⟩
    exact ⟨_, (ofPayload_eq_ok hv).2 ⟨ss, records, rfl, rfl, hrecords⟩⟩

/-- The reader of legacy updates takes the payloads that are made of records of which it asks less
and more than the grammar does, and a record is what was said last. Of the grammar it takes the
payloads without a length above one before it in the same record; and what it takes is of the grammar
when no value is longer than it has to be. -/
theorem ofPayload_grammar (hv : v.isLegacy = true) :
    (∀ bs m, ofPayload v .update bs = .ok m ↔
      ∃ (ss : List Spelling) (records : List MappingRecord),
        m = legacyUpdate v records ∧ bs = ss.flatMap Spelling.bytes ∧
          List.Forall₂ (fun s r => Spelling.Accepted s ∧ s.Says r) ss records) ∧
    (∀ ss : List Spelling, (∀ s ∈ ss, s.Grammatical) →
      ((∃ m, ofPayload v .update (ss.flatMap Spelling.bytes) = .ok m) ↔
        ∀ s ∈ ss, s.Narrowing)) ∧
    ∀ ss : List Spelling, (∀ s ∈ ss, s.Accepted) →
      ((∃ ts : List Spelling, ts.flatMap Spelling.bytes = ss.flatMap Spelling.bytes ∧
          ∀ t ∈ ts, t.Grammatical) ↔
        ∀ s ∈ ss, s.Exact) :=
  ⟨fun _ _ => ofPayload_eq_ok hv, fun _ h => exists_ofPayload_iff hv h,
    fun _ h => Spelling.exists_grammatical_iff h⟩

/-- A record about 10.0.0.9 that says the length 28, something that nobody knows, a tag, and the
length 24. -/
def narrowing : Spelling :=
  ⟨.addIpv4, [10, 0, 0, 9], [⟨2, [28]⟩, ⟨9, [7]⟩, ⟨1, [0, 100]⟩, ⟨2, [24]⟩]⟩

theorem ofPayload_grammar_narrowing : Version.v3.isLegacy = true ∧ narrowing.Grammatical ∧
    (∃ m, ofPayload .v3 .update ([narrowing].flatMap Spelling.bytes) = .ok m) ∧
    ofPayload .v3 .update ([narrowing].flatMap Spelling.bytes) =
      .ok (legacyUpdate .v3 [⟨.addIpv4, .v4 ⟨0x0A000000, 24⟩, some plainTag⟩]) := by
  have hgrammatical : ∀ s ∈ [narrowing], s.Grammatical := by decide
  obtain ⟨hread, hnarrowing, -⟩ := ofPayload_grammar (v := .v3) rfl
  refine ⟨rfl, hgrammatical _ List.mem_cons_self, (hnarrowing _ hgrammatical).2 (by decide), ?_⟩
  exact (hread _ _).2 ⟨_, _, rfl, rfl, .cons ⟨by decide, by decide⟩ .nil⟩

/-- A record that says the length 24 and then 28. -/
def widening : Spelling := ⟨.delIpv4, [10, 0, 0, 9], [⟨2, [24]⟩, ⟨2, [28]⟩]⟩

/-- A record whose tag has a byte behind it. -/
def lengthy : Spelling := ⟨.addIpv4, [10, 0, 0, 9], [⟨1, [0, 100, 0]⟩]⟩

/-- The one is of the grammar and is refused, the other is not and is read. -/
theorem grammar_missed :
    (∀ s ∈ [widening], s.Grammatical) ∧
    (∀ m, ofPayload .v3 .update ([widening].flatMap Spelling.bytes) ≠ .ok m) ∧
    (∃ m, ofPayload .v3 .update ([lengthy].flatMap Spelling.bytes) = .ok m) ∧
    ¬∃ ts : List Spelling, ts.flatMap Spelling.bytes = [lengthy].flatMap Spelling.bytes ∧
      ∀ t ∈ ts, t.Grammatical := by
  have hgrammatical : ∀ s ∈ [widening], s.Grammatical := by decide
  have haccepted : ∀ s ∈ [lengthy], s.Accepted := by decide
  refine ⟨hgrammatical, fun m hm => ?_, ?_, fun hspelt => ?_⟩
  · have hnarrowing := (exists_ofPayload_iff rfl hgrammatical).1 ⟨m, hm⟩
    exact absurd (hnarrowing _ List.mem_cons_self) (by decide)
  · obtain ⟨r, hr⟩ := (haccepted _ List.mem_cons_self).exists_record
    exact ⟨_, (ofPayload_eq_ok rfl).2
      ⟨[lengthy], [r], rfl, rfl, .cons ⟨haccepted _ List.mem_cons_self, hr⟩ .nil⟩⟩
  · have hexact := (Spelling.exists_grammatical_iff haccepted).1 hspelt
    exact absurd ((hexact _ List.mem_cons_self) _ List.mem_cons_self) (by decide)

end Message

end TagExchange
