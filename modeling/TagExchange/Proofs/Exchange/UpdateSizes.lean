import TagExchange.Proofs.Exchange.Division
import TagExchange.Proofs.RoundTrip.Spellings

/-!
# How large an update is

An update has a frame exactly when its attributes leave room for the header, and nothing but its
size can keep it from having one (`Message.frame_update_iff`, `Message.kind_of_update_error`). A
binding that is announced alone takes four bytes for each node of its path, the octets of its
network (`Binding.load`) and 25 bytes more, and no update that announces it is smaller. So updates
of version 4 can be divided into frames exactly when there is room for every binding
(`Composer.current_frames_iff`); a withdrawal always fits.
-/

namespace TagExchange

namespace Attribute

theorem size_of {flags : UInt8} (hflags : Flags.has flags Flags.compact = true)
    (v : AttributeValue) :
    (of flags v).size = (if 255 < v.bytes.length then 4 else 3) + v.bytes.length := by
  have hcompact := (Flags.has_compact_clear_extended flags).trans hflags
  simp only [size, layout, of, Layout.for, hcompact, Bool.not_true, Bool.false_eq_true, if_false]
  by_cases hlong : 255 < v.bytes.length <;> simp [hlong, Layout.headerSize]

theorem length_path (ids : List NodeId) :
    (AttributeValue.path ids).bytes.length = 4 * ids.length := by
  simp [AttributeValue.bytes, List.length_flatMap, Nat.mul_comm]

theorem size_path (ids : List NodeId) : (wellKnown (.path ids)).size =
    (if 255 < 4 * ids.length then 4 else 3) + 4 * ids.length := by
  rw [wellKnown, size_of (by decide), length_path]

theorem size_tag (t : Tag) : (wellKnown (.tag t)).size = 5 := by
  rw [wellKnown, size_of (by decide)]
  rfl

/-- No layout has a shorter header for a longer value. -/
theorem size_mono {a b : Attribute} (hflags : a.flags = b.flags)
    (hvalue : a.value.bytes.length ≤ b.value.bytes.length) : a.size ≤ b.size := by
  simp only [size, layout, Layout.for, hflags]
  split
  · omega
  · split <;> split <;> simp only [Layout.headerSize] <;> omega

variable {a : Attribute} {attrs : List Attribute}

theorem Composed.layout_ne_wide (h : a.Composed) : a.layout ≠ .wide := by
  simp only [layout, Layout.for, h.compact, Bool.not_true, Bool.false_eq_true, if_false]
  split <;> simp

theorem Composed.exists_bytes (h : a.Composed) (hsize : a.value.bytes.length ≤ 65535) :
    ∃ bs, a.bytes = .ok bs := by
  rw [exists_bytes_iff]
  cases hl : a.layout with
  | compact => exact h.code
  | compactExtended => exact ⟨hsize, h.code⟩
  | wide => exact absurd hl h.layout_ne_wide

theorem Composed.kind_of_error (h : a.Composed) {f : Fault} (hf : a.bytes = .error f) :
    f.kind = .tooLarge := by
  have hcode := h.code
  cases hheader : header a.flags a.value.code a.value.bytes.length with
  | ok front => simp [bytes, hheader, Except.map] at hf
  | error e =>
    obtain rfl : e = f := by simpa [bytes, hheader, Except.map] using hf
    rw [header] at hheader
    split at hheader
    · split at hheader
      · omega
      · cases hheader
    · split at hheader
      · cases hheader
        rfl
      · split at hheader
        · omega
        · cases hheader
    · next hl => exact absurd hl h.layout_ne_wide

theorem kind_of_listBytes_error (h : ∀ a ∈ attrs, a.Composed) {f : Fault}
    (hf : listBytes attrs = .error f) : f.kind = .tooLarge := by
  induction attrs with
  | nil => cases hf
  | cons a attrs ih =>
    cases ha : a.bytes with
    | error e =>
      obtain rfl : e = f := by simpa [listBytes, ha, bind, Except.bind] using hf
      exact (h a (by simp)).kind_of_error ha
    | ok front =>
      cases hrest : listBytes attrs with
      | error e =>
        obtain rfl : e = f := by simpa [listBytes, ha, hrest, bind, Except.bind] using hf
        exact ih (fun b hb => h b (by simp [hb])) hrest
      | ok back => simp [listBytes, ha, hrest, bind, Except.bind, pure, Except.pure] at hf

end Attribute

namespace Message

variable {attrs : List Attribute}

/-- An update has a frame exactly when its attributes leave room for the header. -/
theorem frame_update_iff (h : ∀ a ∈ attrs, a.Composed) :
    (∃ frame, (update attrs).frame = .ok frame) ↔
      headerSize + Attribute.listSize attrs ≤ messageLimit := by
  constructor
  · rintro ⟨frame, hframe⟩
    obtain ⟨payload, hpayload, hframe⟩ := Except.bind_eq_ok.1 hframe
    rw [← Attribute.length_of_listBytes hpayload]
    exact exists_frame_iff.1 ⟨frame, hframe⟩
  · intro hroom
    obtain ⟨payload, hpayload⟩ := Attribute.exists_listBytes_iff.2 fun a ha => by
      apply (h a ha).exists_bytes
      have hle := Attribute.size_le_listSize ha
      simp only [Attribute.size] at hle
      simp only [messageLimit] at hroom
      omega
    rw [← Attribute.length_of_listBytes hpayload] at hroom
    rw [frame_of_payload (m := .update attrs) hpayload]
    exact exists_frame_iff.2 hroom

theorem kind_of_update_error (h : ∀ a ∈ attrs, a.Composed) {f : Fault}
    (hf : (update attrs).frame = .error f) : f.kind = .tooLarge := by
  cases hpayload : (update attrs).payload with
  | error e =>
    obtain rfl : e = f := by simpa [frame, hpayload, bind, Except.bind] using hf
    exact Attribute.kind_of_listBytes_error h hpayload
  | ok payload =>
    rw [frame_of_payload hpayload] at hf
    exact kind_of_frame_error hf

end Message

/-- The octets of a network on the wire. -/
def Network.covered : Network → Nat
  | v4 n => octetsFor (min n.length.toNat 32)
  | v6 n => octetsFor (min n.length.toNat 128)

theorem Network.covered_le (n : Network) : n.covered ≤ 16 := by
  cases n <;> simp only [covered, octetsFor] <;> omega

theorem Network.covered_clean (n : Network) : n.clean.covered = n.covered := by
  cases n <;> rfl

/-- What a binding costs the frame that announces it, over what every binding costs. -/
def Binding.load (b : Binding) : Nat := 4 * b.path.length + b.net.covered

/-- The tag is one that can be written. -/
def Binding.Tagged (b : Binding) : Prop := ∃ tag, Tag.of? b.tag.toNat = .ok tag

theorem Binding.tagged_iff {b : Binding} : b.Tagged ↔ 2 ≤ b.tag.toNat ∧ b.tag.toNat ≤ 65519 := by
  constructor
  · rintro ⟨tag, htag⟩
    rw [Tag.of?_eq_ok_iff.1 htag]
    exact tag.inRange
  · intro hrange
    exact ⟨⟨b.tag, hrange⟩, Tag.of?_value ⟨b.tag, hrange⟩⟩

namespace Run

/-- The run of a single binding. -/
def single (b : Binding) : Run := ⟨b.path, b.tag, [b.net]⟩

theorem exists_of_mem {bs : List Binding} {b : Binding} (h : b ∈ bs) :
    ∃ r ∈ ofBindings bs, r.path = b.path ∧ r.tag = b.tag ∧ b.net ∈ r.nets := by
  induction bs with
  | nil => cases h
  | cons c bs ih =>
    have hcons : ofBindings (c :: bs) = cons c (ofBindings bs) := rfl
    rw [hcons]
    cases hruns : ofBindings bs with
    | nil =>
      rcases List.mem_cons.1 h with rfl | h
      · exact ⟨single b, by simp [cons, single], rfl, rfl, by simp [single]⟩
      · obtain ⟨r, hr, -⟩ := ih h
        rw [hruns] at hr
        cases hr
    | cons first rest =>
      rw [hruns] at ih
      rw [cons]
      split
      · next hfits =>
        rcases List.mem_cons.1 h with rfl | h
        · exact ⟨_, List.mem_cons_self, hfits.1, hfits.2, List.mem_cons_self⟩
        · obtain ⟨r, hr, hpath, htag, hnet⟩ := ih h
          rcases List.mem_cons.1 hr with rfl | hr
          · exact ⟨_, List.mem_cons_self, hpath, htag, List.mem_cons_of_mem _ hnet⟩
          · exact ⟨r, List.mem_cons_of_mem _ hr, hpath, htag, hnet⟩
      · rcases List.mem_cons.1 h with rfl | h
        · exact ⟨_, List.mem_cons_self, rfl, rfl, List.mem_cons_self⟩
        · obtain ⟨r, hr, hrest⟩ := ih h
          exact ⟨r, List.mem_cons_of_mem _ hr, hrest⟩

theorem exists_tag_eq {bs : List Binding} {r : Run} (h : r ∈ ofBindings bs) :
    ∃ b ∈ bs, r.tag = b.tag := by
  induction bs generalizing r with
  | nil => cases h
  | cons c bs ih =>
    have hcons : ofBindings (c :: bs) = cons c (ofBindings bs) := rfl
    rw [hcons] at h
    have htail {r : Run} (hr : r ∈ ofBindings bs) : ∃ b ∈ c :: bs, r.tag = b.tag := by
      obtain ⟨b, hb, htag⟩ := ih hr
      exact ⟨b, List.mem_cons_of_mem c hb, htag⟩
    cases hruns : ofBindings bs with
    | nil =>
      rw [hruns, cons, List.mem_singleton] at h
      exact ⟨c, List.mem_cons_self, congrArg Run.tag h⟩
    | cons first rest =>
      rw [hruns, cons] at h
      rw [hruns] at htail
      split at h
      · rcases List.mem_cons.1 h with rfl | h
        · exact htail (r := first) List.mem_cons_self
        · exact htail (List.mem_cons_of_mem _ h)
      · rcases List.mem_cons.1 h with rfl | h
        · exact ⟨c, List.mem_cons_self, rfl⟩
        · exact htail h

end Run

namespace Update

open Attribute (listSize)

variable {id : NodeId} {caps : List Capability} {filter : Filter} {delete add : List Binding}

theorem listSize_le_flatten {parts : List (List Attribute)} {part : List Attribute}
    (h : part ∈ parts) : listSize part ≤ listSize parts.flatten := by
  induction parts with
  | nil => cases h
  | cons first parts ih =>
    rw [List.flatten_cons, Attribute.listSize_append]
    rcases List.mem_cons.1 h with rfl | h
    · omega
    · have hrest := ih h
      omega

theorem listSize_listed_single {w : Nat} (hw : w % 8 = 0) {flags : UInt8}
    (hflags : Flags.has flags Flags.compact = true) {value : List (Net w) → AttributeValue}
    (hvalue : ∀ nets, (value nets).bytes = nets.flatMap Net.bytes) (n : Net w)
    (hshort : octetsFor (min n.length.toNat w) ≤ 16) :
    listSize (listed flags value [n]) = 4 + octetsFor (min n.length.toNat w) := by
  have hbytes : (value [n]).bytes.length = 1 + octetsFor (min n.length.toNat w) := by
    rw [hvalue, List.flatMap_singleton, Net.length_bytes hw]
  have hnot : ¬ 255 < 1 + octetsFor (min n.length.toNat w) := by omega
  show Attribute.size _ + 0 = _
  rw [Attribute.size_of hflags, hbytes, if_neg hnot]
  omega

/-- A list of networks takes no less than one of them. -/
theorem listSize_listed_le {w : Nat} {flags : UInt8} {value : List (Net w) → AttributeValue}
    (hvalue : ∀ nets, (value nets).bytes = nets.flatMap Net.bytes) {nets : List (Net w)}
    {n : Net w} (h : n ∈ nets) :
    listSize (listed flags value [n]) ≤ listSize (listed flags value nets) := by
  have hne : nets.isEmpty = false := List.isEmpty_eq_false_iff.2 (List.ne_nil_of_mem h)
  have hlisted : listed flags value nets = [.of flags (value nets)] := by simp [listed, hne]
  rw [hlisted]
  show Attribute.size _ + 0 ≤ Attribute.size _ + 0
  have hle : n.bytes.length ≤ (nets.flatMap Net.bytes).length := by
    rw [List.length_flatMap]
    exact List.single_le_sum (by simp) _ (List.mem_map_of_mem h)
  apply Nat.add_le_add_right
  refine Attribute.size_mono (a := .of flags (value [n])) (b := .of flags (value nets)) rfl ?_
  simp only [Attribute.of, hvalue, List.flatMap_singleton]
  exact hle

theorem listSize_withdrawn_single (b : Binding) : listSize (withdrawn [b]) = 4 + b.net.covered := by
  have hflags : Flags.has Flags.wellKnown Flags.compact = true := by decide
  have hshort := b.net.covered_le
  obtain ⟨net, tag, path, stamp⟩ := b
  cases net with
  | v4 n => exact listSize_listed_single (by decide) hflags (fun _ => rfl) n hshort
  | v6 n => exact listSize_listed_single (by decide) hflags (fun _ => rfl) n hshort

/-- The path, the tag and the network of a single binding. -/
theorem listSize_announced_single {b : Binding} {attrs : List Attribute}
    (h : announced id caps (Run.single b) = .ok attrs) : listSize attrs =
      (if 255 < 4 * (b.path.length + 1) then 4 else 3) + 4 * b.path.length + 13 +
        b.net.covered := by
  obtain ⟨tag, -, h⟩ := Except.bind_eq_ok.1 h
  cases h
  have hshort := b.net.covered_le
  have hnets : listSize (listed (announceFlags caps .ipv4Unicast) .announce4
        ((Run.single b).nets.filterMap Network.v4?)) +
      listSize (listed (announceFlags caps .ipv6Unicast) .announce6
        ((Run.single b).nets.filterMap Network.v6?)) = 4 + b.net.covered := by
    obtain ⟨net, _, _, _⟩ := b
    cases net with
    | v4 n =>
      exact listSize_listed_single (by decide) (has_compact_announceFlags _ _) (fun _ => rfl) n
        hshort
    | v6 n =>
      exact (Nat.zero_add _).trans (listSize_listed_single (by decide)
        (has_compact_announceFlags _ _) (fun _ => rfl) n hshort)
  have hpath : (Run.single b).path = b.path := rfl
  simp only [Attribute.listSize_append, Attribute.listSize_cons, Attribute.listSize_nil, hpath,
    Attribute.size_path, Attribute.size_tag, List.length_cons]
  omega

/-- A run takes no less than one of its bindings. -/
theorem listSize_announced_le {b : Binding} {run : Run} (hpath : run.path = b.path)
    (htag : run.tag = b.tag) (hnet : b.net ∈ run.nets) {attrs attrs' : List Attribute}
    (h : announced id caps (Run.single b) = .ok attrs) (h' : announced id caps run = .ok attrs') :
    listSize attrs ≤ listSize attrs' := by
  obtain ⟨path, tag, nets⟩ := run
  obtain ⟨net, _, _, _⟩ := b
  subst hpath htag
  obtain ⟨tag, htag, h⟩ := Except.bind_eq_ok.1 h
  obtain ⟨tag', htag', h'⟩ := Except.bind_eq_ok.1 h'
  cases h
  cases h'
  obtain rfl : tag = tag' := by simpa [Run.single, htag'] using htag.symm
  have hnets : listSize (listed (announceFlags caps .ipv4Unicast) .announce4
        ([net].filterMap Network.v4?)) +
      listSize (listed (announceFlags caps .ipv6Unicast) .announce6
        ([net].filterMap Network.v6?)) ≤
      listSize (listed (announceFlags caps .ipv4Unicast) .announce4
        (nets.filterMap Network.v4?)) +
      listSize (listed (announceFlags caps .ipv6Unicast) .announce6
        (nets.filterMap Network.v6?)) := by
    cases net with
    | v4 n =>
      have hmem : n ∈ nets.filterMap Network.v4? := List.mem_filterMap.2 ⟨_, hnet, rfl⟩
      exact Nat.add_le_add (listSize_listed_le (fun _ => rfl) hmem) (Nat.zero_le _)
    | v6 n =>
      have hmem : n ∈ nets.filterMap Network.v6? := List.mem_filterMap.2 ⟨_, hnet, rfl⟩
      exact Nat.add_le_add (Nat.zero_le _) (listSize_listed_le (fun _ => rfl) hmem)
  simp only [Run.single, Attribute.listSize_append]
  omega

theorem compose_single {b : Binding} (hpass : filter b = false) {attrs : List Attribute}
    (h : announced id caps (Run.single b) = .ok attrs) :
    compose id caps filter [] [b] = .ok attrs := by
  have hruns : Run.ofBindings ([b].filter fun b => !filter b) = [Run.single b] := by
    simp [hpass]
    rfl
  rw [compose, hruns, List.mapM_cons, h]
  simp [withdrawn, listed, bind, Except.bind, pure, Except.pure]

/-- A binding that is held back leaves nothing to announce. -/
theorem compose_dropped {b : Binding} (hdrop : filter b = true) :
    compose id caps filter [] [b] = .ok [] := by
  simp [compose, hdrop, Run.ofBindings, withdrawn, listed, bind, Except.bind, pure, Except.pure]

theorem exists_announced {run : Run} {tag : Tag} (h : Tag.of? run.tag.toNat = .ok tag) :
    ∃ attrs, announced id caps run = .ok attrs := by
  rw [announced, h]
  exact ⟨_, rfl⟩

/-- An update can be composed exactly when every binding that passes has a tag. -/
theorem exists_compose_iff : (∃ attrs, compose id caps filter delete add = .ok attrs) ↔
    ∀ b ∈ add, filter b = false → b.Tagged := by
  constructor
  · rintro ⟨attrs, h⟩ b hb hpass
    obtain ⟨parts, hparts, -⟩ := Except.bind_eq_ok.1 h
    have hkept : b ∈ add.filter fun b => !filter b := List.mem_filter.2 ⟨hb, by simp [hpass]⟩
    obtain ⟨run, hrun, -, htag, -⟩ := Run.exists_of_mem hkept
    obtain ⟨part, -, hannounced⟩ := exists_mem_of_mapM hparts hrun
    obtain ⟨tag, hof, -⟩ := Except.bind_eq_ok.1 hannounced
    exact ⟨tag, htag ▸ hof⟩
  · intro htags
    obtain ⟨parts, hparts⟩ : ∃ parts,
        (Run.ofBindings (add.filter fun b => !filter b)).mapM (announced id caps) = .ok parts := by
      apply exists_mapM
      intro run hrun
      obtain ⟨b, hb, htag⟩ := Run.exists_tag_eq hrun
      obtain ⟨hb, hpass⟩ := List.mem_filter.1 hb
      obtain ⟨tag, hof⟩ := htags b hb (by simpa using hpass)
      exact exists_announced (htag ▸ hof)
    rw [compose, hparts]
    exact ⟨_, rfl⟩

/-- An update takes no less than one of the bindings in it. -/
theorem listSize_compose_le {b : Binding} (hb : b ∈ add) (hpass : filter b = false)
    {attrs attrs' : List Attribute} (h : announced id caps (Run.single b) = .ok attrs)
    (h' : compose id caps filter delete add = .ok attrs') : listSize attrs ≤ listSize attrs' := by
  obtain ⟨parts, hparts, h'⟩ := Except.bind_eq_ok.1 h'
  cases h'
  have hkept : b ∈ add.filter fun b => !filter b := List.mem_filter.2 ⟨hb, by simp [hpass]⟩
  obtain ⟨run, hrun, hpath, htag, hnet⟩ := Run.exists_of_mem hkept
  obtain ⟨part, hpart, hannounced⟩ := exists_mem_of_mapM hparts hrun
  have hle := listSize_announced_le hpath htag hnet h hannounced
  have hpart := listSize_le_flatten hpart
  rw [Attribute.listSize_append]
  omega

end Update

namespace Composer

variable {id : NodeId} {caps : List Capability} {filter : Filter} {delete add : List Binding}

theorem current_eq_ok {m : Message} : current id caps filter delete add = .ok m ↔
    ∃ attrs, Update.compose id caps filter delete add = .ok attrs ∧ .update attrs = m :=
  Except.map_eq_ok

/-- A part fits when its attributes leave room for the header. -/
theorem current_fits_iff {attrs : List Attribute}
    (h : Update.compose id caps filter delete add = .ok attrs) :
    (current id caps filter).Fits (delete, add) ↔
      headerSize + Attribute.listSize attrs ≤ messageLimit := by
  rw [← Message.frame_update_iff (Update.composed_compose h)]
  constructor
  · rintro ⟨frame, m, hm, hframe⟩
    obtain ⟨attrs', h', rfl⟩ := current_eq_ok.1 hm
    rw [h] at h'
    cases h'
    exact ⟨frame, hframe⟩
  · rintro ⟨frame, hframe⟩
    exact ⟨frame, _, current_eq_ok.2 ⟨attrs, h, rfl⟩, hframe⟩

theorem current_sized (htags : ∀ b ∈ add, filter b = false → b.Tagged) :
    (current id caps filter).Sized delete add := by
  intro d a hd ha
  obtain ⟨attrs, hattrs⟩ : ∃ attrs, Update.compose id caps filter d a = .ok attrs :=
    Update.exists_compose_iff.2 fun b hb => htags b (ha hb)
  cases hframe : (Message.update attrs).frame with
  | ok frame => exact .inl ⟨frame, _, current_eq_ok.2 ⟨attrs, hattrs, rfl⟩, hframe⟩
  | error f =>
    exact .inr ⟨_, f, current_eq_ok.2 ⟨attrs, hattrs, rfl⟩, hframe,
      Message.kind_of_update_error (Update.composed_compose hattrs) hframe⟩

theorem current_fits_delete (b : Binding) : (current id caps filter).Fits ([b], []) := by
  have hcompose : Update.compose id caps filter [b] [] = .ok (Update.withdrawn [b]) := by
    simp [Update.compose, Run.ofBindings, bind, Except.bind, pure, Except.pure]
  rw [current_fits_iff hcompose, Update.listSize_withdrawn_single]
  have hshort := b.net.covered_le
  simp only [headerSize, messageLimit]
  omega

/-- The room that a single binding needs. -/
theorem current_fits_add {b : Binding} (htag : b.Tagged) (hpass : filter b = false) :
    (current id caps filter).Fits ([], [b]) ↔ b.load + 25 ≤ messageLimit := by
  obtain ⟨tag, hof⟩ := htag
  obtain ⟨attrs, hattrs⟩ : ∃ attrs, Update.announced id caps (Run.single b) = .ok attrs :=
    Update.exists_announced hof
  have hshort := b.net.covered_le
  rw [current_fits_iff (Update.compose_single hpass hattrs),
    Update.listSize_announced_single hattrs, Binding.load]
  simp only [headerSize, messageLimit]
  split <;> omega

/-- A binding that is held back always fits. -/
theorem current_fits_dropped {b : Binding} (hdrop : filter b = true) :
    (current id caps filter).Fits ([], [b]) := by
  rw [current_fits_iff (Update.compose_dropped hdrop)]
  decide

theorem tagged_of_fits (h : (current id caps filter).Fits (delete, add)) :
    ∀ b ∈ add, filter b = false → b.Tagged := by
  obtain ⟨_, m, hm, -⟩ := h
  obtain ⟨attrs, hattrs, -⟩ := current_eq_ok.1 hm
  exact Update.exists_compose_iff.1 ⟨attrs, hattrs⟩

/-- Of what fits together each binding fits. -/
theorem current_fitsSingly (h : (current id caps filter).Fits (delete, add)) :
    (current id caps filter).FitsSingly delete add := by
  refine ⟨fun b _ => current_fits_delete b, fun b hb => ?_⟩
  cases hpass : filter b with
  | true => exact current_fits_dropped hpass
  | false =>
    have htags := tagged_of_fits h
    obtain ⟨tag, hof⟩ := htags b hb hpass
    obtain ⟨attrs, hattrs⟩ : ∃ attrs, Update.announced id caps (Run.single b) = .ok attrs :=
      Update.exists_announced hof
    obtain ⟨attrs', hattrs'⟩ : ∃ attrs, Update.compose id caps filter delete add = .ok attrs :=
      Update.exists_compose_iff.2 htags
    rw [current_fits_iff hattrs'] at h
    rw [current_fits_iff (Update.compose_single hpass hattrs)]
    have hle := Update.listSize_compose_le hb hpass hattrs hattrs'
    omega

/-- There are frames exactly when every single change goes into a frame of its own. -/
theorem current_frames_ok_iff : (∃ fs, (current id caps filter).frames delete add = .ok fs) ↔
    (current id caps filter).FitsSingly delete add :=
  frames_ok_iff
    (fun hall => current_sized fun b hb hpass => tagged_of_fits (hall.add b hb) b (by simp) hpass)
    fun _ _ hfits => current_fitsSingly hfits

/-- Updates of version 4 can be divided into frames exactly when there is room for every binding. -/
theorem current_frames_iff (htags : ∀ b ∈ add, b.Tagged) (hpass : ∀ b ∈ add, filter b = false) :
    (∃ fs, (current id caps filter).frames delete add = .ok fs) ↔
      ∀ b ∈ add, b.load + 25 ≤ messageLimit := by
  rw [current_frames_ok_iff]
  constructor
  · exact fun h b hb => (current_fits_add (htags b hb) (hpass b hb)).1 (h.add b hb)
  · exact fun h => ⟨fun b _ => current_fits_delete b,
      fun b hb => (current_fits_add (htags b hb) (hpass b hb)).2 (h b hb)⟩

end Composer

end TagExchange
