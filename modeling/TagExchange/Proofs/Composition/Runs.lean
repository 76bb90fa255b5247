import TagExchange.Proofs.Exchange.UpdateSizes

/-!
# How an update is laid out

The bindings that pass the filter are announced in maximal runs of one path and one tag, whatever
stood between them before (`Run.gathers_splitBy`). An update that is composed is laid out in that
way, and it is read as what went into it, family by family and in order; it fails to be composed
exactly when a binding that passes has a tag that cannot be written
(`Update.compose_laidOut`).
-/

namespace TagExchange

/-- The same changes in the same order, but for the order between the families. -/
structure Changes.Matches (c d : Changes) : Prop where
  delete : ∀ v4, (c.delete.filter fun net => net.isV4 == v4) =
    d.delete.filter fun net => net.isV4 == v4
  add : ∀ v4, (c.add.filter fun b => b.net.isV4 == v4) = d.add.filter fun b => b.net.isV4 == v4

namespace Network

theorem map_v4_filterMap (nets : List Network) :
    (nets.filterMap v4?).map v4 = nets.filter fun net => net.isV4 := by
  induction nets with
  | nil => rfl
  | cons net nets ih =>
    cases net with
    | v4 n => exact congrArg (v4 n :: ·) ih
    | v6 _ => exact ih

theorem map_v6_filterMap (nets : List Network) :
    (nets.filterMap v6?).map v6 = nets.filter fun net => !net.isV4 := by
  induction nets with
  | nil => rfl
  | cons net nets ih =>
    cases net with
    | v4 _ => exact ih
    | v6 n => exact congrArg (v6 n :: ·) ih

theorem filter_byFamily (nets : List Network) (family : Bool) :
    ((byFamily nets).filter fun net => net.isV4 == family) =
      nets.filter fun net => net.isV4 == family := by
  rw [byFamily, map_v4_filterMap, map_v6_filterMap, List.filter_append, List.filter_filter,
    List.filter_filter]
  cases family <;> simp

end Network

/-- Two bindings that one run can announce. -/
def Binding.joins (b c : Binding) : Bool := b.path == c.path && b.tag == c.tag

theorem splitBy_cons_of_related {α : Type} {r : α → α → Bool} {x y : α} {g xs : List α}
    {rest : List (List α)} (h : xs.splitBy r = (y :: g) :: rest) (hxy : r x y = true) :
    (x :: xs).splitBy r = (x :: y :: g) :: rest := by
  obtain ⟨hflat, hsome, hrelated, hapart⟩ := List.splitBy_eq_iff.1 h
  refine List.splitBy_eq_iff.2 ⟨?_, ?_, ?_, ?_⟩
  · rw [hflat]
    rfl
  · simpa using hsome
  · rw [List.forall_mem_cons] at hrelated ⊢
    exact ⟨List.isChain_cons_cons.2 ⟨hxy, hrelated.1⟩, hrelated.2⟩
  · cases rest with
    | nil => exact .singleton _
    | cons next rest =>
      obtain ⟨⟨_, hnext, hlast⟩, hrest⟩ := List.isChain_cons_cons.1 hapart
      refine List.isChain_cons_cons.2 ⟨⟨by simp, hnext, ?_⟩, hrest⟩
      rw [List.getLast_cons (by simp)]
      exact hlast

namespace Run

/-- A run for a group of bindings: it has their path, their tag and their networks. -/
structure Gathers (r : Run) (group : List Binding) : Prop where
  same : ∀ b ∈ group, b.path = r.path ∧ b.tag = r.tag
  nets : r.nets = group.map Binding.net

theorem Gathers.joins_iff {r : Run} {b c : Binding} {group : List Binding}
    (h : r.Gathers (c :: group)) : b.joins c = true ↔ r.path = b.path ∧ r.tag = b.tag := by
  obtain ⟨hpath, htag⟩ := h.same c (by simp)
  rw [Binding.joins, Bool.and_eq_true, beq_iff_eq, beq_iff_eq, hpath, htag]
  exact and_congr eq_comm eq_comm

theorem Gathers.cons {r : Run} {b : Binding} {group : List Binding} (h : r.Gathers group)
    (hpath : r.path = b.path) (htag : r.tag = b.tag) :
    Gathers { r with nets := b.net :: r.nets } (b :: group) where
  same := List.forall_mem_cons.2 ⟨⟨hpath.symm, htag.symm⟩, h.same⟩
  nets := congrArg (b.net :: ·) h.nets

theorem gathers_single (b : Binding) : (single b).Gathers [b] :=
  ⟨by simp [single], rfl⟩

/-- The runs of some bindings are their maximal runs. -/
theorem gathers_splitBy (bs : List Binding) :
    List.Forall₂ Gathers (ofBindings bs) (bs.splitBy Binding.joins) := by
  induction bs with
  | nil => exact .nil
  | cons b bs ih =>
    have hcons : ofBindings (b :: bs) = Run.cons b (ofBindings bs) := rfl
    rw [hcons]
    cases hgroups : bs.splitBy Binding.joins with
    | nil =>
      rw [hgroups, List.forall₂_nil_right_iff] at ih
      obtain rfl := List.splitBy_eq_nil.1 hgroups
      rw [ih]
      exact .cons (gathers_single b) .nil
    | cons group groups =>
      obtain ⟨c, group, rfl⟩ :=
        List.exists_cons_of_ne_nil (List.ne_nil_of_mem_splitBy (hgroups ▸ List.mem_cons_self))
      rw [hgroups] at ih
      obtain ⟨r, runs, hfirst, hrest, hruns⟩ := List.forall₂_cons_right_iff.1 ih
      rw [hruns, Run.cons]
      by_cases hfits : r.path = b.path ∧ r.tag = b.tag
      · rw [if_pos hfits, splitBy_cons_of_related hgroups (hfirst.joins_iff.2 hfits)]
        exact .cons (hfirst.cons hfits.1 hfits.2) hrest
      · have hapart : b.joins c = false := Bool.eq_false_iff.2 (mt hfirst.joins_iff.1 hfits)
        obtain ⟨bs, rfl⟩ : ∃ bs', bs = c :: bs' := by
          rw [(List.splitBy_eq_iff.1 hgroups).1]
          exact ⟨_, rfl⟩
        have hsplit : (b :: c :: bs).splitBy Binding.joins = [b] :: (c :: group) :: groups :=
          (List.splitBy_append_cons (l := [b]) bs (by simpa using hapart)).trans
            (congrArg ([b] :: ·) hgroups)
        rw [if_neg hfits, hsplit]
        exact .cons (gathers_single b) (.cons hfirst hrest)

end Run

namespace Update

variable {id : NodeId} {caps : List Capability} {filter : Filter} {delete add : List Binding}
  {attrs : List Attribute}

/-- At most one attribute for the networks of a family, which every peer has to understand only when
the family is declared. -/
inductive Lists {α : Type} (declared : Prop) (value : List α → AttributeValue) :
    List α → List Attribute → Prop
  | nothing : Lists declared value [] []
  | known {nets : List α} (hsome : nets ≠ []) (hdeclared : declared) :
    Lists declared value nets [⟨Flags.wellKnown, value nets⟩]
  | unknown {nets : List α} (hsome : nets ≠ []) (hnot : ¬declared) :
    Lists declared value nets [⟨Flags.optionalCompact, value nets⟩]

/-- The attributes of a group of bindings of one path and one tag. -/
inductive Announcement (id : NodeId) (caps : List Capability) (group : List Binding) :
    List Attribute → Prop
  | mk {path : List NodeId} {tag : Tag} {list4 list6 : List Attribute}
    (same : ∀ b ∈ group, b.path = path ∧ b.tag = tag.value)
    (announce4 : Lists (.ipv4Unicast ∈ caps) .announce4
      ((group.map Binding.net).filterMap Network.v4?) list4)
    (announce6 : Lists (.ipv6Unicast ∈ caps) .announce6
      ((group.map Binding.net).filterMap Network.v6?) list6) :
    Announcement id caps group
      (⟨Flags.wellKnown, .path (id :: path)⟩ :: ⟨Flags.wellKnown, .tag tag⟩ :: (list4 ++ list6))

/-- The layout of an update: what is withdrawn, then one announcement for each maximal run of
bindings of one path and one tag. -/
inductive LaidOut (id : NodeId) (caps : List Capability) (delete add : List Binding) :
    List Attribute → Prop
  | mk {list4 list6 : List Attribute} {announcements : List (List Attribute)}
    (withdraw4 : Lists True .withdraw4 ((delete.map Binding.net).filterMap Network.v4?) list4)
    (withdraw6 : Lists True .withdraw6 ((delete.map Binding.net).filterMap Network.v6?) list6)
    (runs : List.Forall₂ (Announcement id caps) (add.splitBy Binding.joins) announcements) :
    LaidOut id caps delete add (list4 ++ list6 ++ announcements.flatten)

theorem lists_listed {α : Type} {declared : Prop} {flags : UInt8}
    {value : List α → AttributeValue} (nets : List α)
    (hflags : declared ∧ flags = Flags.wellKnown ∨ ¬declared ∧ flags = Flags.optionalCompact) :
    Lists declared value nets (listed flags value nets) := by
  cases nets with
  | nil => exact .nothing
  | cons net nets =>
    rcases hflags with ⟨hdeclared, rfl⟩ | ⟨hnot, rfl⟩
    · exact .known (by simp) hdeclared
    · exact .unknown (by simp) hnot

theorem announceFlags_eq (caps : List Capability) (family : Capability) :
    family ∈ caps ∧ announceFlags caps family = Flags.wellKnown ∨
      family ∉ caps ∧ announceFlags caps family = Flags.optionalCompact := by
  by_cases h : family ∈ caps <;> simp [announceFlags, h]

theorem announcement_of_gathers {run : Run} {group : List Binding} (h : run.Gathers group)
    (hattrs : announced id caps run = .ok attrs) : Announcement id caps group attrs := by
  obtain ⟨tag, htag, hattrs⟩ := Except.bind_eq_ok.1 hattrs
  cases hattrs
  have hvalue : run.tag = tag.value := UInt16.toNat_inj.1 (Tag.of?_eq_ok_iff.1 htag)
  rw [List.append_assoc, h.nets]
  show Announcement id caps group (_ :: _ :: (listed _ _ _ ++ listed _ _ _))
  refine .mk (fun b hb => ?_) (lists_listed _ (announceFlags_eq caps _))
    (lists_listed _ (announceFlags_eq caps _))
  obtain ⟨hpath, htag⟩ := h.same b hb
  exact ⟨hpath, htag.trans hvalue⟩

theorem announcements_of_gathers {runs : List Run} {groups : List (List Binding)}
    (h : List.Forall₂ Run.Gathers runs groups) {parts : List (List Attribute)}
    (hparts : runs.mapM (announced id caps) = .ok parts) :
    List.Forall₂ (Announcement id caps) groups parts := by
  rw [Except.mapM_eq_ok] at hparts
  induction h generalizing parts with
  | nil =>
    cases hparts
    exact .nil
  | cons hfirst _ ih =>
    cases hparts with
    | cons hfront hback => exact .cons (announcement_of_gathers hfirst hfront) (ih hback)

theorem laidOut_compose (h : compose id caps filter delete add = .ok attrs) :
    LaidOut id caps delete (add.filter fun b => !filter b) attrs := by
  obtain ⟨parts, hparts, h⟩ := Except.bind_eq_ok.1 h
  cases h
  exact .mk (lists_listed _ (.inl ⟨trivial, rfl⟩)) (lists_listed _ (.inl ⟨trivial, rfl⟩))
    (announcements_of_gathers (Run.gathers_splitBy _) hparts)

/-- What goes into an update, as the reader files it. -/
def told (id : NodeId) (stamp : Instant) (filter : Filter) (delete add : List Binding) :
    Changes where
  add := (add.filter fun b => !filter b).map (Binding.relayed id stamp)
  delete := delete.map Binding.net

theorem heard_matches (id : NodeId) (stamp : Instant) (filter : Filter)
    (delete add : List Binding) :
    (heard id stamp filter delete add).Matches (told id stamp filter delete add) where
  delete := Network.filter_byFamily _
  add v4 := by
    have hrun (run : Run) (nets : List Network) :
        ((run.relayed id stamp nets).filter fun b => b.net.isV4 == v4) =
          run.relayed id stamp (nets.filter fun net => net.isV4 == v4) := by
      rw [Run.relayed, List.filter_map]
      rfl
    rw [told, ← Run.relayed_ofBindings, heard, List.filter_flatMap, List.filter_flatMap]
    simp only [hrun, Network.filter_byFamily]

/-- A composed update withdraws in one list for each family and then announces the maximal runs of
the bindings that pass, each with its path behind the id, its tag and one list for each family. It is
read as what went into it. Only a reserved tag keeps an update from being composed. -/
theorem compose_laidOut (id : NodeId) (caps : List Capability) (filter : Filter)
    (delete add : List Binding) :
    (∀ attrs, compose id caps filter delete add = .ok attrs →
      LaidOut id caps delete (add.filter fun b => !filter b) attrs ∧
        ∀ stamp, ∃ c, changes stamp attrs = .ok c ∧
          c.Matches (told id stamp filter delete add)) ∧
    ((∃ f, compose id caps filter delete add = .error f) ↔
      ∃ b ∈ add, filter b = false ∧ ¬(2 ≤ b.tag.toNat ∧ b.tag.toNat ≤ 65519)) := by
  refine ⟨fun attrs h => ⟨laidOut_compose h, fun stamp =>
    ⟨_, changes_compose_eq h stamp, heard_matches id stamp filter delete add⟩⟩, ?_⟩
  rw [Except.exists_error_iff, exists_compose_iff]
  simp only [Binding.tagged_iff]
  push Not
  rfl

end Update

end TagExchange
