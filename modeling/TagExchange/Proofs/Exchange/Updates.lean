import TagExchange.Proofs.RoundTrip.Messages
import TagExchange.Update.Frames

/-!
# What a composed update says

Reading the attributes of an update that was composed gives back the deletions and the additions,
each addition with the id of the sender in front of its path and with the stamp of the reading
(`Update.changes_compose`). Within a run the networks come sorted by family, so the order is not
kept. The frames that changes are divided into carry them part by part (`Composer.frames_parts`).
-/

namespace TagExchange

/-- A binding as a peer files it: one hop further, at the time it was heard. -/
def Binding.relayed (id : NodeId) (stamp : Instant) (b : Binding) : Binding :=
  { b with path := id :: b.path, stamp }

namespace Network

/-- IPv4 before IPv6, in the given order. -/
def byFamily (nets : List Network) : List Network :=
  (nets.filterMap v4?).map v4 ++ (nets.filterMap v6?).map v6

theorem byFamily_perm (nets : List Network) : (byFamily nets).Perm nets := by
  induction nets with
  | nil => rfl
  | cons n nets ih =>
    cases n with
    | v4 n => exact ih.cons (v4 n)
    | v6 n =>
      have hfront : byFamily (v6 n :: nets) =
          (nets.filterMap v4?).map v4 ++ v6 n :: (nets.filterMap v6?).map v6 := rfl
      rw [hfront]
      exact List.perm_middle.trans (ih.cons (v6 n))

end Network

namespace Run

/-- The bindings of a run as a peer files them. -/
def relayed (id : NodeId) (stamp : Instant) (r : Run) (nets : List Network) : List Binding :=
  nets.map fun net => ⟨net, r.tag, id :: r.path, stamp⟩

theorem relayed_cons (id : NodeId) (stamp : Instant) (b : Binding) (runs : List Run) :
    (cons b runs).flatMap (fun r => r.relayed id stamp r.nets) =
      b.relayed id stamp :: runs.flatMap fun r => r.relayed id stamp r.nets := by
  cases runs with
  | nil => rfl
  | cons r rest =>
    rw [cons]
    split
    · next hfits =>
      obtain ⟨hpath, htag⟩ := hfits
      simp [relayed, Binding.relayed, hpath, htag]
    · rfl

/-- Runs keep the bindings and their order. -/
theorem relayed_ofBindings (id : NodeId) (stamp : Instant) (bs : List Binding) :
    (ofBindings bs).flatMap (fun r => r.relayed id stamp r.nets) =
      bs.map (Binding.relayed id stamp) := by
  induction bs with
  | nil => rfl
  | cons b bs ih =>
    have hcons : ofBindings (b :: bs) = cons b (ofBindings bs) := rfl
    rw [hcons, relayed_cons, ih]
    rfl

end Run

namespace Update

theorem foldlM_listed {α : Type} (stamp : Instant) (flags : UInt8)
    (value : List α → AttributeValue) {r : Reading} (heard : List α → Reading)
    (hnext : ∀ (f : UInt8) (xs : List α),
      Reading.next stamp r (.of f (value xs)) = .ok (heard xs))
    (hnone : heard [] = r) (xs : List α) :
    (listed flags value xs).foldlM (Reading.next stamp) r = .ok (heard xs) := by
  cases xs with
  | nil =>
    rw [hnone]
    rfl
  | cons x xs =>
    show Reading.next stamp r (.of flags (value (x :: xs))) >>= pure = _
    rw [hnext]
    rfl

theorem withdraw_nil (r : Reading) : r.withdraw [] = r := by
  simp [Reading.withdraw]

theorem withdraw_append (r : Reading) (xs ys : List Network) :
    (r.withdraw xs).withdraw ys = r.withdraw (xs ++ ys) := by
  simp [Reading.withdraw]

theorem foldlM_withdrawn (stamp : Instant) (delete : List Binding) (r : Reading) :
    (withdrawn delete).foldlM (Reading.next stamp) r =
      .ok (r.withdraw (Network.byFamily (delete.map Binding.net))) := by
  have h4 := foldlM_listed stamp Flags.wellKnown AttributeValue.withdraw4
    (fun xs => r.withdraw (xs.map .v4)) (fun _ _ => rfl) (withdraw_nil r)
    ((delete.map Binding.net).filterMap Network.v4?)
  have h6 (r : Reading) := foldlM_listed stamp Flags.wellKnown AttributeValue.withdraw6
    (fun xs => r.withdraw (xs.map .v6)) (fun _ _ => rfl) (withdraw_nil r)
    ((delete.map Binding.net).filterMap Network.v6?)
  rw [withdrawn, List.foldlM_append, h4]
  show List.foldlM _ _ _ = _
  rw [h6, withdraw_append]
  rfl

/-- A reading with more bindings added. -/
def plus (r : Reading) (added : List Binding) : Reading :=
  { r with changes := { r.changes with add := r.changes.add ++ added } }

theorem plus_nil (r : Reading) : plus r [] = r := by simp [plus]

/-- A run is read as its path, its tag and its networks. -/
theorem foldlM_announced (stamp : Instant) {id : NodeId} {caps : List Capability} {run : Run}
    {attrs : List Attribute} (h : announced id caps run = .ok attrs) (r : Reading) :
    ∃ tag, attrs.foldlM (Reading.next stamp) r =
      .ok (plus { r with path := some (id :: run.path), tag := some tag }
        (run.relayed id stamp (Network.byFamily run.nets))) := by
  obtain ⟨tag, htag, h⟩ := Except.bind_eq_ok.1 h
  have hvalue : run.tag = tag.value := UInt16.toNat_inj.1 (Tag.of?_eq_ok_iff.1 htag)
  refine ⟨tag, ?_⟩
  cases h
  have h4 (c : Changes) := foldlM_listed stamp (announceFlags caps .ipv4Unicast)
    AttributeValue.announce4
    (fun xs => plus ⟨some (id :: run.path), some tag, c⟩ (run.relayed id stamp (xs.map .v4)))
    (fun f xs => by
      simp [Reading.next, Attribute.of, Reading.announce, Run.relayed, plus, hvalue])
    (plus_nil _) (run.nets.filterMap Network.v4?)
  have h6 (c : Changes) := foldlM_listed stamp (announceFlags caps .ipv6Unicast)
    AttributeValue.announce6
    (fun xs => plus ⟨some (id :: run.path), some tag, c⟩ (run.relayed id stamp (xs.map .v6)))
    (fun f xs => by
      simp [Reading.next, Attribute.of, Reading.announce, Run.relayed, plus, hvalue])
    (plus_nil _) (run.nets.filterMap Network.v6?)
  rw [List.foldlM_append, List.foldlM_append]
  show List.foldlM _ _ _ >>= _ = _
  rw [h4]
  show List.foldlM _ _ _ = _
  rw [plus, h6]
  simp [Network.byFamily, Run.relayed, plus]

theorem foldlM_runs (stamp : Instant) {id : NodeId} {caps : List Capability} {runs : List Run}
    {parts : List (List Attribute)} (h : runs.mapM (announced id caps) = .ok parts)
    (r : Reading) : ∃ r', parts.flatten.foldlM (Reading.next stamp) r = .ok r' ∧
      r'.changes.delete = r.changes.delete ∧ r'.changes.add = r.changes.add ++
        runs.flatMap fun run => run.relayed id stamp (Network.byFamily run.nets) := by
  induction runs generalizing parts r with
  | nil =>
    cases h
    exact ⟨r, rfl, rfl, by simp⟩
  | cons run runs ih =>
    rw [List.mapM_cons] at h
    obtain ⟨front, hfront, h⟩ := Except.bind_eq_ok.1 h
    obtain ⟨back, hback, h⟩ := Except.bind_eq_ok.1 h
    cases h
    obtain ⟨tag, hread⟩ := foldlM_announced stamp hfront r
    obtain ⟨r', hrest, hdelete, hadd⟩ := ih hback
      (plus { r with path := some (id :: run.path), tag := some tag }
        (run.relayed id stamp (Network.byFamily run.nets)))
    refine ⟨r', ?_, hdelete, ?_⟩
    · rw [List.flatten_cons, List.foldlM_append, hread]
      exact hrest
    · rw [hadd]
      simp [plus]

/-- What a reader makes of the update that was composed of deletions and additions. -/
def heard (id : NodeId) (stamp : Instant) (filter : Filter) (delete add : List Binding) :
    Changes where
  add := (Run.ofBindings (add.filter fun b => !filter b)).flatMap fun run =>
    run.relayed id stamp (Network.byFamily run.nets)
  delete := Network.byFamily (delete.map Binding.net)

theorem changes_compose_eq {id : NodeId} {caps : List Capability} {filter : Filter}
    {delete add : List Binding} {attrs : List Attribute}
    (h : compose id caps filter delete add = .ok attrs) (stamp : Instant) :
    changes stamp attrs = .ok (heard id stamp filter delete add) := by
  obtain ⟨parts, hparts, h⟩ := Except.bind_eq_ok.1 h
  cases h
  obtain ⟨r', hread, hdelete, hadd⟩ := foldlM_runs stamp hparts
    (({} : Reading).withdraw (Network.byFamily (delete.map Binding.net)))
  have hheard : r'.changes = heard id stamp filter delete add := by
    obtain ⟨_, _, add', delete'⟩ := r'
    exact congrArg₂ Changes.mk hadd hdelete
  rw [changes, List.foldlM_append, foldlM_withdrawn]
  show Except.map Reading.changes (List.foldlM _ _ _) = _
  rw [hread, ← hheard]
  rfl

/-- An update that was composed is read as the deletions and the additions that went into it. -/
theorem changes_compose {id : NodeId} {caps : List Capability} {filter : Filter}
    {delete add : List Binding} {attrs : List Attribute}
    (h : compose id caps filter delete add = .ok attrs) (stamp : Instant) :
    ∃ c, changes stamp attrs = .ok c ∧ c.delete.Perm (delete.map Binding.net) ∧
      c.add.Perm ((add.filter fun b => !filter b).map (Binding.relayed id stamp)) := by
  refine ⟨_, changes_compose_eq h stamp, Network.byFamily_perm _, ?_⟩
  rw [← Run.relayed_ofBindings]
  refine List.Perm.flatMap_left _ fun run _ => ?_
  exact (Network.byFamily_perm run.nets).map _

end Update

/-- An attribute that updates are composed of: legible, and in one of the compact layouts. -/
structure Attribute.Composed (a : Attribute) : Prop where
  legible : a.Legible
  compact : Flags.has a.flags Flags.compact = true
  code : a.value.code ≤ 255

theorem Attribute.composed_of {flags : UInt8} {v : AttributeValue}
    (hflags : Flags.has flags Flags.compact = true) (hvalue : v.Legible) (hcode : v.code ≤ 255) :
    (of flags v).Composed where
  legible := legible_of flags hvalue
  compact := (Flags.has_compact_clear_extended flags).trans hflags
  code := hcode

namespace Update

theorem composed_listed {α : Type} {flags : UInt8} {value : List α → AttributeValue} {xs : List α}
    (hflags : Flags.has flags Flags.compact = true) (hvalue : (value xs).Legible)
    (hcode : (value xs).code ≤ 255) {a : Attribute} (ha : a ∈ listed flags value xs) :
    a.Composed := by
  rw [listed] at ha
  split at ha
  · cases ha
  · rw [List.mem_singleton.1 ha]
    exact Attribute.composed_of hflags hvalue hcode

theorem composed_withdrawn {delete : List Binding} {a : Attribute} (ha : a ∈ withdrawn delete) :
    a.Composed := by
  have hflags : Flags.has Flags.wellKnown Flags.compact = true := by decide
  rw [withdrawn, List.mem_append] at ha
  rcases ha with ha | ha
  · refine composed_listed hflags ?_ ?_ ha
    · trivial
    · simp [AttributeValue.code, AttributeKind.code]
  · refine composed_listed hflags ?_ ?_ ha
    · trivial
    · simp [AttributeValue.code, AttributeKind.code]

theorem has_compact_announceFlags (caps : List Capability) (family : Capability) :
    Flags.has (announceFlags caps family) Flags.compact = true := by
  rw [announceFlags]
  split <;> decide

theorem composed_announced {id : NodeId} {caps : List Capability} {run : Run}
    {attrs : List Attribute} (h : announced id caps run = .ok attrs) {a : Attribute}
    (ha : a ∈ attrs) : a.Composed := by
  obtain ⟨tag, -, h⟩ := Except.bind_eq_ok.1 h
  cases h
  simp only [List.mem_append, List.mem_pair] at ha
  rcases ha with ((rfl | rfl) | ha) | ha
  · exact Attribute.composed_of (by decide) trivial
      (by simp [AttributeValue.code, AttributeKind.code])
  · exact Attribute.composed_of (by decide) trivial
      (by simp [AttributeValue.code, AttributeKind.code])
  · refine composed_listed (has_compact_announceFlags _ _) ?_ ?_ ha
    · trivial
    · simp [AttributeValue.code, AttributeKind.code]
  · refine composed_listed (has_compact_announceFlags _ _) ?_ ?_ ha
    · trivial
    · simp [AttributeValue.code, AttributeKind.code]

theorem exists_of_mem_mapM {α β : Type} {f : α → Except Fault β} {xs : List α} {ys : List β}
    (h : xs.mapM f = .ok ys) {y : β} (hy : y ∈ ys) : ∃ x ∈ xs, f x = .ok y :=
  exists_of_mem_right (Except.mapM_eq_ok.1 h) hy

theorem exists_mem_of_mapM {α β : Type} {f : α → Except Fault β} {xs : List α} {ys : List β}
    (h : xs.mapM f = .ok ys) {x : α} (hx : x ∈ xs) : ∃ y ∈ ys, f x = .ok y :=
  exists_of_mem_left (Except.mapM_eq_ok.1 h) hx

theorem exists_mapM {α β : Type} {f : α → Except Fault β} {xs : List α}
    (h : ∀ x ∈ xs, ∃ y, f x = .ok y) : ∃ ys, xs.mapM f = .ok ys := by
  obtain ⟨ys, hys⟩ := exists_forall₂ h
  exact ⟨ys, Except.mapM_eq_ok.2 hys⟩

theorem composed_compose {id : NodeId} {caps : List Capability} {filter : Filter}
    {delete add : List Binding} {attrs : List Attribute}
    (h : compose id caps filter delete add = .ok attrs) : ∀ a ∈ attrs, a.Composed := by
  intro a ha
  obtain ⟨parts, hparts, h⟩ := Except.bind_eq_ok.1 h
  cases h
  rw [List.mem_append] at ha
  rcases ha with ha | ha
  · exact composed_withdrawn ha
  · obtain ⟨part, hpart, ha⟩ := List.mem_flatten.1 ha
    obtain ⟨run, -, hannounced⟩ := exists_of_mem_mapM hparts hpart
    exact composed_announced hannounced ha

end Update

/-- Deletions and additions that travel in one frame. -/
abbrev Part := List Binding × List Binding

namespace Composer

variable {compose : Composer}

/-- A frame is the message of some deletions and additions. -/
def Carries (compose : Composer) (part : Part) (frame : Bytes) : Prop :=
  ∃ m, compose part.1 part.2 = .ok m ∧ m.frame = .ok frame

theorem parts_append {parts parts' : List Part} {fs fs' : List Bytes}
    {delete delete' add add' : List Binding}
    (h : parts.flatMap Prod.fst = delete ∧ parts.flatMap Prod.snd = add ∧
      List.Forall₂ (Carries compose) parts fs)
    (h' : parts'.flatMap Prod.fst = delete' ∧ parts'.flatMap Prod.snd = add' ∧
      List.Forall₂ (Carries compose) parts' fs') :
    (parts ++ parts').flatMap Prod.fst = delete ++ delete' ∧
      (parts ++ parts').flatMap Prod.snd = add ++ add' ∧
      List.Forall₂ (Carries compose) (parts ++ parts') (fs ++ fs') := by
  obtain ⟨hdelete, hadd, hcarries⟩ := h
  obtain ⟨hdelete', hadd', hcarries'⟩ := h'
  rw [List.flatMap_append, List.flatMap_append, hdelete, hadd, hdelete', hadd']
  exact ⟨rfl, rfl, List.rel_append hcarries hcarries'⟩

theorem frames_of_frame {delete add : List Binding} {m : Message} {frame : Bytes}
    (hsome : ¬(delete = [] ∧ add = [])) (hm : compose delete add = .ok m)
    (hframe : m.frame = .ok frame) : compose.frames delete add = .ok [frame] := by
  rw [frames, if_neg hsome, hm]
  dsimp only
  rw [hframe]

/-- Two calls after each other: the parts of the first and then those of the second. -/
theorem parts_of_halves {front back : Except Fault (List Bytes)} {fs : List Bytes}
    {delete delete' add add' : List Binding}
    (h : (do return (← front) ++ (← back)) = Except.ok fs)
    (hfront : ∀ {fs}, front = .ok fs → ∃ parts, parts.flatMap Prod.fst = delete ∧
      parts.flatMap Prod.snd = add ∧ List.Forall₂ (Carries compose) parts fs)
    (hback : ∀ {fs}, back = .ok fs → ∃ parts, parts.flatMap Prod.fst = delete' ∧
      parts.flatMap Prod.snd = add' ∧ List.Forall₂ (Carries compose) parts fs) :
    ∃ parts, parts.flatMap Prod.fst = delete ++ delete' ∧ parts.flatMap Prod.snd = add ++ add' ∧
      List.Forall₂ (Carries compose) parts fs := by
  obtain ⟨first, hfirst, h⟩ := Except.bind_eq_ok.1 h
  obtain ⟨second, hsecond, h⟩ := Except.bind_eq_ok.1 h
  cases h
  obtain ⟨parts, hparts⟩ := hfront hfirst
  obtain ⟨parts', hparts'⟩ := hback hsecond
  exact ⟨_, parts_append hparts hparts'⟩

/-- The frames carry the deletions and the additions, part by part and in order. -/
theorem frames_parts {delete add : List Binding} {fs : List Bytes}
    (h : frames compose delete add = .ok fs) : ∃ parts,
      parts.flatMap Prod.fst = delete ∧ parts.flatMap Prod.snd = add ∧
        List.Forall₂ (Carries compose) parts fs := by
  fun_induction frames compose delete add generalizing fs with
  | case1 delete add hnone =>
    obtain ⟨rfl, rfl⟩ := hnone
    cases h
    exact ⟨[], rfl, rfl, .nil⟩
  | case2 => cases h
  | case3 delete add _ m hm frame hframe =>
    cases h
    exact ⟨[(delete, add)], by simp, by simp, .cons ⟨m, hm, hframe⟩ .nil⟩
  | case4 delete add _ m hm f hframe _ hboth ihdelete ihadd =>
    obtain ⟨parts, hparts⟩ := parts_of_halves h ihdelete ihadd
    rw [List.append_nil, List.nil_append] at hparts
    exact ⟨parts, hparts⟩
  | case5 delete add _ m hm f hframe _ hboth hlong half ihfront =>
    rename_i ihback
    obtain ⟨parts, hparts⟩ := parts_of_halves h ihfront ihback
    have hnone : add = [] := by
      by_contra hadd
      exact hboth ⟨List.ne_nil_of_length_pos (by omega), hadd⟩
    rw [List.take_append_drop, List.append_nil, ← hnone] at hparts
    exact ⟨parts, hparts⟩
  | case6 delete add _ m hm f hframe hlarge hboth hshort half ihfront =>
    rename_i ihback
    obtain ⟨parts, hparts⟩ := parts_of_halves h ihfront ihback
    have hnone : delete = [] := by
      by_contra hdelete
      have hpos := List.length_pos_iff.2 hdelete
      exact hboth ⟨hdelete, List.ne_nil_of_length_pos (by omega)⟩
    rw [List.take_append_drop, List.append_nil, ← hnone] at hparts
    exact ⟨parts, hparts⟩
  | case7 => cases h

/-- As `frames_parts`, and no deletion comes after an addition. -/
theorem frames_parts_ordered {delete add : List Binding} {fs : List Bytes}
    (h : frames compose delete add = .ok fs) : ∃ parts,
      parts.flatMap Prod.fst = delete ∧ parts.flatMap Prod.snd = add ∧
        List.Forall₂ (Carries compose) parts fs ∧
        parts.Pairwise fun p q => p.2 = [] ∨ q.1 = [] := by
  by_cases hboth : delete ≠ [] ∧ add ≠ []
  · rw [frames, if_neg fun hnone => hboth.1 hnone.1] at h
    split at h
    · cases h
    · next m hm =>
      split at h
      · next frame hframe =>
        cases h
        exact ⟨[(delete, add)], by simp, by simp, .cons ⟨m, hm, hframe⟩ .nil, by simp⟩
      · split at h
        · obtain ⟨front, hfront, h⟩ := Except.bind_eq_ok.1 h
          obtain ⟨back, hback, h⟩ := Except.bind_eq_ok.1 h
          cases h
          obtain ⟨parts, hparts⟩ := frames_parts hfront
          obtain ⟨parts', hparts'⟩ := frames_parts hback
          have hall := parts_append hparts hparts'
          rw [List.append_nil, List.nil_append] at hall
          have hnone := List.flatMap_eq_nil_iff.1 hparts.2.1
          have hnone' := List.flatMap_eq_nil_iff.1 hparts'.1
          refine ⟨_, hall.1, hall.2.1, hall.2.2, List.pairwise_append.2 ⟨?_, ?_, ?_⟩⟩
          · exact List.pairwise_of_forall_mem_list fun p hp q _ => .inl (hnone p hp)
          · exact List.pairwise_of_forall_mem_list fun p _ q hq => .inr (hnone' q hq)
          · exact fun p hp q _ => .inl (hnone p hp)
        · cases h
  · obtain ⟨parts, hdelete, hadd, hcarries⟩ := frames_parts h
    refine ⟨parts, hdelete, hadd, hcarries, ?_⟩
    rw [not_and_or, not_not, not_not] at hboth
    apply List.pairwise_of_forall_mem_list
    intro p hp q hq
    rcases hboth with rfl | rfl
    · exact .inr (List.flatMap_eq_nil_iff.1 hdelete q hq)
    · exact .inl (List.flatMap_eq_nil_iff.1 hadd p hp)

/-- Every frame carries some of the deletions and additions. -/
theorem carries_of_mem_frames {delete add : List Binding} {fs : List Bytes}
    (h : frames compose delete add = .ok fs) {frame : Bytes} (hframe : frame ∈ fs) :
    ∃ part, Carries compose part frame ∧ (∀ b ∈ part.1, b ∈ delete) ∧ ∀ b ∈ part.2, b ∈ add := by
  obtain ⟨parts, hdelete, hadd, hcarries⟩ := frames_parts h
  obtain ⟨i, rfl⟩ := List.get_of_mem hframe
  have hi : i < parts.length := Nat.lt_of_lt_of_eq i.isLt hcarries.length_eq.symm
  have hmem : parts.get ⟨i, hi⟩ ∈ parts := List.get_mem parts ⟨i, hi⟩
  refine ⟨parts.get ⟨i, hi⟩, hcarries.get hi i.isLt, ?_, ?_⟩
  · intro b hb
    rw [← hdelete]
    exact List.mem_flatMap.2 ⟨_, hmem, hb⟩
  · intro b hb
    rw [← hadd]
    exact List.mem_flatMap.2 ⟨_, hmem, hb⟩

theorem Carries.length_le {part : Part} {frame : Bytes}
    (h : Carries compose part frame) : frame.length ≤ messageLimit := by
  obtain ⟨m, -, hm⟩ := h
  obtain ⟨payload, -, hm⟩ := Except.bind_eq_ok.1 hm
  exact (frame_eq_ok hm).2.2

end Composer

end TagExchange
