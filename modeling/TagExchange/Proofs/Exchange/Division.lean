import TagExchange.Proofs.Exchange.Updates
import TagExchange.Proofs.RoundTrip.Sizes

/-!
# When a division into frames succeeds

Changes are divided until every part fits, so the division comes to an end at single changes. If
parts can only be too large, and what fits in one frame fits one by one, then there are frames
exactly when every single change fits in a frame of its own (`Composer.frames_ok_iff`), and a
division that fails does so with a fault of size (`Composer.kind_of_frames_error`).
-/

namespace TagExchange

namespace Composer

variable {compose : Composer} {delete add : List Binding}

/-- A part goes into one frame. -/
def Fits (compose : Composer) (part : Part) : Prop := ∃ frame, Carries compose part frame

/-- A part makes a message that is too large for a frame. -/
def Overflows (compose : Composer) (part : Part) : Prop :=
  ∃ m f, compose part.1 part.2 = .ok m ∧ m.frame = .error f ∧ f.kind = .tooLarge

/-- What is taken of the changes goes into one frame or is too large. -/
def Sized (compose : Composer) (delete add : List Binding) : Prop :=
  ∀ ⦃d a⦄, d ⊆ delete → a ⊆ add → compose.Fits (d, a) ∨ compose.Overflows (d, a)

/-- Every single change goes into a frame of its own. -/
structure FitsSingly (compose : Composer) (delete add : List Binding) : Prop where
  delete : ∀ b ∈ delete, compose.Fits ([b], [])
  add : ∀ b ∈ add, compose.Fits ([], [b])

/-- A division succeeds, or it fails on size and the condition does not hold. -/
def Settled (P : Prop) (x : Except Fault (List Bytes)) : Prop :=
  (∃ fs, x = .ok fs) ∨ (∃ f, x = .error f ∧ f.kind = .tooLarge) ∧ ¬P

theorem Settled.append {P Q R : Prop} {x y : Except Fault (List Bytes)} (hx : Settled P x)
    (hy : Settled Q y) (himp : R → P ∧ Q) : Settled R (do return (← x) ++ (← y)) := by
  rcases hx with ⟨front, rfl⟩ | ⟨⟨f, rfl, hf⟩, hnot⟩
  · rcases hy with ⟨back, rfl⟩ | ⟨⟨f, rfl, hf⟩, hnot⟩
    · exact .inl ⟨front ++ back, rfl⟩
    · exact .inr ⟨⟨f, rfl, hf⟩, fun hR => hnot (himp hR).2⟩
  · exact .inr ⟨⟨f, rfl, hf⟩, fun hR => hnot (himp hR).1⟩

theorem FitsSingly.mono {d a : List Binding} (h : FitsSingly compose delete add)
    (hd : d ⊆ delete) (ha : a ⊆ add) : FitsSingly compose d a :=
  ⟨fun b hb => h.delete b (hd hb), fun b hb => h.add b (ha hb)⟩

theorem Sized.mono {d a : List Binding} (h : Sized compose delete add) (hd : d ⊆ delete)
    (ha : a ⊆ add) : Sized compose d a :=
  fun _ _ hd' ha' => h (List.Subset.trans hd' hd) (List.Subset.trans ha' ha)

/-- A part of a single change. -/
theorem FitsSingly.fits (h : FitsSingly compose delete add) (hsome : ¬(delete = [] ∧ add = []))
    (hone : delete.length + add.length ≤ 1) : compose.Fits (delete, add) := by
  cases delete with
  | nil =>
    have hpos : 0 < add.length := List.length_pos_iff.2 fun hnone => hsome ⟨rfl, hnone⟩
    obtain ⟨b, rfl⟩ : ∃ b, add = [b] := List.length_eq_one_iff.1 (by simp at hone; omega)
    exact h.add b (by simp)
  | cons b rest =>
    simp only [List.length_cons] at hone
    obtain rfl : rest = [] := List.eq_nil_of_length_eq_zero (by omega)
    obtain rfl : add = [] := List.eq_nil_of_length_eq_zero (by omega)
    exact h.delete b (by simp)

/-- Only a single change can be what a division fails on. -/
theorem frames_settled (h : Sized compose delete add) :
    Settled (FitsSingly compose delete add) (frames compose delete add) := by
  fun_induction frames compose delete add with
  | case1 => exact .inl ⟨[], rfl⟩
  | case2 delete add _ f hf =>
    rcases h (List.Subset.refl _) (List.Subset.refl _) with ⟨_, m, hm, -⟩ | ⟨m, _, hm, -⟩ <;>
    · rw [hf] at hm
      cases hm
  | case3 => exact .inl ⟨_, rfl⟩
  | case4 delete add _ m hm f hframe _ hboth ihdelete ihadd =>
    have hfront := ihdelete (h.mono (List.Subset.refl _) (List.nil_subset _))
    have hback := ihadd (h.mono (List.nil_subset _) (List.Subset.refl _))
    exact hfront.append hback fun hall =>
      ⟨hall.mono (List.Subset.refl _) (List.nil_subset _),
        hall.mono (List.nil_subset _) (List.Subset.refl _)⟩
  | case5 delete add _ m hm f hframe _ hboth hlong half ihfront =>
    rename_i ihback
    have htake := List.take_subset half delete
    have hdrop := List.drop_subset half delete
    exact (ihfront (h.mono htake (List.nil_subset _))).append
      (ihback (h.mono hdrop (List.nil_subset _))) fun hall =>
      ⟨hall.mono htake (List.nil_subset _), hall.mono hdrop (List.nil_subset _)⟩
  | case6 delete add _ m hm f hframe _ hboth hshort half ihfront =>
    rename_i ihback
    have htake := List.take_subset half add
    have hdrop := List.drop_subset half add
    exact (ihfront (h.mono (List.nil_subset _) htake)).append
      (ihback (h.mono (List.nil_subset _) hdrop)) fun hall =>
      ⟨hall.mono (List.nil_subset _) htake, hall.mono (List.nil_subset _) hdrop⟩
  | case7 delete add hsome m hm f hframe hsmall =>
    have hfits : ¬compose.Fits (delete, add) := by
      rintro ⟨frame, m', hm', hframe'⟩
      rw [hm] at hm'
      cases hm'
      rw [hframe] at hframe'
      cases hframe'
    rcases h (List.Subset.refl _) (List.Subset.refl _) with hin | ⟨m', f', hm', hframe', hlarge⟩
    · exact absurd hin hfits
    · rw [hm] at hm'
      cases hm'
      rw [hframe] at hframe'
      cases hframe'
      refine .inr ⟨⟨f, rfl, hlarge⟩, fun hall => hfits ?_⟩
      have hone : delete.length + add.length ≤ 1 := by
        by_contra hmany
        exact hsmall ⟨hlarge, by omega⟩
      exact hall.fits hsome hone

/-- There are frames exactly when every single change fits, if what fits together fits singly. -/
theorem frames_ok_iff (h : FitsSingly compose delete add → Sized compose delete add)
    (hsingly : ∀ {d a}, d ⊆ delete → a ⊆ add → compose.Fits (d, a) → FitsSingly compose d a) :
    (∃ fs, frames compose delete add = .ok fs) ↔ FitsSingly compose delete add := by
  constructor
  · rintro ⟨fs, hfs⟩
    obtain ⟨parts, rfl, rfl, hcarries⟩ := frames_parts hfs
    have hpart : ∀ part ∈ parts, FitsSingly compose part.1 part.2 := by
      intro part hpart
      obtain ⟨frame, -, hframe⟩ := exists_of_mem_left hcarries hpart
      apply hsingly _ _ ⟨frame, hframe⟩
      · exact fun b hb => List.mem_flatMap.2 ⟨part, hpart, hb⟩
      · exact fun b hb => List.mem_flatMap.2 ⟨part, hpart, hb⟩
    refine ⟨?_, ?_⟩
    · intro b hb
      obtain ⟨part, hmem, hb⟩ := List.mem_flatMap.1 hb
      exact (hpart part hmem).delete b hb
    · intro b hb
      obtain ⟨part, hmem, hb⟩ := List.mem_flatMap.1 hb
      exact (hpart part hmem).add b hb
  · intro hall
    rcases frames_settled (h hall) with hok | ⟨-, hnot⟩
    · exact hok
    · exact absurd hall hnot

theorem kind_of_frames_error (h : Sized compose delete add) {f : Fault}
    (hf : frames compose delete add = .error f) : f.kind = .tooLarge := by
  rcases frames_settled h with ⟨fs, hfs⟩ | ⟨⟨f', hf', hkind⟩, -⟩
  · rw [hf] at hfs
    cases hfs
  · rw [hf] at hf'
    cases hf'
    exact hkind

end Composer

end TagExchange
