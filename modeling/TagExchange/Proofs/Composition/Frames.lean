import TagExchange.Proofs.Composition.Runs
import TagExchange.Proofs.Exchange.Copy

/-!
# What the frames of an update say together

However far changes have to be divided, the frames lose nothing and invent nothing: read one after
the other they say what went into them, family by family and in order, and no frame that announces
comes before one that withdraws. There are frames exactly when each change goes into one alone
(`Composer.frames_exact`).
-/

namespace TagExchange

namespace Network

theorem isV4_rebuilt (n : Network) : n.rebuilt.isV4 = n.isV4 := by
  cases n <;> rfl

end Network

namespace Changes

/-- Changes one after the other. -/
def concat (cs : List Changes) : Changes where
  add := cs.flatMap add
  delete := cs.flatMap delete

theorem Matches.concat {α : Type} {xs : List α} {f g : α → Changes}
    (h : ∀ x ∈ xs, (f x).Matches (g x)) :
    (Changes.concat (xs.map f)).Matches (Changes.concat (xs.map g)) where
  delete v4 := by
    simp only [Changes.concat, List.flatMap_map, List.filter_flatMap]
    exact List.flatMap_congr fun x hx => (h x hx).delete v4
  add v4 := by
    simp only [Changes.concat, List.flatMap_map, List.filter_flatMap]
    exact List.flatMap_congr fun x hx => (h x hx).add v4

/-- Rebuilding a network does not change its family. -/
theorem Matches.rebuilt {c d : Changes} (h : c.Matches d) : c.rebuilt.Matches d.rebuilt where
  delete v4 := by
    have hfilter (nets : List Network) :
        ((nets.map Network.rebuilt).filter fun net => net.isV4 == v4) =
          (nets.filter fun net => net.isV4 == v4).map Network.rebuilt := by
      rw [List.filter_map]
      congr 2
      funext net
      simp [Network.isV4_rebuilt]
    rw [Changes.rebuilt, Changes.rebuilt, hfilter, hfilter, h.delete]
  add v4 := by
    have hfilter (bs : List Binding) :
        ((bs.map Binding.rebuilt).filter fun b => b.net.isV4 == v4) =
          (bs.filter fun b => b.net.isV4 == v4).map Binding.rebuilt := by
      rw [List.filter_map]
      congr 2
      funext b
      simp [Binding.rebuilt, Network.isV4_rebuilt]
    rw [Changes.rebuilt, Changes.rebuilt, hfilter, hfilter, h.add]

end Changes

namespace Update

variable {id : NodeId} {stamp : Instant} {filter : Filter} {delete add : List Binding}

theorem told_rebuilt (hdelete : ∀ b ∈ delete, b.net.Canonical)
    (hadd : ∀ b ∈ add, b.net.Canonical) :
    (told id stamp filter delete add).rebuilt = told id stamp filter delete add := by
  refine congrArg₂ Changes.mk ?_ ?_
  · simp only [told, List.map_map]
    apply List.map_congr_left
    intro b hb
    have hnet := Network.rebuilt_of_canonical (hadd b (List.mem_filter.1 hb).1)
    simp only [Function.comp_apply, Binding.rebuilt, Binding.relayed, hnet]
  · simp only [told, List.map_map]
    apply List.map_congr_left
    intro b hb
    exact Network.rebuilt_of_canonical (hdelete b hb)

theorem concat_told (parts : List Part) :
    Changes.concat (parts.map fun part => told id stamp filter part.1 part.2) =
      told id stamp filter (parts.flatMap Prod.fst) (parts.flatMap Prod.snd) := by
  simp only [Changes.concat, told, List.flatMap_map, List.filter_flatMap, List.map_flatMap]

end Update

namespace Composer

variable {id : NodeId} {caps : List Capability} {filter : Filter} {delete add : List Binding}

/-- What the update in a frame of version 4 says to a reader. -/
def Says (stamp : Instant) (frame : Bytes) (c : Changes) : Prop :=
  ∃ attrs, Message.ofFrame .v4 frame = .ok (.update attrs) ∧
    Update.changes stamp attrs = .ok c

theorem Carries.told {part : Part} {frame : Bytes}
    (h : Carries (.current id caps filter) part frame) (stamp : Instant) :
    Says stamp frame (Update.heard id stamp filter part.1 part.2).rebuilt := by
  obtain ⟨attrs, hattrs, hread⟩ := h.exists_update
  refine ⟨_, hread, ?_⟩
  rw [Update.changes_rebuilt, Update.changes_compose_eq hattrs stamp]
  rfl

/-- There are frames exactly when every change goes into one alone. They are within the limit, and
what they say one after the other is what went into them; none withdraws after one that
announces. -/
theorem frames_exact (id : NodeId) (caps : List Capability) (filter : Filter)
    (hdelete : ∀ b ∈ delete, b.net.Canonical) (hadd : ∀ b ∈ add, b.net.Canonical) :
    ((∃ fs, (current id caps filter).frames delete add = .ok fs) ↔
      (current id caps filter).FitsSingly delete add) ∧
    ∀ fs, (current id caps filter).frames delete add = .ok fs →
      (∀ frame ∈ fs, frame.length ≤ messageLimit) ∧
      ∀ stamp, ∃ cs, List.Forall₂ (Says stamp) fs cs ∧
        cs.Pairwise (fun c later => c.add = [] ∨ later.delete = []) ∧
        (Changes.concat cs).Matches (Update.told id stamp filter delete add) := by
  refine ⟨current_frames_ok_iff, fun fs hfs => ⟨fun frame hframe => ?_, fun stamp => ?_⟩⟩
  · obtain ⟨part, hcarries, -⟩ := carries_of_mem_frames hfs hframe
    exact hcarries.length_le
  · obtain ⟨parts, hdeletes, hadds, hcarries, hordered⟩ := frames_parts_ordered hfs
    let said (part : Part) : Changes := (Update.heard id stamp filter part.1 part.2).rebuilt
    refine ⟨parts.map said, ?_, ?_, ?_⟩
    · rw [List.forall₂_map_right_iff]
      exact hcarries.flip.imp fun _ _ hframe => Carries.told hframe stamp
    · rw [List.pairwise_map]
      refine hordered.imp fun hor => hor.imp (fun hnone => ?_) fun hnone => ?_
      · simp [said, Update.heard, Changes.rebuilt, hnone, Run.ofBindings]
      · simp [said, Update.heard, Changes.rebuilt, hnone, Network.byFamily]
    · have hmatches : (Changes.concat (parts.map said)).Matches
          (Changes.concat (parts.map fun part =>
            (Update.told id stamp filter part.1 part.2).rebuilt)) :=
        .concat fun part _ => (Update.heard_matches id stamp filter part.1 part.2).rebuilt
      have htold : (parts.map fun part => (Update.told id stamp filter part.1 part.2).rebuilt) =
          parts.map fun part => Update.told id stamp filter part.1 part.2 := by
        apply List.map_congr_left
        intro part hpart
        apply Update.told_rebuilt
        · exact fun b hb => hdelete b (hdeletes ▸ List.mem_flatMap.2 ⟨part, hpart, hb⟩)
        · exact fun b hb => hadd b (hadds ▸ List.mem_flatMap.2 ⟨part, hpart, hb⟩)
      rwa [htold, Update.concat_told, hdeletes, hadds] at hmatches

/-- Three networks that came over 600 hops, two of them with one tag. -/
def farBindings : List Binding :=
  [⟨.v4 ⟨0x0a050000, 16⟩, 100, List.replicate 600 9, ⟨10, 0⟩⟩,
    ⟨.v6 ⟨0x20010db8 <<< 96, 32⟩, 100, List.replicate 600 9, ⟨10, 0⟩⟩,
    ⟨.v4 ⟨0x0a060000, 16⟩, 200, List.replicate 600 9, ⟨10, 0⟩⟩]

theorem canonical_farBindings : ∀ b ∈ farBindings, b.net.Canonical := by
  have hfirst : Net.Canonical (w := 32) ⟨0x0a050000, 16⟩ := by decide
  have hsecond : Net.Canonical (w := 128) ⟨0x20010db8 <<< 96, 32⟩ := by decide
  have hthird : Net.Canonical (w := 32) ⟨0x0a060000, 16⟩ := by decide
  simp only [farBindings, List.forall_mem_cons]
  exact ⟨hfirst, hsecond, hthird, by simp⟩

/-- They do not fit into one frame, but each fits alone. -/
theorem frames_exact_farBindings :
    (∀ b ∈ farBindings, b.net.Canonical) ∧ (∀ b ∈ farBindings, b.net.Canonical) ∧
      ∃ fs, (current 1 [] fun _ => false).frames farBindings farBindings = .ok fs ∧
        (∀ frame ∈ fs, frame.length ≤ messageLimit) ∧
        ∀ stamp, ∃ cs, List.Forall₂ (Says stamp) fs cs ∧
          (Changes.concat cs).Matches
            (Update.told 1 stamp (fun _ => false) farBindings farBindings) := by
  obtain ⟨hok, hall⟩ := frames_exact 1 [] (fun _ => false) canonical_farBindings
    canonical_farBindings
  have hsingly : (current 1 [] fun _ => false).FitsSingly farBindings farBindings := by
    refine ⟨fun b _ => current_fits_delete b, ?_⟩
    have hadds : ∀ b ∈ farBindings, b.Tagged ∧ b.load + 25 ≤ messageLimit := by
      simp only [Binding.tagged_iff]
      decide +kernel
    exact fun b hb => (current_fits_add (hadds b hb).1 rfl).2 (hadds b hb).2
  obtain ⟨fs, hfs⟩ := hok.2 hsingly
  obtain ⟨hlimit, hsaid⟩ := hall fs hfs
  refine ⟨canonical_farBindings, canonical_farBindings, fs, hfs, hlimit, fun stamp => ?_⟩
  obtain ⟨cs, hcs, -, hmatches⟩ := hsaid stamp
  exact ⟨cs, hcs, hmatches⟩

end Composer

end TagExchange
