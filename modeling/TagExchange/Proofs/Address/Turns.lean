import TagExchange.Address.Lemmas
import TagExchange.Rotation

/-!
# Addresses in turn

Whatever was asked of a rotation before, it hands out a list of addresses from the end of their
order to its front and then from the end again: a round is the sorted list read backwards, from the
place where the rotation stands (`Rotation.turns_round`). No selection looks for an address outside
the list (`Rotation.draw_place`).
-/

namespace TagExchange

/-- The number of an address when those of IPv4 are counted before those of IPv6. -/
def Address.rank : Address → Nat
  | v4 a => a.toNat
  | v6 a => 2 ^ 32 + a.toNat

theorem Address.compare_rank (a b : Address) : compare a.rank b.rank = compare a b := by
  cases a with
  | v4 a =>
    cases b with
    | v4 b => exact compare_toNat a b
    | v6 b =>
      have hlt : a.toNat < 2 ^ 32 + b.toNat := Nat.lt_add_right _ a.isLt
      exact Nat.compare_eq_lt.2 hlt
  | v6 a =>
    cases b with
    | v4 b =>
      have hlt : b.toNat < 2 ^ 32 + a.toNat := Nat.lt_add_right _ b.isLt
      exact Nat.compare_eq_gt.2 hlt
    | v6 b =>
      have hsame := compare_toNat a b
      simp only [Nat.compare_eq_ite_lt] at hsame
      simp only [rank, Nat.compare_eq_ite_lt, Nat.add_lt_add_iff_left, hsame]
      rfl

namespace Rotation

theorem ordered_perm (addresses : List Address) : (ordered addresses).Perm addresses :=
  List.mergeSort_perm addresses _

theorem ordered_pairwise (addresses : List Address) :
    (ordered addresses).Pairwise fun a b => a.rank ≤ b.rank := by
  have hle (a b : Address) : (compare a b).isLE = decide (a.rank ≤ b.rank) := by
    rw [Bool.eq_iff_iff, decide_eq_true_eq, ← Address.compare_rank, Nat.isLE_compare]
  have htrans (a b c : Address) : decide (a.rank ≤ b.rank) → decide (b.rank ≤ c.rank) →
      decide (a.rank ≤ c.rank) := by
    simp only [decide_eq_true_eq]
    omega
  have htotal (a b : Address) : (decide (a.rank ≤ b.rank) || decide (b.rank ≤ a.rank)) = true := by
    simp only [Bool.or_eq_true, decide_eq_true_eq]
    omega
  simpa only [ordered, hle, decide_eq_true_eq] using List.pairwise_mergeSort htrans htotal addresses

variable {r : Rotation} {addresses : List Address}

/-- How many addresses of a list of `n` stand behind the next one. -/
def turn (r : Rotation) (n : Nat) : Nat := r.placeIn n - 1

theorem turn_lt {n : Nat} (hn : 0 < n) : r.turn n < n := by
  have hpos := r.placeIn_pos n
  have hle := r.placeIn_le hn
  rw [turn]
  omega

theorem turn_after {place n : Nat} (hle : place ≤ n) :
    (after place n).turn n = place % n := by
  by_cases hlast : place = n
  · simp [after, turn, placeIn, hlast]
  · have hnot : ¬n < place + 1 := by omega
    rw [after, if_neg hnot, turn, placeIn, if_neg hnot, Nat.mod_eq_of_lt (by omega),
      Nat.add_sub_cancel]

/-- A selection takes the next address from the end and moves on by one, around the list. -/
theorem select_turn (h : addresses ≠ []) :
    ∃ a r', r.select addresses = .ok (a, r') ∧
      (ordered addresses).reverse[r.turn addresses.length]? = some a ∧
      r'.turn addresses.length = (r.turn addresses.length + 1) % addresses.length := by
  have hn : 0 < addresses.length := List.length_pos_iff.2 h
  have hpos := r.placeIn_pos addresses.length
  have hle := r.placeIn_le hn
  have hlt : r.turn addresses.length < (ordered addresses).length := by
    rw [length_ordered]
    exact turn_lt hn
  rw [select, dif_neg h]
  refine ⟨_, _, rfl, ?_, ?_⟩
  · rw [List.getElem?_reverse hlt, List.getElem?_eq_some_iff]
    simp only [length_ordered, turn]
    refine ⟨by omega, ?_⟩
    congr 1
    omega
  · rw [length_ordered, turn_after hle, turn, Nat.sub_add_cancel hpos]

/-- The addresses of so many selections in a row, and the rotation after them. -/
def turns (r : Rotation) (addresses : List Address) : Nat → Except Fault (List Address × Rotation)
  | 0 => .ok ([], r)
  | m + 1 => do
    let (a, r) ← r.select addresses
    let (picks, r) ← turns r addresses m
    return (a :: picks, r)

/-- The selections go around the list from where the rotation stands. -/
theorem turns_mod (h : addresses ≠ []) (m : Nat) :
    ∃ picks r', r.turns addresses m = .ok (picks, r') ∧
      picks.map some = (List.range m).map (fun j =>
        (ordered addresses).reverse[(r.turn addresses.length + j) % addresses.length]?) ∧
      r'.turn addresses.length = (r.turn addresses.length + m) % addresses.length := by
  have hn : 0 < addresses.length := List.length_pos_iff.2 h
  induction m generalizing r with
  | zero => exact ⟨[], r, rfl, rfl, (Nat.mod_eq_of_lt (turn_lt hn)).symm⟩
  | succ m ih =>
    obtain ⟨a, r', hselect, ha, hturn⟩ := select_turn (r := r) h
    obtain ⟨picks, r'', hturns, hpicks, hend⟩ := ih (r := r')
    have hmoved (j : Nat) : (r'.turn addresses.length + j) % addresses.length =
        (r.turn addresses.length + (j + 1)) % addresses.length := by
      rw [hturn, Nat.mod_add_mod, Nat.add_assoc, Nat.add_comm 1 j]
    refine ⟨a :: picks, r'', ?_, ?_, hend.trans (hmoved m)⟩
    · simp only [turns, hselect, hturns, bind, Except.bind, pure, Except.pure]
    · rw [List.range_succ_eq_map, List.map_cons, List.map_cons, hpicks, List.map_map, Nat.add_zero,
        Nat.mod_eq_of_lt (turn_lt hn), ha]
      simp only [hmoved, Function.comp_def]

/-- A round is the sorted list read backwards, from the place where the rotation stands, and leaves
the rotation at that place. -/
theorem turns_round (h : addresses ≠ []) :
    ∃ r', r.turns addresses addresses.length =
        .ok ((ordered addresses).reverse.rotate (r.turn addresses.length), r') ∧
      r'.turn addresses.length = r.turn addresses.length := by
  obtain ⟨picks, r', hturns, hpicks, hend⟩ := turns_mod (r := r) h addresses.length
  have hround : picks = (ordered addresses).reverse.rotate (r.turn addresses.length) := by
    apply List.map_injective_iff.2 (Option.some_injective Address)
    rw [hpicks]
    apply List.ext_getElem (by simp)
    intro j hj _
    have hj' : j < addresses.length := by simpa using hj
    have hmod : (r.turn addresses.length + j) % addresses.length <
        (ordered addresses).reverse.length := by
      rw [List.length_reverse, length_ordered]
      exact Nat.mod_lt _ (Nat.zero_lt_of_lt hj')
    simp only [List.getElem_map, List.getElem_range, List.getElem?_eq_getElem hmod,
      List.getElem_rotate, List.length_reverse, length_ordered, Nat.add_comm j]
  rw [hround] at hturns
  refine ⟨r', hturns, ?_⟩
  rw [hend, Nat.add_mod_right, Nat.mod_eq_of_lt (turn_lt (List.length_pos_iff.2 h))]

inductive Call where
  | reset
  | select (addresses : List Address)
  deriving DecidableEq, Repr

/-- The rotation after a call. A selection that fails leaves it where it is. -/
def call (r : Rotation) : Call → Rotation
  | .reset => start
  | .select addresses =>
    match r.select addresses with
    | .ok (_, r) => r
    | .error _ => r

/-- A new rotation after so many calls. -/
def run (calls : List Call) : Rotation := calls.foldl call start

/-- A selection by a bare place: the address and the next place, or nothing when it looks for an
address outside the list. -/
def draw (place : Nat) (addresses : List Address) : Option (Except Fault Address × Nat) :=
  if addresses = [] then some (.error .noInterfaces, place)
  else
    let place := if addresses.length < place then 1 else place
    if addresses.length < place then none
    else
      (ordered addresses)[addresses.length - place]?.map fun a =>
        (.ok a, if addresses.length < place + 1 then 1 else place + 1)

/-- The place of a rotation never leads outside a list. -/
theorem draw_place (r : Rotation) (addresses : List Address) :
    draw r.place addresses =
      some ((r.select addresses).map Prod.fst, (r.call (.select addresses)).place) := by
  by_cases h : addresses = []
  · rw [draw, if_pos h, h]
    rfl
  · have hn : 0 < addresses.length := List.length_pos_iff.2 h
    have hpos := r.placeIn_pos addresses.length
    have hle := r.placeIn_le hn
    have hbefore : (if addresses.length < r.place then 1 else r.place) =
        r.placeIn addresses.length := rfl
    have hinside : addresses.length - r.placeIn addresses.length < (ordered addresses).length := by
      rw [length_ordered]
      omega
    simp only [draw, if_neg h, hbefore, if_neg (Nat.not_lt.2 hle),
      List.getElem?_eq_getElem hinside, call, select, dif_neg h, length_ordered, after, Except.map,
      Option.map]
    split <;> rfl

/-- The next place in a list of `n`: one towards the front, or from the front to the end. -/
def StepsDown (n i j : Nat) : Prop := j + 1 = i ∨ i = 0 ∧ j + 1 = n

theorem stepsDown_mod {n : Nat} (hn : 0 < n) (i : Nat) :
    StepsDown n (n - 1 - i % n) (n - 1 - (i + 1) % n) := by
  have hlt := Nat.mod_lt i hn
  rw [StepsDown, ← Nat.mod_add_mod i n 1]
  by_cases hlast : i % n + 1 = n
  · rw [hlast, Nat.mod_self]
    omega
  · rw [Nat.mod_eq_of_lt (show i % n + 1 < n by omega)]
    omega

/-- After any calls, selections in a row from a list that is not empty are fair. So many as the list
is long give each of its addresses as often as it occurs, and as many again give the same sequence.
In the sorted list each selection steps down by one from the one before, or from the front to the
end. No selection, from this list or another, looks for an address outside it. -/
theorem turns_fair (calls : List Call) (h : addresses ≠ []) :
    (∃ round r₁ r₂, (run calls).turns addresses addresses.length = .ok (round, r₁) ∧
      r₁.turns addresses addresses.length = .ok (round, r₂) ∧ round.Perm addresses) ∧
    (∃ sorted : List Address, sorted.Perm addresses ∧ sorted.Pairwise (fun a b => a.rank ≤ b.rank) ∧
      ∀ m, ∃ (picks : List Address) (places : List Nat) (r' : Rotation),
        (run calls).turns addresses m = .ok (picks, r') ∧
        picks.map some = places.map (fun i => sorted[i]?) ∧
        places.IsChain (StepsDown addresses.length)) ∧
    ∀ others, draw (run calls).place others =
      some (((run calls).select others).map Prod.fst, (run (calls ++ [.select others])).place) := by
  have hn : 0 < addresses.length := List.length_pos_iff.2 h
  refine ⟨?_, ⟨ordered addresses, ordered_perm _, ordered_pairwise _, fun m => ?_⟩, fun _ => ?_⟩
  · obtain ⟨r₁, hfirst, hback⟩ := turns_round (r := run calls) h
    obtain ⟨r₂, hsecond, -⟩ := turns_round (r := r₁) h
    rw [hback] at hsecond
    exact ⟨_, r₁, r₂, hfirst, hsecond,
      (List.rotate_perm _ _).trans ((List.reverse_perm _).trans (ordered_perm _))⟩
  · obtain ⟨picks, r', hturns, hpicks, -⟩ := turns_mod (r := run calls) h m
    refine ⟨picks, (List.range m).map fun j => addresses.length - 1 -
      ((run calls).turn addresses.length + j) % addresses.length, r', hturns, ?_, ?_⟩
    · rw [hpicks, List.map_map]
      apply List.map_congr_left
      intro j _
      have hmod : ((run calls).turn addresses.length + j) % addresses.length <
          (ordered addresses).length := by
        rw [length_ordered]
        exact Nat.mod_lt _ hn
      rw [List.getElem?_reverse hmod, length_ordered]
      rfl
    · rw [List.isChain_iff_getElem]
      intro i hi
      simp only [List.getElem_map, List.getElem_range]
      exact stepsDown_mod hn _
  · rw [draw_place, run, run, List.foldl_append]
    rfl

/-- Three addresses, one of them twice, after selections from a longer list, from none and from a
shorter one, and a reset among them. -/
theorem turns_fair_twice :
    let low : Address := .v4 1
    let high : Address := .v6 1
    let longer : Call := .select [low, high, high, low]
    let calls : List Call :=
      [.select [low, high], .reset, .select [], longer, longer, longer, .select [high, low]]
    [high, low, low] ≠ [] ∧ ∃ round r₁ r₂, (run calls).turns [high, low, low] 3 = .ok (round, r₁) ∧
      r₁.turns [high, low, low] 3 = .ok (round, r₂) ∧ round.Perm [high, low, low] := by
  intro low high longer calls
  have hlist : [high, low, low] ≠ [] := by decide
  obtain ⟨hround, -, -⟩ := turns_fair calls hlist
  exact ⟨hlist, hround⟩

end Rotation

end TagExchange
