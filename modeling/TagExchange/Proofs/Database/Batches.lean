import TagExchange.Proofs.Database.Operations
import TagExchange.Proofs.RoundTrip.Items

/-!
# Any number of batches

Who holds a network after some batches is decided by a line: what held it before, then the
candidates for it in the order of their arrival, cleaned. It is the first of the line that no other
supersedes (`Database.addAll_exact`), however the candidates are divided into batches.

Within a batch a candidate competes with the winner so far, and between batches with what has been
filed. Either way it competes with the holder so far (`Database.getElem?_addAll`), and as
superseding is a strict weak order, the holder so far is the first that no other supersedes
(`Binding.foldl_contend`).
-/

namespace TagExchange

namespace Binding

variable {a b c : Binding} {line : List Binding}

theorem supersedes_trans (hab : a.supersedes (some b) = true) (hbc : b.supersedes (some c) = true) :
    a.supersedes (some c) = true := by
  simp only [supersedes_some_iff, Instant.lt_def] at *
  omega

/-- What comes between two bindings is superseded by the one or supersedes the other. -/
theorem supersedes_or (hac : a.supersedes (some c) = true) (b : Binding) :
    a.supersedes (some b) = true ∨ b.supersedes (some c) = true := by
  simp only [supersedes_some_iff, Instant.lt_def] at *
  omega

/-- Neither path nor time tells the two apart. -/
def Ties (a b : Binding) : Prop := a.distance = b.distance ∧ a.stamp = b.stamp

/-- The holder after a candidate has been heard. -/
def contend (holder : Option Binding) (b : Binding) : Option Binding :=
  if b.supersedes holder then some b else holder

/-- Whoever wins, somebody holds the network afterwards. -/
theorem foldl_contend_ne_none (hline : line ≠ []) (holder : Option Binding) :
    line.foldl contend holder ≠ none := by
  obtain ⟨front, b, rfl⟩ := (List.eq_nil_or_concat' line).resolve_left hline
  rw [List.foldl_append]
  show contend (front.foldl contend holder) b ≠ none
  cases front.foldl contend holder with
  | none => simp [contend]
  | some h =>
    rw [contend]
    split <;> simp

theorem exists_foldl_contend {holder : Option Binding} :
    (∃ b, line.foldl contend holder = some b) ↔ line ≠ [] ∨ ∃ b, holder = some b := by
  by_cases hline : line = []
  · simp [hline]
  · have hsome := foldl_contend_ne_none hline holder
    simp [hline, ← Option.ne_none_iff_exists', hsome]

/-- The first of a line that no other supersedes. -/
def foremost (line : List Binding) : Option Binding :=
  line.find? fun b => line.all fun c => !c.supersedes (some b)

theorem foremost_eq_some_iff : foremost line = some b ↔
    (∀ c ∈ line, c.supersedes (some b) = false) ∧ ∃ front back, line = front ++ b :: back ∧
      ∀ a ∈ front, ∃ c ∈ line, c.supersedes (some a) = true := by
  simp [foremost, List.find?_eq_some_iff_append]

/-- The first of a line is the foremost unless it is superseded. -/
theorem foremost_cons (h : ∀ c ∈ b :: line, c.supersedes (some b) = false) :
    foremost (b :: line) = some b :=
  foremost_eq_some_iff.2 ⟨h, [], line, rfl, by simp⟩

/-- One more in the line competes with the foremost. -/
theorem foremost_concat (h : foremost line = some a) (b : Binding) :
    foremost (line ++ [b]) = contend (some a) b := by
  obtain ⟨hunbeaten, front, back, rfl, hfront⟩ := foremost_eq_some_iff.1 h
  rw [contend]
  split
  · next hb =>
    rw [foremost_eq_some_iff]
    refine ⟨?_, front ++ a :: back, [], rfl, ?_⟩
    · intro c hc
      rcases List.mem_append.1 hc with hc | hc
      · by_contra hcb
        have hca := supersedes_trans (Bool.eq_true_of_not_eq_false hcb) hb
        rw [hunbeaten c hc] at hca
        cases hca
      · obtain rfl := List.mem_singleton.1 hc
        exact not_supersedes_self c
    · intro c hc
      rcases supersedes_or hb c with hbc | hca
      · exact ⟨b, by simp, hbc⟩
      · rw [hunbeaten c hc] at hca
        cases hca
  · next hb =>
    rw [foremost_eq_some_iff]
    refine ⟨?_, front, back ++ [b], by simp, ?_⟩
    · intro c hc
      rcases List.mem_append.1 hc with hc | hc
      · exact hunbeaten c hc
      · obtain rfl := List.mem_singleton.1 hc
        exact Bool.eq_false_of_not_eq_true hb
    · intro c hc
      obtain ⟨d, hd, hdc⟩ := hfront c hc
      exact ⟨d, List.mem_append_left _ hd, hdc⟩

/-- Hearing the line one by one leaves the foremost. -/
theorem foldl_contend (line : List Binding) : line.foldl contend none = foremost line := by
  induction line using List.reverseRecOn with
  | nil => rfl
  | append_singleton line b ih =>
    rw [List.foldl_append]
    show contend (line.foldl contend none) b = _
    rw [ih]
    cases hline : foremost line with
    | none =>
      obtain rfl : line = [] := by
        by_contra hne
        exact foldl_contend_ne_none hne none (ih.trans hline)
      rw [List.nil_append, foremost_cons (by simp [not_supersedes_self])]
      rfl
    | some h => rw [foremost_concat hline]

theorem foldl_contend_holder (holder : Option Binding) (line : List Binding) :
    line.foldl contend holder = foremost (holder.toList ++ line) := by
  rw [← foldl_contend, List.foldl_append]
  cases holder <;> rfl

theorem mem_of_foremost (h : foremost line = some b) : b ∈ line := List.mem_of_find?_eq_some h

/-- Who holds the network in the end comes from the line or held it before. -/
theorem mem_of_foldl_contend {holder : Option Binding} (h : line.foldl contend holder = some b) :
    b ∈ line ∨ holder = some b := by
  rw [foldl_contend_holder] at h
  rcases List.mem_append.1 (mem_of_foremost h) with hb | hb
  · exact .inr (Option.mem_toList.1 hb)
  · exact .inl hb

theorem foremost_eq_none_iff : foremost line = none ↔ line = [] := by
  rw [← foldl_contend]
  constructor
  · intro h
    by_contra hne
    exact foldl_contend_ne_none hne none h
  · rintro rfl
    rfl

/-- The candidates for a network, cleaned. Nobody is a candidate for a default route. -/
def candidates (batch : List Binding) (n : Network) : List Binding :=
  (batch.map clean).filter fun b => b.net = n ∧ b.net.isDefault = false

theorem candidates_append (front back : List Binding) (n : Network) :
    candidates (front ++ back) n = candidates front n ++ candidates back n := by
  rw [candidates, List.map_append, List.filter_append]
  rfl

theorem candidates_ne_nil_iff {batch : List Binding} {n : Network} : candidates batch n ≠ [] ↔
    ∃ b ∈ batch, b.clean.net = n ∧ n.isDefault = false := by
  simp only [candidates, ne_eq, List.filter_eq_nil_iff, List.mem_map, decide_eq_true_eq]
  constructor
  · intro h
    push Not at h
    obtain ⟨-, ⟨b, hb, rfl⟩, rfl, hdefault⟩ := h
    exact ⟨b, hb, rfl, hdefault⟩
  · rintro ⟨b, hb, rfl, hdefault⟩ h
    exact h b.clean ⟨b, hb, rfl⟩ ⟨rfl, hdefault⟩

theorem candidates_cons (b : Binding) (batch : List Binding) (n : Network) :
    candidates (b :: batch) n =
      if b.clean.net = n ∧ b.clean.net.isDefault = false then b.clean :: candidates batch n
      else candidates batch n := by
  rw [candidates, List.map_cons, List.filter_cons]
  simp only [decide_eq_true_eq]
  rfl

end Binding

open Binding

/-- A contest leaves every network to the best of its holder and the candidates for it. -/
theorem Contest.getElem?_foldl_hear (holder : Network → Option Binding) (batch : List Binding)
    (c : Contest) (n : Network) :
    ((batch.foldl (hear holder) c).winners[n]? <|> holder n) =
      (candidates batch n).foldl contend (c.winners[n]? <|> holder n) := by
  induction batch generalizing c with
  | nil => rfl
  | cons b batch ih =>
    rw [List.foldl_cons, ih, candidates_cons]
    by_cases hn : b.clean.net = n
    · subst hn
      by_cases ht : c.Takes holder b
      · rw [hear_of_takes ht, Table.getElem?_file, if_pos rfl, if_pos ⟨rfl, ht.1⟩, List.foldl_cons,
          contend, if_pos ht.2]
        rfl
      · rw [hear_of_not_takes ht]
        by_cases hd : b.clean.net.isDefault = false
        · have hs : ¬b.clean.supersedes (c.winners[b.clean.net]? <|> holder b.clean.net) = true :=
            fun hs => ht ⟨hd, hs⟩
          rw [if_pos ⟨rfl, hd⟩, List.foldl_cons, contend, if_neg hs]
        · rw [if_neg fun h => hd h.2]
    · rw [getElem?_hear_of_ne hn, if_neg fun h => hn h.1]

namespace Database

variable {db db' : Database}

theorem getElem?_add_candidates {batch winners : List Binding}
    (h : db.add batch = .ok (winners, db')) (n : Network) :
    db'.table[n]? = (candidates batch n).foldl contend db.table[n]? := by
  rw [getElem?_add h, Contest.resolve, Contest.getElem?_foldl_hear]
  simp

/-- One batch after the other, unless the store refuses one. -/
def addAll (db : Database) (batches : List (List Binding)) : Except StoreError Database :=
  batches.foldlM (fun db batch => (db.add batch).map Prod.snd) db

theorem addAll_cons_eq_ok {batch : List Binding} {batches : List (List Binding)} :
    db.addAll (batch :: batches) = .ok db' ↔
      ∃ winners next, db.add batch = .ok (winners, next) ∧ next.addAll batches = .ok db' := by
  rw [addAll, List.foldlM_cons, Except.bind_eq_ok]
  constructor
  · rintro ⟨next, hnext, hrest⟩
    obtain ⟨⟨winners, filed⟩, hadd, rfl⟩ := Except.map_eq_ok.1 hnext
    exact ⟨winners, filed, hadd, hrest⟩
  · rintro ⟨winners, next, hadd, hrest⟩
    exact ⟨next, Except.map_eq_ok.2 ⟨_, hadd, rfl⟩, hrest⟩

theorem getElem?_addAll {batches : List (List Binding)} (h : db.addAll batches = .ok db')
    (n : Network) :
    db'.table[n]? = (candidates batches.flatten n).foldl contend db.table[n]? := by
  induction batches generalizing db with
  | nil =>
    cases h
    rfl
  | cons batch batches ih =>
    obtain ⟨winners, next, hadd, hrest⟩ := addAll_cons_eq_ok.1 h
    rw [ih hrest, getElem?_add_candidates hadd, List.flatten_cons, candidates_append,
      List.foldl_append]

theorem addAll_ok (h : db.store.Accepts) (batches : List (List Binding)) :
    ∃ db', db.addAll batches = .ok db' ∧ db'.store.Accepts := by
  induction batches generalizing db with
  | nil => exact ⟨db, rfl, h⟩
  | cons batch batches ih =>
    obtain ⟨winners, next, hadd, haccepts⟩ := add_of_accepts h batch
    obtain ⟨db', hrest, haccepts'⟩ := ih haccepts
    exact ⟨db', addAll_cons_eq_ok.2 ⟨winners, next, hadd, hrest⟩, haccepts'⟩

theorem filed_addAll {batches : List (List Binding)} (h : db.addAll batches = .ok db')
    (hfiled : db.table.Filed) : db'.table.Filed := by
  induction batches generalizing db with
  | nil =>
    cases h
    exact hfiled
  | cons batch batches ih =>
    obtain ⟨winners, next, hadd, hrest⟩ := addAll_cons_eq_ok.1 h
    exact ih hrest (filed_add hadd hfiled)

/-- No two candidates for one network tie, unless they are the same when they are cleaned. -/
def Untied (batch : List Binding) : Prop :=
  ∀ a ∈ batch, ∀ b ∈ batch, a.clean.net = b.clean.net → a.Ties b → a.clean = b.clean

theorem Untied.candidates {batch : List Binding} (h : Untied batch) (n : Network) :
    ∀ a ∈ candidates batch n, ∀ b ∈ candidates batch n, a.Ties b → a = b := by
  intro a ha b hb hties
  obtain ⟨hmem, hnet⟩ := List.mem_filter.1 ha
  obtain ⟨hmem', hnet'⟩ := List.mem_filter.1 hb
  obtain ⟨p, hp, rfl⟩ := List.mem_map.1 hmem
  obtain ⟨q, hq, rfl⟩ := List.mem_map.1 hmem'
  simp only [decide_eq_true_eq] at hnet hnet'
  exact h p hp q hq (hnet.1.trans hnet'.1.symm) hties

end Database

end TagExchange
