import TagExchange.Proofs.Database.Deletions

/-!
# What the log of removed bindings keeps

An addition notes what its winners replace, in the order of networks, and a deletion what it gives
back. After every note the log is cut to the newest entries. What an early cut drops is older than
all that comes later, so it would be dropped in the end as well (`newest_newest_append`): taking the
log gives the last entries of all that has been noted since it was taken before, whether they came
in one batch or in many and whatever failed in between (`Database.takeRemoved_exact`). What a call
notes is what the table had before it and has no longer (`Database.Call.mem_notes_iff`).
-/

namespace TagExchange

namespace Database

variable {db db' : Database}

/-- What is kept is the end of the log, as long as it may be. -/
theorem eq_newest_iff {kept log : List Binding} :
    kept = newest log ↔ kept <:+ log ∧ kept.length = min logLimit log.length := by
  constructor
  · intro hkept
    rw [hkept]
    refine ⟨List.drop_suffix _ _, ?_⟩
    rw [newest, List.length_drop]
    omega
  · rintro ⟨hsuffix, hlength⟩
    have hdrop : log.length - kept.length = log.length - logLimit := by omega
    rw [newest, ← hdrop]
    exact List.suffix_iff_eq_drop.1 hsuffix

theorem newest_nil : newest [] = [] := newest_eq_self (Nat.zero_le _)

/-- What an early cut drops would be dropped by a later one. -/
theorem newest_newest_append (old new : List Binding) :
    newest (newest old ++ new) = newest (old ++ new) := by
  obtain ⟨⟨front, hfront⟩, hlength⟩ := eq_newest_iff.1 (Eq.refl (newest old))
  obtain ⟨hkept, hkeptLength⟩ := eq_newest_iff.1 (Eq.refl (newest (newest old ++ new)))
  have hsuffix : newest old ++ new <:+ old ++ new := ⟨front, by rw [← List.append_assoc, hfront]⟩
  refine eq_newest_iff.2 ⟨hkept.trans hsuffix, ?_⟩
  rw [hkeptLength, List.length_append, List.length_append, hlength]
  omega

/-- What a call that succeeds notes, given the table before it and the list that it gives back: an
addition what lay under the networks of its winners, in the order of networks, and a deletion the
list itself. -/
def Call.notes (before : Table) : Call → List Binding → List Binding
  | add _, winners => before.bindings.filter fun b => b.net ∈ winners.map Binding.net
  | delete _, doomed | deleteFrom _ _, doomed | purge _, doomed => doomed
  | reopen, _ | takeRemoved, _ | watch _, _ | unwatch _, _ => []

/-- The call leaves an empty log. -/
def Call.clears : Call → Bool
  | takeRemoved | reopen => true
  | add _ | delete _ | deleteFrom _ _ | purge _ | watch _ | unwatch _ => false

/-- The holders that winners replace come in the order of the winners, which is that of the
table. -/
theorem replaced_eq_notes (hfiled : db.table.Filed) {batch winners : List Binding}
    (h : db.add batch = .ok (winners, db')) :
    (winners.filterMap fun b => db.table[b.net]?) = (Call.add batch).notes db.table winners := by
  obtain ⟨hordered, -⟩ := winners_told h
  have hnet : ∀ a ∈ winners, ∀ b, db.table[a.net]? = some b → b.net = a.net :=
    fun a _ b hb => hfiled a.net b hb
  apply Table.eq_of_ordered (f := Binding.net)
  · rw [List.pairwise_filterMap]
    refine hordered.imp_of_mem fun {a b} ha hb hab p hp q hq => ?_
    rwa [hnet a ha p hp, hnet b hb q hq]
  · exact (Table.ordered_bindings hfiled).filter _
  · intro b
    simp only [Call.notes, List.mem_filterMap, List.mem_filter, hfiled.mem_bindings,
      decide_eq_true_eq, List.mem_map]
    constructor
    · rintro ⟨w, hw, hb⟩
      obtain hbw := hnet w hw b hb
      exact ⟨hbw ▸ hb, w, hw, hbw.symm⟩
    · rintro ⟨hb, w, hw, hwb⟩
      exact ⟨w, hw, hwb ▸ hb⟩

/-- What an addition or a deletion notes is what the table had and has no longer. -/
theorem Call.mem_notes_iff {c : Call} (hc : c.Writes) (hfiled : db.table.Filed)
    {bs : List Binding} (h : c.apply db = .ok (bs, db')) {b : Binding} :
    b ∈ c.notes db.table bs ↔ b ∈ db.bindings ∧ b ∉ db'.bindings := by
  have hfiled' : db'.table.Filed := filed_apply (by rintro rfl; exact hc) h hfiled
  have hgone (hb : b ∈ db.bindings) : b ∉ db'.bindings ↔ b.net ∈ bs.map Binding.net := by
    rw [← (tells_apply hc hfiled h).differs, bindings, hfiled'.mem_bindings,
      hfiled.mem_bindings.1 hb]
  have hdeleted {selects : Binding → Bool} {nets : List Network}
      (hdelete : db.deleteWhere selects nets = .ok (bs, db')) :
      b ∈ bs ↔ b ∈ db.bindings ∧ b ∉ db'.bindings := by
    constructor
    · intro hb
      have hheld := hfiled.mem_bindings.2 ((mem_doomed_iff hdelete hfiled).1 hb).1
      exact ⟨hheld, (hgone hheld).2 (List.mem_map_of_mem hb)⟩
    · rintro ⟨hheld, hlost⟩
      obtain ⟨a, ha, hnet⟩ := List.mem_map.1 ((hgone hheld).1 hlost)
      have ha' := ((mem_doomed_iff hdelete hfiled).1 ha).1
      rw [hnet, hfiled.mem_bindings.1 hheld] at ha'
      cases ha'
      exact ha
  cases c with
  | add batch =>
    rw [notes, List.mem_filter, decide_eq_true_eq]
    exact and_congr_right fun hb => (hgone hb).symm
  | delete nets | deleteFrom peer nets | purge peer => exact hdeleted h
  | reopen | takeRemoved | watch label | unwatch label => exact hc.elim

/-- A change puts what it notes behind the newest of what has been noted before. -/
theorem removed_change_of_newest {log : List Binding} (hlog : db.removed = newest log)
    (table : Table) (removed touched : List Binding) (store : Store) :
    (db.change table removed touched store).removed = newest (log ++ removed) := by
  rw [removed_change, hlog, newest_newest_append]

/-- A call that succeeds leaves the newest of what has been noted by then. -/
theorem Call.removed_apply {c : Call} (hfiled : db.table.Filed) {log bs : List Binding}
    (hlog : db.removed = newest log) (h : c.apply db = .ok (bs, db')) :
    db'.removed = newest (if c.clears then [] else log ++ c.notes db.table bs) := by
  have hdeleted {selects : Binding → Bool} {nets : List Network}
      (hdelete : db.deleteWhere selects nets = .ok (bs, db')) :
      db'.removed = newest (log ++ bs) := by
    obtain ⟨-, ⟨rfl, rfl⟩ | ⟨-, store, -, rfl⟩⟩ := deleteWhere_cases hdelete
    · rw [List.append_nil, hlog]
    · exact removed_change_of_newest hlog ..
  cases c with
  | add batch =>
    have hreplaced := replaced_eq_notes hfiled h
    obtain ⟨-, ⟨rfl, rfl⟩ | ⟨-, store, -, rfl⟩⟩ := add_cases h
    · rw [← hreplaced]
      exact hlog.trans (by simp [clears])
    · rw [hreplaced]
      exact removed_change_of_newest hlog ..
  | delete nets | deleteFrom peer nets | purge peer => exact hdeleted h
  | reopen =>
    obtain ⟨again, hopen, hagain⟩ := Except.map_eq_ok.1 h
    cases hagain
    rw [removed_of_openOn hopen, clears, if_pos rfl, newest_nil]
  | takeRemoved =>
    cases h
    simp [clears, newest_nil]
  | watch label | unwatch label =>
    cases h
    exact hlog.trans (by simp [clears, notes])

theorem Reachable.step (h : db.Reachable) (s : Step) : (db.step s).Reachable := by
  have hunder : (db.under s).Reachable := .stored _ h
  rw [Database.step]
  cases happly : s.call.apply (db.under s) with
  | error e => exact hunder
  | ok r => exact .called s.call hunder happly

/-- What has been noted since the log was last empty, after one more step. -/
def Step.note (s : Step) (db : Database) (log : List Binding) : List Binding :=
  match s.call.apply (db.under s) with
  | .ok (bs, _) => if s.call.clears then [] else log ++ s.call.notes db.table bs
  | .error _ => log

/-- All that a run notes, from the last time on that it empties the log. -/
def noted (db : Database) : List Step → List Binding → List Binding
  | [], log => log
  | s :: steps, log => noted (db.step s) steps (s.note db log)

theorem removed_step (hdb : db.Reachable) {log : List Binding} (hlog : db.removed = newest log)
    (s : Step) : (db.step s).removed = newest (s.note db log) := by
  rw [step, Step.note]
  cases happly : s.call.apply (db.under s) with
  | error e => exact hlog
  | ok r =>
    have hfiled : (db.under s).table.Filed := hdb.filed
    exact Call.removed_apply hfiled hlog happly

theorem removed_run (hdb : db.Reachable) {log : List Binding} (hlog : db.removed = newest log)
    (steps : List Step) : (db.run steps).removed = newest (db.noted steps log) := by
  induction steps generalizing db log with
  | nil => exact hlog
  | cons s steps ih => exact ih (hdb.step s) (removed_step hdb hlog s)

/-- A run over a database that was opened on a store, whatever the store holds and refuses on the
way. Taking the log then gives the last 1024 entries, or all when there are fewer, of what has been
noted since it was last empty, and leaves it empty. A next call that fails, which may be while it is
under way, leaves the log as it was. -/
theorem takeRemoved_exact {store : Store} (hopen : openOn store = .ok db) (steps : List Step) :
    (∃ taken left, (db.run steps).takeRemoved = (taken, left) ∧ taken <:+ db.noted steps [] ∧
      taken.length = min 1024 (db.noted steps []).length ∧ left.removed = []) ∧
    ∀ (next : Step) (e : StoreError) (left : Database),
      next.call.inPlace ((db.run steps).under next) = .error e left →
        left.removed = (db.run steps).removed := by
  constructor
  · have hempty : db.removed = newest [] := removed_of_openOn hopen
    obtain ⟨hsuffix, hlength⟩ := eq_newest_iff.1 (removed_run (.opened hopen) hempty steps)
    exact ⟨_, _, rfl, hsuffix, hlength, rfl⟩
  · intro next e left hfail
    rw [Call.eq_of_inPlace_error hfail, under]

/-- A network that is won twice in one batch, a refused deletion, and a deletion that lists a
network so often that the log overflows. -/
def overflow : List Step :=
  [⟨false, false, .add [⟨staying.net, 201, [8], ⟨20, 0⟩⟩, ⟨staying.net, 202, [], ⟨30, 0⟩⟩]⟩,
    ⟨true, false, .delete [staying.net]⟩,
    ⟨false, false, .delete (List.replicate 1024 going.net)⟩]

theorem takeRemoved_exact_overflow : openOn (.memory shelf) = .ok stocked ∧
    stocked.noted overflow [] = staying :: List.replicate 1024 going ∧
    ∃ left, (stocked.run overflow).takeRemoved = (List.replicate 1024 going, left) ∧
      left.removed = [] := by
  have hopen : openOn (.memory shelf) = .ok stocked := rfl
  have hnoted : stocked.noted overflow [] = staying :: List.replicate 1024 going := by
    decide +kernel
  obtain ⟨taken, left, htake, hsuffix, hlength, hleft⟩ := (takeRemoved_exact hopen overflow).1
  rw [hnoted] at hsuffix hlength
  rw [List.length_cons, List.length_replicate] at hlength
  have htaken : taken = List.replicate 1024 going := by
    obtain heq | hrest := List.suffix_cons_iff.1 hsuffix
    · rw [heq, List.length_cons, List.length_replicate] at hlength
      omega
    · refine hrest.eq_of_length ?_
      rw [List.length_replicate]
      omega
  rw [htaken] at htake
  exact ⟨hopen, hnoted, left, htake, hleft⟩

end Database

end TagExchange
