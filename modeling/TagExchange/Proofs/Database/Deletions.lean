import TagExchange.Proofs.Database.Changes

/-!
# What a deletion gives back

A deletion takes out of the table exactly what it is asked for, and gives back and logs what it has
taken out. It goes through the networks one by one before it takes out anything, so it gives back a
binding as often as its network is listed (`Database.count_deleteWhere`): each binding once exactly
when no network that gives one up is listed twice (`Database.deletion_exact`). A purge makes its own
list, in which no network comes twice.
-/

namespace TagExchange

namespace Table

/-- The table is looked up once for each time that the network is listed. -/
theorem count_filterMap {t : Table} (ht : t.Filed) {b : Binding} (hb : t[b.net]? = some b)
    (nets : List Network) : (nets.filterMap fun n => t[n]?).count b = nets.count b.net := by
  induction nets with
  | nil => rfl
  | cons n nets ih =>
    by_cases hn : n = b.net
    · subst hn
      simp [hb, ih]
    · have hcons : ((n :: nets).filterMap fun n => t[n]?).count b =
          (nets.filterMap fun n => t[n]?).count b := by
        cases hc : t[n]? with
        | none => simp [hc]
        | some c =>
          have hne : c ≠ b := by
            rintro rfl
            exact hn (ht n c hc).symm
          simp [hc, List.count_cons_of_ne hne]
      rw [hcons, ih, List.count_cons_of_ne hn]

end Table

namespace Database

variable {db db' : Database}

/-- The call is a deletion. -/
def Call.Deletes : Call → Prop
  | delete _ | deleteFrom _ _ | purge _ => True
  | add _ | reopen | takeRemoved | watch _ | unwatch _ => False

/-- How often the call lists a network. -/
def Call.listings : Call → Network → Nat
  | delete nets, n | deleteFrom _ nets, n => nets.count n
  | purge _, _ => 1
  | add _, _ | reopen, _ | takeRemoved, _ | watch _, _ | unwatch _, _ => 0

/-- What is taken out is given back as often as its network is listed. -/
theorem count_deleteWhere {selects : Binding → Bool} {nets : List Network} {doomed : List Binding}
    (h : db.deleteWhere selects nets = .ok (doomed, db')) (hfiled : db.table.Filed) {b : Binding}
    (hb : b ∈ doomed) : doomed.count b = nets.count b.net := by
  obtain ⟨hheld, -, hselects⟩ := (mem_doomed_iff h hfiled).1 hb
  rw [(deleteWhere_cases h).1, List.count_filter hselects, Table.count_filterMap hfiled hheld]

theorem length_newest_le (log : List Binding) : (newest log).length ≤ logLimit := by
  rw [newest, List.length_drop]
  omega

theorem newest_eq_self {log : List Binding} (h : log.length ≤ logLimit) : newest log = log := by
  rw [newest, Nat.sub_eq_zero_of_le h, List.drop_zero]

theorem removed_change (db : Database) (table : Table) (removed touched : List Binding)
    (store : Store) :
    (db.change table removed touched store).removed = newest (db.removed ++ removed) := by
  simp only [change, notify]

theorem removed_of_openOn {store : Store} (h : openOn store = .ok db) : db.removed = [] := by
  obtain ⟨stored, -, rfl⟩ := openOn_cases h
  rfl

/-- The log of a database never holds more than it may. -/
theorem Reachable.length_removed_le (h : db.Reachable) : db.removed.length ≤ logLimit := by
  induction h with
  | opened hopen => simp [removed_of_openOn hopen]
  | @called c db db' bs hdb happly ih =>
    have hwrites (hc : c.Writes) : db'.removed.length ≤ logLimit := by
      obtain ⟨-, rfl⟩ | ⟨-, table, removed, store, rfl⟩ :=
        (tells_apply hc hdb.filed happly).entered
      · exact ih
      · rw [removed_change]
        exact length_newest_le _
    cases c with
    | add batch | delete nets | deleteFrom peer nets | purge peer => exact hwrites trivial
    | reopen =>
      obtain ⟨again, hopen, hagain⟩ := Except.map_eq_ok.1 happly
      cases hagain
      simp [removed_of_openOn hopen]
    | takeRemoved =>
      cases happly
      simp
    | watch label | unwatch label =>
      cases happly
      exact ih
  | stored store _ ih => exact ih
  | collected _ ih => exact ih

theorem removed_deleteWhere {selects : Binding → Bool} {nets : List Network}
    {doomed : List Binding} (hlog : db.removed.length ≤ logLimit)
    (h : db.deleteWhere selects nets = .ok (doomed, db')) :
    db'.removed = newest (db.removed ++ doomed) := by
  obtain ⟨-, ⟨rfl, rfl⟩ | ⟨-, store, -, rfl⟩⟩ := deleteWhere_cases h
  · rw [List.append_nil, newest_eq_self hlog]
  · rw [removed_change]

/-- Every deletion goes through a list of networks, on which what it takes is as often as it lists
its network. -/
theorem Call.Deletes.exists_deleteWhere {c : Call} (hc : c.Deletes) (hfiled : db.table.Filed) :
    ∃ selects nets, c.apply db = db.deleteWhere selects nets ∧ ∀ b ∈ db.bindings,
      (c.Takes b ↔ b.net ∈ nets ∧ selects b = true) ∧
        (c.Takes b → nets.count b.net = c.listings b.net) := by
  cases c with
  | delete nets => exact ⟨fun _ => true, nets, rfl, fun b _ => by simp [Takes, listings]⟩
  | deleteFrom peer nets =>
    exact ⟨fun b => b.learnedFrom == some peer, nets, rfl, fun b _ => by simp [Takes, listings]⟩
  | purge peer =>
    refine ⟨fun b => b.learnedFrom == some peer, db.learnedFrom peer, rfl, fun b hb => ?_⟩
    have hlisted (htakes : (purge peer).Takes b) : b.net ∈ db.learnedFrom peer :=
      mem_learnedFrom.2 ⟨b, hb, htakes, rfl⟩
    have honce : (db.learnedFrom peer).Nodup :=
      (Table.nodup_map_net_bindings hfiled).sublist (List.filter_sublist.map Binding.net)
    constructor
    · rw [beq_iff_eq]
      exact ⟨fun htakes => ⟨hlisted htakes, htakes⟩, And.right⟩
    · intro htakes
      exact List.count_eq_one_of_mem honce (hlisted htakes)
  | add batch | reopen | takeRemoved | watch label | unwatch label => exact hc.elim

/-- A deletion, which succeeds over a store that takes every write. It leaves exactly what it does
not take. It gives back exactly what it takes, each binding as often as its network is listed, and
this is what it puts at the end of the log. So it gives back every binding once exactly when no
network is listed twice that has something to take. -/
theorem deletion_exact (hdb : db.Reachable) {c : Call} (hc : c.Deletes) :
    (db.store.Accepts → ∃ r, c.apply db = .ok r) ∧
    ∀ removed db', c.apply db = .ok (removed, db') →
      (∀ (n : Network) (b : Binding), db'.table[n]? = some b ↔
        db.table[n]? = some b ∧ ¬ c.Takes b) ∧
      (∀ b, b ∈ removed ↔ b ∈ db.bindings ∧ c.Takes b) ∧
      (∀ b ∈ removed, removed.count b = c.listings b.net) ∧
      db'.removed = newest (db.removed ++ removed) ∧
      (removed.Nodup ↔ ∀ b ∈ db.bindings, c.Takes b → c.listings b.net = 1) := by
  have hfiled := hdb.filed
  obtain ⟨selects, nets, happly, htakes⟩ := hc.exists_deleteWhere hfiled
  rw [happly]
  constructor
  · intro haccepts
    obtain ⟨removed, db', hdelete, -⟩ := deleteWhere_of_accepts haccepts selects nets
    exact ⟨_, hdelete⟩
  · intro removed db' hdelete
    have hmem (b : Binding) : b ∈ removed ↔ b ∈ db.bindings ∧ c.Takes b := by
      rw [mem_doomed_iff hdelete hfiled, bindings, hfiled.mem_bindings]
      exact and_congr_right fun hb => (htakes b (hfiled.mem_bindings.2 hb)).1.symm
    have hcount : ∀ b ∈ removed, removed.count b = c.listings b.net := by
      intro b hb
      obtain ⟨hheld, htaken⟩ := (hmem b).1 hb
      rw [count_deleteWhere hdelete hfiled hb, (htakes b hheld).2 htaken]
    refine ⟨fun n b => ?_, hmem, hcount, removed_deleteWhere hdb.length_removed_le hdelete, ?_⟩
    · rw [getElem?_deleteWhere hdelete hfiled, Option.filter_eq_some_iff]
      refine and_congr_right fun hb => ?_
      obtain rfl := hfiled n b hb
      rw [(htakes b (hfiled.mem_bindings.2 hb)).1]
      simp [imp_iff_not_or]
    · rw [List.nodup_iff_count_eq_one]
      constructor
      · intro honce b hb htaken
        have hremoved := (hmem b).2 ⟨hb, htaken⟩
        rw [← hcount b hremoved, honce b hremoved]
      · intro honce b hb
        obtain ⟨hheld, htaken⟩ := (hmem b).1 hb
        rw [hcount b hb, honce b hheld htaken]

/-- Two bindings that were learned from different peers, and a database that loads them. -/
def going : Binding := ⟨.v4 ⟨0x0A050000, 16⟩, 100, [9], ⟨10, 0⟩⟩
def staying : Binding := ⟨.v4 ⟨0x0A060000, 16⟩, 200, [8], ⟨10, 0⟩⟩
def shelf : MemoryStore := { entries := .ofBindings [going, staying] }
def stocked : Database := { table := .ofBindings shelf.entries.bindings, store := .memory shelf }

theorem reachable_stocked : stocked.Reachable := by
  have hopen : openOn (.memory shelf) = .ok stocked := rfl
  exact .opened hopen

/-- A network that is listed twice has its binding given back and logged twice. -/
theorem delete_repeats : stocked.Reachable ∧ stocked.removed = [] ∧ going ∈ stocked.bindings ∧
    ∃ db', stocked.delete [going.net, going.net] = .ok ([going, going], db') ∧
      db'.removed = [going, going] := by
  have haccepts : stocked.store.Accepts := rfl
  obtain ⟨doomed, db', hdelete, -⟩ :=
    deleteWhere_of_accepts haccepts (fun _ => true) [going.net, going.net]
  have hdoomed : doomed = [going, going] := by
    rw [(deleteWhere_cases hdelete).1]
    decide +kernel
  have hlog := removed_deleteWhere reachable_stocked.length_removed_le hdelete
  subst hdoomed
  exact ⟨reachable_stocked, rfl, by decide +kernel, db', hdelete, hlog⟩

theorem deletion_exact_repeated : stocked.Reachable ∧
    (Call.deleteFrom 9 [going.net, staying.net, going.net]).Deletes ∧
    ∃ removed db', stocked.deleteFrom 9 [going.net, staying.net, going.net] =
      .ok (removed, db') ∧ removed.count going = 2 ∧ staying ∉ removed ∧
      db'.table[staying.net]? = some staying := by
  have hc : (Call.deleteFrom 9 [going.net, staying.net, going.net]).Deletes := trivial
  obtain ⟨hok, hexact⟩ := deletion_exact reachable_stocked hc
  obtain ⟨⟨removed, db'⟩, happly⟩ := hok rfl
  obtain ⟨htable, hmem, hcount, -⟩ := hexact removed db' happly
  have hother : ¬ (Call.deleteFrom 9 [going.net, staying.net, going.net]).Takes staying := by
    simp [Call.Takes, staying, Binding.learnedFrom]
  have hgoing : going ∈ removed :=
    (hmem going).2 ⟨by decide +kernel, by simp, by simp [going, Binding.learnedFrom]⟩
  refine ⟨reachable_stocked, hc, removed, db', happly, ?_, ?_, ?_⟩
  · rw [hcount going hgoing]
    decide
  · exact fun hstaying => hother ((hmem staying).1 hstaying).2
  · exact (htable _ _).2 ⟨by decide +kernel, hother⟩

end Database

end TagExchange
