import TagExchange.Database
import TagExchange.Proofs.Database.BestPath
import TagExchange.Wire

/-!
# What an operation leaves in the table

The table after an operation that succeeds, under every network: a deletion takes out exactly what
it names and selects (`getElem?_deleteWhere`), an addition puts the winners of the contest in front
(`getElem?_add`), and a purge leaves all that was not learned from the peer (`mem_purge`).
-/

namespace TagExchange

namespace Store

/-- The store takes every write. -/
def Accepts : Store → Prop
  | none => True
  | memory m => m.refusesWrites = false
  | tree _ => True

theorem Accepts.commit {s : Store} (h : s.Accepts) (delete merge : List Binding) :
    ∃ s', s.commit delete merge = .ok s' ∧ s'.Accepts := by
  cases s with
  | none => exact ⟨.none, rfl, trivial⟩
  | memory m =>
    have hm : m.refusesWrites = false := h
    refine ⟨.memory { m with entries := (m.entries.dropAll delete).fileAll merge }, ?_, hm⟩
    simp [Store.commit, MemoryStore.commit, hm, Except.map]
  | tree t => exact ⟨.tree (t.commit delete merge), rfl, trivial⟩

end Store

namespace Database

variable {db db' : Database} {batch winners : List Binding} {selects : Binding → Bool}
  {nets : List Network} {doomed : List Binding}

theorem openOn_cases {store : Store} (h : openOn store = .ok db) :
    ∃ stored, store.read = .ok stored ∧ db = { table := .ofBindings stored, store } := by
  obtain ⟨stored, hread, h⟩ := Except.bind_eq_ok.1 h
  exact ⟨stored, hread, (Except.ok.inj h).symm⟩

theorem filed_of_openOn {store : Store} (h : openOn store = .ok db) : db.table.Filed := by
  obtain ⟨stored, -, rfl⟩ := openOn_cases h
  exact Table.Filed.ofBindings stored

/-- All that an addition can do: nothing, or one change that files the winners and notes what they
replace. -/
theorem add_cases (h : db.add batch = .ok (winners, db')) :
    winners = (Contest.resolve (fun n => db.table[n]?) batch).winners.bindings ∧
      ((winners = [] ∧ db' = db) ∨ winners ≠ [] ∧ ∃ store,
        db.store.commit (winners.filterMap fun b => db.table[b.net]?) winners = .ok store ∧
        db' = db.change (db.table.fileAll winners) (winners.filterMap fun b => db.table[b.net]?)
          winners store) := by
  rw [add] at h
  split at h
  · next hnone =>
    cases h
    exact ⟨hnone.symm, .inl ⟨rfl, rfl⟩⟩
  · next hsome =>
    obtain ⟨store, hstore, h⟩ := Except.bind_eq_ok.1 h
    obtain ⟨rfl, rfl⟩ := Prod.mk.inj (Except.ok.inj h)
    exact ⟨rfl, .inr ⟨hsome, store, hstore, rfl⟩⟩

theorem table_add (h : db.add batch = .ok (winners, db')) :
    db'.table = db.table.fileAll
      (Contest.resolve (fun n => db.table[n]?) batch).winners.bindings := by
  obtain ⟨rfl, ⟨hnone, rfl⟩ | ⟨-, store, -, rfl⟩⟩ := add_cases h
  · rw [hnone]
    rfl
  · rfl

theorem getElem?_add (h : db.add batch = .ok (winners, db')) (n : Network) :
    db'.table[n]? =
      ((Contest.resolve (fun n => db.table[n]?) batch).winners[n]? <|> db.table[n]?) := by
  have hsound := Contest.resolve_sound (fun n => db.table[n]?) batch
  rw [table_add h, Table.getElem?_fileAll_bindings _ hsound.filed]

theorem filed_add (h : db.add batch = .ok (winners, db')) (hfiled : db.table.Filed) :
    db'.table.Filed := by
  rw [table_add h]
  exact hfiled.fileAll _

/-- What is new comes from the batch, cleaned, and is no default route. -/
theorem mem_add (h : db.add batch = .ok (winners, db')) {b : Binding} (hb : b ∈ db'.bindings) :
    b ∈ db.bindings ∨ (b.net.isDefault = false ∧ ∃ q ∈ batch, q.clean = b) := by
  have hsound := Contest.resolve_sound (fun n => db.table[n]?) batch
  obtain ⟨n, hn⟩ := Table.mem_bindings.1 hb
  rw [getElem?_add h] at hn
  cases hw : (Contest.resolve (fun n => db.table[n]?) batch).winners[n]? with
  | none =>
    rw [hw] at hn
    exact .inl (Table.mem_bindings.2 ⟨n, hn⟩)
  | some w =>
    rw [hw] at hn
    cases hn
    have hnet := hsound.filed n b hw
    exact .inr ⟨hnet ▸ hsound.specific n b hw, Contest.winner_of_resolve hw⟩

/-- All that a deletion can do: nothing, or one change that takes out and notes what is doomed. -/
theorem deleteWhere_cases (h : db.deleteWhere selects nets = .ok (doomed, db')) :
    doomed = (nets.filterMap fun n => db.table[n]?).filter selects ∧
      ((doomed = [] ∧ db' = db) ∨ doomed ≠ [] ∧ ∃ store,
        db.store.commit doomed [] = .ok store ∧
        db' = db.change (db.table.dropAll doomed) doomed doomed store) := by
  rw [deleteWhere] at h
  split at h
  · next hnone =>
    cases h
    exact ⟨hnone.symm, .inl ⟨rfl, rfl⟩⟩
  · next hsome =>
    obtain ⟨store, hstore, h⟩ := Except.bind_eq_ok.1 h
    obtain ⟨rfl, rfl⟩ := Prod.mk.inj (Except.ok.inj h)
    exact ⟨rfl, .inr ⟨hsome, store, hstore, rfl⟩⟩

theorem table_deleteWhere (h : db.deleteWhere selects nets = .ok (doomed, db')) :
    db'.table = db.table.dropAll ((nets.filterMap fun n => db.table[n]?).filter selects) := by
  obtain ⟨rfl, ⟨hnone, rfl⟩ | ⟨-, store, -, rfl⟩⟩ := deleteWhere_cases h
  · rw [hnone]
    rfl
  · rfl

theorem filed_deleteWhere (h : db.deleteWhere selects nets = .ok (doomed, db'))
    (hfiled : db.table.Filed) : db'.table.Filed := by
  rw [table_deleteWhere h]
  exact hfiled.dropAll _

theorem getElem?_doomed (h : db.deleteWhere selects nets = .ok (doomed, db')) (n : Network) :
    db'.table[n]? = if n ∈ doomed.map Binding.net then none else db.table[n]? := by
  rw [table_deleteWhere h, ← (deleteWhere_cases h).1, Table.getElem?_dropAll]

/-- What lies under a network has it as its own, so it is doomed when the network is named. -/
theorem mem_doomed_iff (h : db.deleteWhere selects nets = .ok (doomed, db'))
    (hfiled : db.table.Filed) {b : Binding} :
    b ∈ doomed ↔ db.table[b.net]? = some b ∧ b.net ∈ nets ∧ selects b = true := by
  rw [(deleteWhere_cases h).1, List.mem_filter, List.mem_filterMap]
  constructor
  · rintro ⟨⟨n, hn, hb⟩, hselects⟩
    obtain rfl := hfiled n b hb
    exact ⟨hb, hn, hselects⟩
  · rintro ⟨hb, hn, hselects⟩
    exact ⟨⟨b.net, hn, hb⟩, hselects⟩

theorem getElem?_deleteWhere (h : db.deleteWhere selects nets = .ok (doomed, db'))
    (hfiled : db.table.Filed) (n : Network) :
    db'.table[n]? = db.table[n]?.filter fun b => !(decide (n ∈ nets) && selects b) := by
  rw [getElem?_doomed h]
  cases hget : db.table[n]? with
  | none => simp
  | some b =>
    obtain rfl := hfiled n b hget
    have hdoomed : b.net ∈ doomed.map Binding.net ↔ b.net ∈ nets ∧ selects b = true := by
      constructor
      · intro hn
        obtain ⟨c, hc, hnet⟩ := List.mem_map.1 hn
        obtain ⟨hheld, hnamed, hselects⟩ := (mem_doomed_iff h hfiled).1 hc
        rw [hnet, hget] at hheld
        cases hheld
        exact ⟨hnamed, hselects⟩
      · rintro ⟨hnamed, hselects⟩
        exact List.mem_map_of_mem ((mem_doomed_iff h hfiled).2 ⟨hget, hnamed, hselects⟩)
    by_cases hn : b.net ∈ nets ∧ selects b = true
    · rw [if_pos (hdoomed.2 hn), Option.filter_some]
      simp [hn]
    · have hcond : (!(decide (b.net ∈ nets) && selects b)) = true := by
        simpa [imp_iff_not_or] using hn
      rw [if_neg (mt hdoomed.1 hn), Option.filter_some, if_pos hcond]

theorem mem_deleteWhere (h : db.deleteWhere selects nets = .ok (doomed, db')) {b : Binding}
    (hb : b ∈ db'.bindings) : b ∈ db.bindings := by
  obtain ⟨n, hn⟩ := Table.mem_bindings.1 hb
  rw [getElem?_doomed h] at hn
  split at hn
  · cases hn
  · exact Table.mem_bindings.2 ⟨n, hn⟩

/-- A deletion of nothing changes nothing, any other raises the generation. -/
theorem deleteWhere_changes (h : db.deleteWhere selects nets = .ok (doomed, db')) :
    (doomed = [] → db' = db) ∧ (doomed ≠ [] → db'.generation = db.generation + 1) := by
  obtain ⟨-, ⟨hnone, rfl⟩ | ⟨hsome, store, -, rfl⟩⟩ := deleteWhere_cases h
  · exact ⟨fun _ => rfl, fun hsome => absurd hnone hsome⟩
  · exact ⟨fun hnone => absurd hnone hsome, fun _ => rfl⟩

theorem mem_learnedFrom {peer : NodeId} {n : Network} :
    n ∈ db.learnedFrom peer ↔ ∃ b ∈ db.bindings, b.learnedFrom = some peer ∧ b.net = n := by
  simp [learnedFrom, bindings, and_assoc]

theorem getElem?_purge {peer : NodeId} {purged : List Binding}
    (h : db.purge peer = .ok (purged, db')) (hfiled : db.table.Filed) (n : Network) :
    db'.table[n]? = db.table[n]?.filter fun b => !(b.learnedFrom == some peer) := by
  rw [getElem?_deleteWhere h hfiled]
  cases hb : db.table[n]? with
  | none => rfl
  | some b =>
    have hmem (hpeer : b.learnedFrom = some peer) : n ∈ db.learnedFrom peer :=
      mem_learnedFrom.2 ⟨b, Table.mem_bindings.2 ⟨n, hb⟩, hpeer, hfiled n b hb⟩
    by_cases hpeer : b.learnedFrom = some peer <;> simp [Option.filter_some, hpeer, hmem]

theorem mem_purge {peer : NodeId} {purged : List Binding} (h : db.purge peer = .ok (purged, db'))
    (hfiled : db.table.Filed) {b : Binding} :
    b ∈ db'.bindings ↔ b ∈ db.bindings ∧ b.learnedFrom ≠ some peer := by
  have hfiled' : db'.table.Filed := filed_deleteWhere h hfiled
  rw [bindings, hfiled'.mem_bindings, getElem?_purge h hfiled, bindings, hfiled.mem_bindings,
    Option.filter_eq_some_iff]
  simp

theorem add_of_accepts (h : db.store.Accepts) (batch : List Binding) :
    ∃ winners db', db.add batch = .ok (winners, db') ∧ db'.store.Accepts := by
  rw [add]
  split
  · exact ⟨[], db, rfl, h⟩
  · obtain ⟨store, hstore, haccepts⟩ := h.commit
      ((Contest.resolve (fun n => db.table[n]?) batch).winners.bindings.filterMap
        fun b => db.table[b.net]?)
      (Contest.resolve (fun n => db.table[n]?) batch).winners.bindings
    dsimp only
    rw [hstore]
    exact ⟨_, _, rfl, haccepts⟩

theorem deleteWhere_of_accepts (h : db.store.Accepts) (selects : Binding → Bool)
    (nets : List Network) :
    ∃ doomed db', db.deleteWhere selects nets = .ok (doomed, db') ∧ db'.store.Accepts := by
  rw [deleteWhere]
  split
  · exact ⟨[], db, rfl, h⟩
  · obtain ⟨store, hstore, haccepts⟩ := h.commit
      ((nets.filterMap fun n => db.table[n]?).filter selects) []
    rw [hstore]
    exact ⟨_, _, rfl, haccepts⟩

end Database

end TagExchange
