import TagExchange.Proofs.Database.InPlace
import TagExchange.Proofs.Database.Operations
import TagExchange.Wire

/-!
# A store behind a database holds its table

A memory store decides at every call whether it takes a write and whether it lets itself be read;
a write that it takes has its full effect, one that it refuses has none. Whatever it decides, after
every step of a run the store holds what the table holds, an operation that fails has changed
nothing, and a database that is opened over the store has the same table (`Database.run_mirrored`).

A step files the winners of a contest in the store after taking out what they replace, and in the
table without. That these agree needs that every binding lies under its own network, so both facts
are kept together (`Database.Mirrored`).
-/

namespace TagExchange

/-- What a memory store holds. -/
def Store.entries? : Store → Option Table
  | memory m => some m.entries
  | none | tree _ => Option.none

namespace Database

/-- What can be asked of a database. -/
inductive Call where
  | add (batch : List Binding)
  | delete (nets : List Network)
  | deleteFrom (peer : NodeId) (nets : List Network)
  | purge (peer : NodeId)
  | reopen
  | takeRemoved
  | watch (label : String)
  | unwatch (label : String)

namespace Call

/-- The returned bindings and the database afterwards. -/
def apply : Call → Database → Except StoreError (List Binding × Database)
  | add batch, db => db.add batch
  | delete nets, db => db.delete nets
  | deleteFrom peer nets, db => db.deleteFrom peer nets
  | purge peer, db => db.purge peer
  | reopen, db => db.reopen.map ([], ·)
  | takeRemoved, db => .ok db.takeRemoved
  | watch label, db => .ok ([], db.watch label)
  | unwatch label, db => .ok ([], db.unwatch label)

/-- The same in the order of its effects. -/
def inPlace : Call → InPlace (List Binding)
  | add batch => .add batch
  | delete nets => .delete nets
  | deleteFrom peer nets => .deleteFrom peer nets
  | purge peer => .purge peer
  | reopen => .reopen
  | takeRemoved => modifyGet Database.takeRemoved
  | watch label => modifyGet fun db => ([], db.watch label)
  | unwatch label => modifyGet fun db => ([], db.unwatch label)

theorem inPlace_eq (c : Call) : c.inPlace = .ofWhole c.apply := by
  cases c with
  | add batch => exact InPlace.add_eq batch
  | delete nets => exact InPlace.deleteWhere_eq (fun _ => true) nets
  | deleteFrom peer nets => exact InPlace.deleteWhere_eq (fun b => b.learnedFrom == some peer) nets
  | purge peer =>
    funext db
    have h := InPlace.deleteWhere_eq (fun b => b.learnedFrom == some peer) (db.learnedFrom peer)
    exact congrFun h db
  | reopen => exact InPlace.reopen_eq
  | takeRemoved | watch | unwatch => rfl

/-- A call that fails, which may be while it is under way, leaves the database as it was. -/
theorem eq_of_inPlace_error {c : Call} {db left : Database} {e : StoreError}
    (h : c.inPlace db = .error e left) : left = db := by
  rw [inPlace_eq, InPlace.ofWhole] at h
  split at h
  · cases h
  · cases h
    rfl

end Call

/-- A call and what the store decides about the writes and reads in it. -/
structure Step where
  refusesWrites : Bool
  refusesReads : Bool
  call : Call

/-- The database with the decisions of a step in force. -/
def under (db : Database) (s : Step) : Database :=
  { db with store := db.store.refuse s.refusesWrites s.refusesReads }

/-- The database after a step; a call that fails leaves the one it was made on. -/
def step (db : Database) (s : Step) : Database :=
  match s.call.apply (db.under s) with
  | .ok (_, db') => db'
  | .error _ => db.under s

def run (db : Database) (steps : List Step) : Database := steps.foldl step db

/-- The memory store behind the database holds the table. -/
structure Mirrored (db : Database) : Prop where
  filed : db.table.Filed
  store : db.store.entries? = some db.table

namespace Mirrored

variable {db db' : Database}

theorem memory (h : db.Mirrored) : ∃ m, db.store = .memory m ∧ m.entries = db.table := by
  have hstore := h.store
  cases hs : db.store with
  | memory m =>
    rw [hs] at hstore
    exact ⟨m, rfl, Option.some.inj hstore⟩
  | none =>
    rw [hs] at hstore
    cases hstore
  | tree t =>
    rw [hs] at hstore
    cases hstore

theorem entries_refuse (s : Store) (writes reads : Bool) :
    (s.refuse writes reads).entries? = s.entries? := by
  cases s <;> rfl

theorem under (h : db.Mirrored) (s : Step) : (db.under s).Mirrored :=
  ⟨h.filed, (entries_refuse _ _ _).trans h.store⟩

/-- A change in which store and table come out the same. -/
theorem change (h : db.Mirrored) {delete merge : List Binding} {store : Store} {table : Table}
    (hstore : db.store.commit delete merge = .ok store)
    (htable : table = (db.table.dropAll delete).fileAll merge) (removed touched : List Binding) :
    (db.change table removed touched store).Mirrored := by
  obtain ⟨m, hm, hentries⟩ := h.memory
  subst htable
  refine ⟨(h.filed.dropAll delete).fileAll merge, ?_⟩
  show store.entries? = some ((db.table.dropAll delete).fileAll merge)
  rw [hm, Store.commit, MemoryStore.commit] at hstore
  split at hstore
  · cases hstore
  · cases hstore
    rw [← hentries]
    rfl

/-- Taking out first what the winners replace makes no difference. -/
theorem fileAll_dropAll_replaced {t : Table} (ht : t.Filed) {c : Contest} (hc : c.Sound) :
    t.fileAll c.winners.bindings =
      (t.dropAll (c.winners.bindings.filterMap fun b => t[b.net]?)).fileAll c.winners.bindings := by
  apply Std.ExtTreeMap.ext_getElem?
  intro n
  rw [Table.getElem?_fileAll_bindings _ hc.filed, Table.getElem?_fileAll_bindings _ hc.filed,
    Table.getElem?_dropAll]
  cases hn : c.winners[n]? with
  | some b => rfl
  | none =>
    have hmem : n ∉ (c.winners.bindings.filterMap fun b => t[b.net]?).map Binding.net := by
      intro hmem
      obtain ⟨r, hr, rfl⟩ := List.mem_map.1 hmem
      obtain ⟨b, hb, hr⟩ := List.mem_filterMap.1 hr
      have hnet := ht b.net r hr
      have hwon := hc.filed.mem_bindings.1 hb
      rw [← hnet, hn] at hwon
      cases hwon
    rw [if_neg hmem]

theorem add (h : db.Mirrored) {batch winners : List Binding}
    (hadd : db.add batch = .ok (winners, db')) : db'.Mirrored := by
  have hsound := Contest.resolve_sound (fun n => db.table[n]?) batch
  obtain ⟨rfl, ⟨-, rfl⟩ | ⟨-, store, hstore, rfl⟩⟩ := add_cases hadd
  · exact h
  · exact h.change hstore (fileAll_dropAll_replaced h.filed hsound) _ _

theorem deleteWhere (h : db.Mirrored) {selects : Binding → Bool} {nets : List Network}
    {doomed : List Binding} (hdelete : db.deleteWhere selects nets = .ok (doomed, db')) :
    db'.Mirrored := by
  obtain ⟨-, ⟨-, rfl⟩ | ⟨-, store, hstore, rfl⟩⟩ := deleteWhere_cases hdelete
  · exact h
  · exact h.change hstore rfl _ _

end Mirrored

/-- A database that is opened over a memory store mirrors it. -/
theorem mirrored_of_openOn {db : Database} {m : MemoryStore} (hm : m.entries.Filed)
    (hopen : openOn (.memory m) = .ok db) : db.Mirrored ∧ db.table = m.entries := by
  obtain ⟨stored, hread, rfl⟩ := openOn_cases hopen
  have hstored : stored = m.entries.bindings := by
    rw [Store.read, MemoryStore.read] at hread
    split at hread
    · cases hread
    · cases hread
      rfl
  have htable : Table.ofBindings stored = m.entries := by
    rw [hstored, Table.ofBindings_bindings hm]
  refine ⟨⟨Table.Filed.ofBindings stored, ?_⟩, htable⟩
  show some m.entries = some (Table.ofBindings stored)
  rw [htable]

namespace Mirrored

variable {db db' : Database}

theorem reopen (h : db.Mirrored) (hopen : db.reopen = .ok db') :
    db'.Mirrored ∧ db'.table = db.table := by
  obtain ⟨m, hm, hentries⟩ := h.memory
  rw [Database.reopen, hm] at hopen
  have hfiled : m.entries.Filed := by
    rw [hentries]
    exact h.filed
  obtain ⟨hmirrored, htable⟩ := mirrored_of_openOn hfiled hopen
  exact ⟨hmirrored, htable.trans hentries⟩

theorem apply (h : db.Mirrored) {c : Call} {bs : List Binding} (hc : c.apply db = .ok (bs, db')) :
    db'.Mirrored := by
  cases c with
  | add batch => exact h.add hc
  | delete nets => exact h.deleteWhere hc
  | deleteFrom peer nets => exact h.deleteWhere hc
  | purge peer => exact h.deleteWhere hc
  | reopen =>
    cases hopen : db.reopen with
    | error e => simp [Call.apply, hopen, Except.map] at hc
    | ok db₁ =>
      simp only [Call.apply, hopen, Except.map, Except.ok.injEq, Prod.mk.injEq] at hc
      obtain ⟨-, rfl⟩ := hc
      exact (h.reopen hopen).1
  | takeRemoved | watch label | unwatch label =>
    cases hc
    exact ⟨h.filed, h.store⟩

theorem step (h : db.Mirrored) (s : Step) : (db.step s).Mirrored := by
  rw [Database.step]
  cases hc : s.call.apply (db.under s) with
  | error e => exact h.under s
  | ok r =>
    obtain ⟨bs, db₁⟩ := r
    exact (h.under s).apply hc

theorem run (h : db.Mirrored) (steps : List Step) : (db.run steps).Mirrored := by
  induction steps generalizing db with
  | nil => exact h
  | cons s steps ih => exact ih (h.step s)

end Mirrored

/-- After any run over a store, whatever the store refused on the way: the store holds the table;
a next call that fails, which may be while it is under way, leaves the database as it was; and a
database opened over the store has the same table, and does open when the store can be read. -/
theorem run_mirrored {m : MemoryStore} {db : Database} (hm : m.entries.Filed)
    (hopen : openOn (.memory m) = .ok db) (steps : List Step) (next : Step) :
    (db.run steps).store.entries? = some (db.run steps).table ∧
      (∀ e left, next.call.inPlace ((db.run steps).under next) = .error e left →
        left = (db.run steps).under next) ∧
      (∀ again, ((db.run steps).under next).reopen = .ok again →
        again.table = (db.run steps).table) ∧
      (next.refusesReads = false → ∃ again, ((db.run steps).under next).reopen = .ok again) := by
  have hmirrored := (mirrored_of_openOn hm hopen).1.run steps
  refine ⟨hmirrored.store, ?_, ?_, ?_⟩
  · intro e left hfail
    rw [Call.inPlace_eq, InPlace.ofWhole] at hfail
    split at hfail
    · cases hfail
    · cases hfail
      rfl
  · intro again hagain
    exact ((hmirrored.under next).reopen hagain).2
  · intro hreads
    obtain ⟨m', hm', -⟩ := hmirrored.memory
    refine ⟨{ table := .ofBindings m'.entries.bindings,
              store := (db.run steps).store.refuse next.refusesWrites next.refusesReads }, ?_⟩
    rw [Database.reopen, under, hm', hreads]
    rfl

/-- A network that is won twice in one batch, a refused deletion and a reopening. -/
def refusedDeletion : List Step :=
  let net : Network := .v4 ⟨0x0A000000, 8⟩
  [⟨false, true, .add [⟨net, 7, [1, 2], ⟨10, 0⟩⟩, ⟨net, 8, [1], ⟨20, 0⟩⟩]⟩,
    ⟨true, false, .delete [net]⟩, ⟨false, false, .reopen⟩]

/-- A store that holds a binding from the start. -/
def seeded : MemoryStore := { entries := .ofBindings [⟨.v6 ⟨1, 128⟩, 9, [], ⟨5, 0⟩⟩] }

theorem run_mirrored_refusedDeletion : seeded.entries.Filed ∧ ∃ db : Database,
    openOn (.memory seeded) = .ok db ∧
    (db.run refusedDeletion).store.entries? = some (db.run refusedDeletion).table := by
  have hfiled : seeded.entries.Filed := Table.Filed.ofBindings _
  have hopen : openOn (.memory seeded) =
      .ok { table := .ofBindings seeded.entries.bindings, store := .memory seeded } := rfl
  have h := run_mirrored hfiled hopen refusedDeletion ⟨false, false, .reopen⟩
  exact ⟨hfiled, _, hopen, h.1⟩

end Database

end TagExchange
