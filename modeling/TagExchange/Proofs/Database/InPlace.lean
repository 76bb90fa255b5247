import TagExchange.Database
import TagExchange.Proofs.Database.BestPath

/-!
# The operations in the order of their effects

A database changes one part at a time: the store is written first, then the table loses what is
stale and gains what is new, the log and the generation follow, and the watchers are told last. An
operation that breaks off leaves what it has done by then. Each of these step by step operations has
the result of the operation in one piece, and where that fails it has changed nothing
(`InPlace.add_eq`, `InPlace.deleteWhere_eq`, `InPlace.reopen_eq`).
-/

namespace TagExchange

namespace Database

/-- An operation on a database that changes it on the way. -/
abbrev InPlace := EStateM StoreError Database

namespace InPlace

/-- An operation in one piece, after which the database is the new one or, on failure, the old. -/
def ofWhole (op : Database → Except StoreError (List Binding × Database)) :
    InPlace (List Binding) := fun db =>
  match op db with
  | .ok (bs, db') => .ok bs db'
  | .error e => .error e db

def commit (delete merge : List Binding) : InPlace Unit := do
  let db ← get
  match db.store.commit delete merge with
  | .ok store => set { db with store }
  | .error e => throw e

def erase (n : Network) : InPlace Unit := modify fun db => { db with table := db.table.erase n }

def file (b : Binding) : InPlace Unit := modify fun db => { db with table := db.table.file b }

def log (bs : List Binding) : InPlace Unit :=
  modify fun db => { db with removed := newest (db.removed ++ bs) }

def advance : InPlace Unit := modify fun db => { db with generation := db.generation + 1 }

def tell (bs : List Binding) : InPlace Unit := modify fun db => db.notify (.ofBindings bs)

/-- A change, the store first and the watchers last. -/
def write (delete merge : List Binding) (clear : List Network) (touched : List Binding) :
    InPlace (List Binding) := do
  commit delete merge
  clear.forM erase
  log delete
  merge.forM file
  advance
  tell touched
  return touched

/-- The networks that were won at some point, each once and in order. -/
def stale (c : Contest) : List Network := (Std.ExtTreeSet.ofList c.wins compare).toList

def add (batch : List Binding) : InPlace (List Binding) := do
  let db ← get
  let contest := Contest.resolve (fun n => db.table[n]?) batch
  let added := contest.winners.bindings
  if added = [] then return []
  else
    let replaced := (stale contest).filterMap fun n => db.table[n]?
    write replaced added (stale contest) added

def deleteWhere (selects : Binding → Bool) (nets : List Network) : InPlace (List Binding) := do
  let db ← get
  let doomed := (nets.filterMap fun n => db.table[n]?).filter selects
  if doomed = [] then return []
  else write doomed [] (doomed.map Binding.net) doomed

def delete (nets : List Network) : InPlace (List Binding) := deleteWhere (fun _ => true) nets

def deleteFrom (peer : NodeId) (nets : List Network) : InPlace (List Binding) :=
  deleteWhere (fun b => b.learnedFrom == some peer) nets

/-- The networks to delete are listed first. -/
def purge (peer : NodeId) : InPlace (List Binding) := do
  let db ← get
  deleteFrom peer (db.learnedFrom peer)

def reopen : InPlace (List Binding) := do
  let db ← get
  match openOn db.store with
  | .ok db' => set db'; return []
  | .error e => throw e

theorem forM_erase (ns : List Network) (db : Database) :
    (ns.forM erase) db =
      .ok () { db with table := ns.foldl (fun t n => t.erase n) db.table } := by
  induction ns generalizing db with
  | nil => rfl
  | cons n ns ih => exact ih { db with table := db.table.erase n }

theorem forM_file (bs : List Binding) (db : Database) :
    (bs.forM file) db = .ok () { db with table := db.table.fileAll bs } := by
  induction bs generalizing db with
  | nil => rfl
  | cons b bs ih => exact ih { db with table := db.table.file b }

/-- What is stale is what is won over. -/
theorem stale_eq {c : Contest} (h : c.Sound) : stale c = c.winners.bindings.map Binding.net := by
  have hstale : (stale c).Pairwise fun a b => compare a b = .lt := Std.ExtTreeSet.ordered_toList
  have hwon : (c.winners.bindings.map Binding.net).Pairwise fun a b => compare a b = .lt := by
    rw [Table.map_net_bindings h.filed]
    exact Std.ExtTreeMap.ordered_keys
  refine Table.eq_of_ordered (f := id) hstale hwon fun n => ?_
  rw [stale, Std.ExtTreeSet.mem_toList, Std.ExtTreeSet.mem_ofList, List.contains_iff_mem, h.wins,
    h.filed.mem_map_net]

theorem replaced_eq {c : Contest} (h : c.Sound) (t : Table) :
    ((stale c).filterMap fun n => t[n]?) = c.winners.bindings.filterMap fun b => t[b.net]? := by
  rw [stale_eq h, List.filterMap_map]
  rfl

theorem getElem?_foldl_erase (t : Table) (ns : List Network) (n : Network) :
    (ns.foldl (fun t n => t.erase n) t)[n]? = if n ∈ ns then none else t[n]? := by
  induction ns generalizing t with
  | nil => simp
  | cons m ns ih =>
    rw [List.foldl_cons, ih, Table.getElem?_erase]
    by_cases hm : m = n
    · simp [hm]
    · have hn : ¬ n = m := fun h => hm h.symm
      simp [hm, hn]

/-- Filing the winners alone already replaces what is stale. -/
theorem fileAll_erase_stale {c : Contest} (h : c.Sound) (t : Table) :
    Table.fileAll ((stale c).foldl (fun t n => t.erase n) t) c.winners.bindings =
      t.fileAll c.winners.bindings := by
  apply Std.ExtTreeMap.ext_getElem?
  intro n
  rw [Table.getElem?_fileAll_bindings _ h.filed, Table.getElem?_fileAll_bindings _ h.filed,
    getElem?_foldl_erase, stale_eq h]
  cases hn : c.winners[n]? with
  | some b => rfl
  | none =>
    have hmem : n ∉ c.winners.bindings.map Binding.net := by
      intro hmem
      obtain ⟨b, hb⟩ := h.filed.mem_map_net.1 hmem
      simp [hn] at hb
    rw [if_neg hmem]

theorem write_apply (delete merge : List Binding) (clear : List Network) (touched : List Binding)
    (db : Database) : write delete merge clear touched db =
      match db.store.commit delete merge with
      | .ok store => .ok touched (db.change
          (Table.fileAll (clear.foldl (fun t n => t.erase n) db.table) merge) delete touched store)
      | .error e => .error e db := by
  cases hstore : db.store.commit delete merge with
  | error e =>
    have hcommit : commit delete merge db = .error e db := by
      simp only [commit, bind, EStateM.bind, get, getThe, MonadStateOf.get, EStateM.get, hstore]
      rfl
    simp only [write, bind, EStateM.bind, hcommit]
  | ok store =>
    have hcommit : commit delete merge db = .ok () { db with store } := by
      simp only [commit, bind, EStateM.bind, get, getThe, MonadStateOf.get, EStateM.get, hstore]
      rfl
    have hclear := forM_erase clear { db with store }
    simp only [write, bind, EStateM.bind, hcommit, hclear, log, modify, modifyGet,
      MonadStateOf.modifyGet, EStateM.modifyGet, forM_file, advance, tell, pure, EStateM.pure]
    rfl

theorem add_eq (batch : List Binding) : add batch = ofWhole fun db => db.add batch := by
  funext db
  have hsound := Contest.resolve_sound (fun n => db.table[n]?) batch
  have hreplaced := replaced_eq hsound db.table
  have htable := fileAll_erase_stale hsound db.table
  show (if _ = [] then _ else _ : InPlace (List Binding)) db = ofWhole (fun db => db.add batch) db
  rw [ofWhole, Database.add]
  split
  · rfl
  · rw [write_apply, hreplaced, htable]
    dsimp only
    cases db.store.commit _ _ <;> rfl

theorem deleteWhere_eq (selects : Binding → Bool) (nets : List Network) :
    deleteWhere selects nets = ofWhole fun db => db.deleteWhere selects nets := by
  funext db
  show (if _ = [] then _ else _ : InPlace (List Binding)) db =
    ofWhole (fun db => db.deleteWhere selects nets) db
  rw [ofWhole, Database.deleteWhere]
  split
  · rfl
  · rw [write_apply, List.foldl_map]
    cases db.store.commit _ _ <;> rfl

theorem reopen_eq : reopen = ofWhole fun db => db.reopen.map ([], ·) := by
  funext db
  show (match openOn db.store with | .ok db' => _ | .error e => _ : InPlace (List Binding)) db = _
  rw [ofWhole, Database.reopen]
  cases openOn db.store <;> rfl

end InPlace

end Database

end TagExchange
