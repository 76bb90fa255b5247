import Std.Data.ExtTreeSet
import TagExchange.BestPath
import TagExchange.Store

/-!
# The binding database

A database holds the binding that counts for each network. A batch of additions is resolved
against it, a deletion takes out what it names; the store is written first, and only a write
that succeeds changes the table. Bindings that lose their place are logged, the newest 1024 of
them. Every change raises the generation and sends each live watcher the set of networks that
changed. The generation is a word of 64 bits and starts over when it is full.
-/

namespace TagExchange

/-- The networks that a change touched. -/
abbrev Notice := Std.ExtTreeSet Network compare

namespace Notice

def ofBindings (bs : List Binding) : Notice := .ofList (bs.map Binding.net)

def text (n : Notice) : String :=
  "PrefixChangeNotification [ " ++ String.join (n.toList.map fun net => net.text ++ " ") ++ "]"

end Notice

/-- A watcher is never taken off a database, but it can go away. -/
structure Watcher where
  label : String
  live : Bool := true
  inbox : List Notice := []

/-- A generation is shown as a number. -/
instance coeGeneration : Coe UInt64 Nat := ⟨UInt64.toNat⟩

structure Database where
  table : Table := ∅
  removed : List Binding := []
  generation : UInt64 := 0
  watchers : List Watcher := []
  store : Store := .none

namespace Database

/-- The most bindings that the log of removed bindings holds. -/
def logLimit : Nat := 1024

/-- The last entries of a log, as many as it may hold. -/
def newest (log : List Binding) : List Binding := log.drop (log.length - logLimit)

/-- A database over a store, filled from it. -/
def openOn (store : Store) : Except StoreError Database := do
  let stored ← store.read
  return { table := .ofBindings stored, store }

def notify (db : Database) (notice : Notice) : Database :=
  { db with watchers := db.watchers.map fun w =>
      if w.live then { w with inbox := w.inbox ++ [notice] } else w }

/-- Enters a change that the store has taken. -/
def change (db : Database) (table : Table) (removed touched : List Binding) (store : Store) :
    Database :=
  { db with
    table, store
    removed := newest (db.removed ++ removed)
    generation := db.generation + 1 }.notify (.ofBindings touched)

/-- Resolves a batch and files the winners, which are returned in the order of their networks. -/
def add (db : Database) (batch : List Binding) : Except StoreError (List Binding × Database) :=
  let winners := (Contest.resolve (fun n => db.table[n]?) batch).winners.bindings
  if winners = [] then .ok ([], db)
  else do
    let replaced := winners.filterMap fun b => db.table[b.net]?
    let store ← db.store.commit replaced winners
    return (winners, db.change (db.table.fileAll winners) replaced winners store)

/-- Takes out what the networks hold, as far as it is selected. A network listed twice counts
twice. -/
def deleteWhere (db : Database) (selects : Binding → Bool) (nets : List Network) :
    Except StoreError (List Binding × Database) :=
  let doomed := (nets.filterMap fun n => db.table[n]?).filter selects
  if doomed = [] then .ok ([], db)
  else do
    let store ← db.store.commit doomed []
    return (doomed, db.change (db.table.dropAll doomed) doomed doomed store)

def delete (db : Database) (nets : List Network) : Except StoreError (List Binding × Database) :=
  db.deleteWhere (fun _ => true) nets

/-- Deletes only what was learned from the peer. -/
def deleteFrom (db : Database) (peer : NodeId) (nets : List Network) :
    Except StoreError (List Binding × Database) :=
  db.deleteWhere (fun b => b.learnedFrom == some peer) nets

/-- The networks of the bindings learned from a peer. -/
def learnedFrom (db : Database) (peer : NodeId) : List Network :=
  (db.table.bindings.filter fun b => b.learnedFrom == some peer).map Binding.net

/-- Deletes everything learned from a peer. -/
def purge (db : Database) (peer : NodeId) : Except StoreError (List Binding × Database) :=
  db.deleteFrom peer (db.learnedFrom peer)

def get? (db : Database) (net : Network) : Option Binding := db.table[net]?

def bindings (db : Database) : List Binding := db.table.bindings

def takeRemoved (db : Database) : List Binding × Database :=
  (db.removed, { db with removed := [] })

def watch (db : Database) (label : String) : Database :=
  { db with watchers := db.watchers ++ [{ label }] }

/-- All watchers of that label go away. -/
def unwatch (db : Database) (label : String) : Database :=
  { db with watchers := db.watchers.map fun w =>
      if w.label == label then { w with live := false } else w }

/-- What the watchers have received, in the order they were registered. -/
def collect (db : Database) : List (String × Notice) × Database :=
  (db.watchers.flatMap fun w => w.inbox.map (w.label, ·),
    { db with watchers := db.watchers.map fun w => { w with inbox := [] } })

/-- A new database over the same store. The watchers stay behind. -/
def reopen (db : Database) : Except StoreError Database := openOn db.store

end Database

end TagExchange
