import TagExchange.Table
import TagExchange.Network.Key
import TagExchange.Binding.Record
import TagExchange.Text.Utf8

/-!
# Stores

A store keeps bindings outside a database. `put` replaces everything, `commit` takes bindings
out and then files others as one write, `read` gives back what is there. A write that fails
changes nothing.

A memory store is a table that may be told to refuse. A key tree maps byte strings to byte
strings: a binding lies under the key of its network as the UTF-8 text of its record. Reading a
tree skips entries that are no record, and records that lie under another key than their own.
-/

namespace TagExchange

inductive StoreError where
  | refused
  | key (cause : KeyError)
  deriving DecidableEq, Repr

def StoreError.message : StoreError → String
  | refused => "datastore inaccessible: Unsupported: down"
  | key cause => s!"db key error {cause.detail}"

structure MemoryStore where
  entries : Table := ∅
  refusesWrites : Bool := false
  refusesReads : Bool := false

namespace MemoryStore

def put (m : MemoryStore) (bs : List Binding) : Except StoreError MemoryStore :=
  if m.refusesWrites then .error .refused else .ok { m with entries := .ofBindings bs }

def commit (m : MemoryStore) (delete merge : List Binding) : Except StoreError MemoryStore :=
  if m.refusesWrites then .error .refused
  else .ok { m with entries := (m.entries.dropAll delete).fileAll merge }

def read (m : MemoryStore) : Except StoreError (List Binding) :=
  if m.refusesReads then .error .refused else .ok m.entries.bindings

end MemoryStore

abbrev KeyTree := Std.ExtTreeMap Bytes Bytes compare

namespace KeyTree

def write (t : KeyTree) (b : Binding) : KeyTree := t.insert b.net.key (Utf8.encode b.record)

def put (_ : KeyTree) (bs : List Binding) : KeyTree := bs.foldl write ∅

def commit (t : KeyTree) (delete merge : List Binding) : KeyTree :=
  merge.foldl write (delete.foldl (fun t b => t.erase b.net.key) t)

/-- The binding of an entry, when its value is a record that belongs under its key. -/
def entry? (key value : Bytes) : Option Binding := do
  let b ← Binding.ofRecord? (String.ofList (Utf8.decode value))
  match Network.ofKey key with
  | .ok n => if n = b.net then some b else none
  | .error _ => none

/-- The bindings in the order of their keys, byte by byte. -/
def read (t : KeyTree) : List Binding := t.toList.filterMap fun (key, value) => entry? key value

end KeyTree

/-- What stands behind a database: nothing, a memory store or a key tree. -/
inductive Store where
  | none
  | memory (m : MemoryStore)
  | tree (t : KeyTree)

namespace Store

def put (bs : List Binding) : Store → Except StoreError Store
  | none => .ok none
  | memory m => (m.put bs).map memory
  | tree t => .ok (tree (t.put bs))

def commit (delete merge : List Binding) : Store → Except StoreError Store
  | none => .ok none
  | memory m => (m.commit delete merge).map memory
  | tree t => .ok (tree (t.commit delete merge))

/-- Files bindings over what is there. -/
def merge (bs : List Binding) : Store → Except StoreError Store := commit [] bs

def delete (bs : List Binding) : Store → Except StoreError Store := commit bs []

def read : Store → Except StoreError (List Binding)
  | none => .ok []
  | memory m => m.read
  | tree t => .ok t.read

/-- Whether a memory store refuses writes and reads from now on. -/
def refuse (writes reads : Bool) : Store → Store
  | memory m => memory { m with refusesWrites := writes, refusesReads := reads }
  | s => s

end Store

end TagExchange
