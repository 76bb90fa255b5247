import TagExchange.Proofs.Database.Tables
import TagExchange.Proofs.Store.Keys
import TagExchange.Store
import TagExchange.Text.Utf8.Lemmas

/-!
# A key tree is a table

Whatever a tree holds, as much of it as reading finds is a table, and after any writes reading
gives the bindings of the table that the same writes make of that one, each once
(`Store.read_writeAll`). Entries that reading passes over never come up, whatever is written beside
them or over them.

Two networks never share a key, so what is found under a network is changed by writes about this
network only (`KeyTree.held?_write`, `KeyTree.held?_erase`).
-/

namespace TagExchange

namespace KeyTree

variable {t : KeyTree} {b : Binding} {n : Network} {entries : Table}

/-- The binding whose record a value is. -/
def recordOf? (value : Bytes) : Option Binding :=
  Binding.ofRecord? (String.ofList (Utf8.decode value))

theorem recordOf?_encode (s : String) : recordOf? (Utf8.encode s) = Binding.ofRecord? s := by
  rw [recordOf?, Utf8.decode_encode, String.ofList_toList]

/-- The key must be the one of the record's network, and be one that can be read. -/
theorem entry?_eq_some_iff {key value : Bytes} :
    entry? key value = some b ↔ recordOf? value = some b ∧ key = b.net.key ∧ b.net.Within := by
  rw [← Network.ofKey_eq_ok_iff]
  simp only [recordOf?, entry?, bind, Option.bind_eq_some_iff]
  constructor
  · rintro ⟨c, hc, h⟩
    split at h
    · next n hn =>
      split at h
      · next hnet =>
        cases h
        exact ⟨hc, hnet ▸ hn⟩
      · cases h
    · cases h
  · rintro ⟨hb, hn⟩
    refine ⟨b, hb, ?_⟩
    rw [hn]
    exact if_pos rfl

/-- What reading finds under a network. -/
def held? (t : KeyTree) (n : Network) : Option Binding :=
  t[n.key]?.bind fun value => entry? n.key value

theorem held?_eq_some_iff : t.held? n = some b ↔
    b.net = n ∧ n.Within ∧ ∃ value, t[n.key]? = some value ∧ recordOf? value = some b := by
  simp only [held?, Option.bind_eq_some_iff, entry?_eq_some_iff]
  constructor
  · rintro ⟨value, hvalue, hrecord, hkey, hwithin⟩
    have hnet : n = b.net := Network.key_inj hkey
    subst hnet
    exact ⟨rfl, hwithin, value, hvalue, hrecord⟩
  · rintro ⟨rfl, hwithin, value, hvalue, hrecord⟩
    exact ⟨value, hvalue, hrecord, rfl, hwithin⟩

theorem mem_read : b ∈ t.read ↔ t.held? b.net = some b := by
  simp only [read, List.mem_filterMap, Prod.exists, entry?_eq_some_iff, held?_eq_some_iff,
    Std.ExtTreeMap.mem_toList_iff_getElem?_eq_some]
  constructor
  · rintro ⟨key, value, hvalue, hrecord, rfl, hwithin⟩
    exact ⟨trivial, hwithin, value, hvalue, hrecord⟩
  · rintro ⟨-, hwithin, value, hvalue, hrecord⟩
    exact ⟨_, value, hvalue, hrecord, rfl, hwithin⟩

/-- Each key gives one binding at most, which lies under this key. -/
theorem nodup_map_net_read (t : KeyTree) : (t.read.map Binding.net).Nodup := by
  rw [List.Nodup, List.pairwise_map, read, List.pairwise_filterMap]
  refine t.distinct_keys_toList.imp ?_
  rintro ⟨key, value⟩ ⟨key', value'⟩ hkeys b hb b' hb' hnets
  obtain ⟨-, hkey, -⟩ := entry?_eq_some_iff.1 hb
  obtain ⟨-, hkey', -⟩ := entry?_eq_some_iff.1 hb'
  apply hkeys
  show compare key key' = .eq
  rw [hkey, hkey', hnets]
  exact Std.ReflCmp.compare_self

/-- Reading finds a binding again once it is written: its record says what it is. -/
structure Stored (b : Binding) : Prop where
  within : b.net.Within
  record : Binding.ofRecord? b.record = some b

theorem held?_write (hb : Stored b) (t : KeyTree) (n : Network) :
    (t.write b).held? n = if b.net = n then some b else t.held? n := by
  have hentry : entry? b.net.key (Utf8.encode b.record) = some b := by
    refine entry?_eq_some_iff.2 ⟨?_, rfl, hb.within⟩
    rw [recordOf?_encode]
    exact hb.record
  rw [held?, write, Std.ExtTreeMap.getElem?_insert]
  by_cases hn : b.net = n
  · subst hn
    simp [hentry]
  · have hkey : ¬ b.net.key = n.key := fun h => hn (Network.key_inj h)
    simp [hn, hkey, held?, Std.LawfulEqCmp.compare_eq_iff_eq]

theorem held?_erase (t : KeyTree) (m n : Network) :
    held? (t.erase m.key) n = if m = n then none else t.held? n := by
  rw [held?, Std.ExtTreeMap.getElem?_erase]
  by_cases hn : m = n
  · subst hn
    simp
  · have hkey : ¬ m.key = n.key := fun h => hn (Network.key_inj h)
    simp [hn, hkey, held?, Std.LawfulEqCmp.compare_eq_iff_eq]

/-- Reading finds what the table holds, network by network. -/
def Holds (t : KeyTree) (entries : Table) : Prop := ∀ n : Network, entries[n]? = t.held? n

namespace Holds

theorem write (h : t.Holds entries) (hb : Stored b) : (t.write b).Holds (entries.file b) := by
  intro n
  rw [Table.getElem?_file, held?_write hb, h n]

theorem erase (h : t.Holds entries) (n : Network) :
    Holds (t.erase n.key) (entries.erase n) := by
  intro m
  rw [Table.getElem?_erase, held?_erase, h m]

theorem writeAll {bs : List Binding} (h : t.Holds entries) (hbs : ∀ b ∈ bs, Stored b) :
    (bs.foldl KeyTree.write t).Holds (entries.fileAll bs) := by
  induction bs generalizing t entries with
  | nil => exact h
  | cons b bs ih =>
    have hb := hbs b List.mem_cons_self
    exact ih (h.write hb) fun c hc => hbs c (List.mem_cons_of_mem _ hc)

theorem eraseAll (h : t.Holds entries) (bs : List Binding) :
    (bs.foldl (fun t b => t.erase b.net.key) t).Holds (entries.dropAll bs) := by
  induction bs generalizing t entries with
  | nil => exact h
  | cons b bs ih => exact ih (h.erase b.net)

theorem commit {delete merge : List Binding} (h : t.Holds entries)
    (hmerge : ∀ b ∈ merge, Stored b) :
    (t.commit delete merge).Holds ((entries.dropAll delete).fileAll merge) :=
  (h.eraseAll delete).writeAll hmerge

theorem put {bs : List Binding} (hbs : ∀ b ∈ bs, Stored b) :
    (t.put bs).Holds (.ofBindings bs) := by
  have hempty : Holds (∅ : KeyTree) ∅ := by
    intro n
    simp [held?]
  exact hempty.writeAll hbs

theorem filed (h : t.Holds entries) : entries.Filed := by
  intro n b hb
  rw [h n] at hb
  exact (held?_eq_some_iff.1 hb).1

theorem read_perm (h : t.Holds entries) : t.read.Perm entries.bindings := by
  have hnodup := (nodup_map_net_read t).of_map
  have hnodup' := (Table.nodup_map_net_bindings h.filed).of_map
  rw [List.perm_ext_iff_of_nodup hnodup hnodup']
  intro b
  rw [mem_read, h.filed.mem_bindings, h b.net]

end Holds

theorem holds_ofBindings_read (t : KeyTree) : t.Holds (.ofBindings t.read) := by
  intro n
  apply Option.ext
  intro b
  rw [Table.getElem?_ofBindings_eq_some_iff (nodup_map_net_read t), mem_read]
  constructor
  · rintro ⟨rfl, hb⟩
    exact hb
  · intro hb
    obtain ⟨rfl, -⟩ := held?_eq_some_iff.1 hb
    exact ⟨rfl, hb⟩

end KeyTree

namespace Store

/-- A call that writes to a store. -/
inductive Write where
  | put (bs : List Binding)
  | commit (delete merge : List Binding)
  | merge (bs : List Binding)
  | delete (bs : List Binding)

namespace Write

def apply : Write → Store → Except StoreError Store
  | put bs => Store.put bs
  | commit old new => Store.commit old new
  | merge bs => Store.merge bs
  | delete bs => Store.delete bs

/-- What the call makes of a table. -/
def file : Write → Table → Table
  | put bs, _ => .ofBindings bs
  | commit old new, entries => (entries.dropAll old).fileAll new
  | merge bs, entries => entries.fileAll bs
  | delete bs, entries => entries.dropAll bs

/-- The bindings that the call files. -/
def filed : Write → List Binding
  | put bs | commit _ bs | merge bs => bs
  | delete _ => []

/-- A write to a tree succeeds, and does to the tree what it does to the table. -/
theorem apply_tree {t : KeyTree} {entries : Table} (h : t.Holds entries) (w : Write)
    (hw : ∀ b ∈ w.filed, KeyTree.Stored b) :
    ∃ t' : KeyTree, w.apply (.tree t) = .ok (.tree t') ∧ t'.Holds (w.file entries) := by
  cases w with
  | put bs => exact ⟨_, rfl, .put hw⟩
  | commit old new => exact ⟨_, rfl, h.commit hw⟩
  | merge bs => exact ⟨_, rfl, h.commit hw⟩
  | delete bs => exact ⟨_, rfl, h.commit hw⟩

theorem foldlM_apply_tree {writes : List Write} {t : KeyTree} {entries : Table}
    (h : t.Holds entries) (hwrites : ∀ w ∈ writes, ∀ b ∈ w.filed, KeyTree.Stored b) :
    ∃ t' : KeyTree, writes.foldlM (fun s w => w.apply s) (.tree t) = .ok (.tree t') ∧
      t'.Holds (writes.foldl (fun entries w => w.file entries) entries) := by
  induction writes generalizing t entries with
  | nil => exact ⟨t, rfl, h⟩
  | cons w writes ih =>
    obtain ⟨t₁, happly, hholds⟩ := w.apply_tree h (hwrites w List.mem_cons_self)
    obtain ⟨t₂, hrest, hholds⟩ := ih hholds fun w' hw' => hwrites w' (List.mem_cons_of_mem _ hw')
    refine ⟨t₂, ?_, hholds⟩
    rw [List.foldlM_cons, happly]
    exact hrest

end Write

/-- Writes to a tree that holds anything succeed, and reading it then succeeds. There is a table of
the entries of the tree that are records under their own readable keys. The bindings that are read
are those of the table that the writes make of this one, and no two are about one network. -/
theorem read_writeAll (t : KeyTree) (writes : List Write)
    (hwrites : ∀ w ∈ writes, ∀ b ∈ w.filed,
      b.net.Within ∧ Binding.ofRecord? b.record = some b) :
    ∃ (start : Table) (s : Store) (bs : List Binding),
      (∀ (n : Network) (b : Binding), start[n]? = some b ↔ b.net = n ∧ n.Within ∧
        ∃ value, t[n.key]? = some value ∧ KeyTree.recordOf? value = some b) ∧
      writes.foldlM (fun s w => w.apply s) (.tree t) = .ok s ∧ s.read = .ok bs ∧
      bs.Perm (writes.foldl (fun entries w => w.file entries) start).bindings ∧
      (bs.map Binding.net).Nodup := by
  have hstored : ∀ w ∈ writes, ∀ b ∈ w.filed, KeyTree.Stored b :=
    fun w hw b hb => ⟨(hwrites w hw b hb).1, (hwrites w hw b hb).2⟩
  have hstart := t.holds_ofBindings_read
  obtain ⟨t', hwritten, hholds⟩ := Write.foldlM_apply_tree hstart hstored
  refine ⟨.ofBindings t.read, .tree t', t'.read, ?_, hwritten, rfl, hholds.read_perm,
    t'.nodup_map_net_read⟩
  intro n b
  rw [hstart n, KeyTree.held?_eq_some_iff]

/-- A binding of one block and one of an address elsewhere. -/
def office (tag : UInt16) : Binding := ⟨.v4 ⟨0x0A000000, 8⟩, tag, [], ⟨0, 0⟩⟩
def printer : Binding := ⟨.v6 ⟨1, 128⟩, 9, [7], ⟨5, 0⟩⟩

/-- A tree with a key that is none, a value that is no record and one good entry. -/
def worn : KeyTree :=
  .write (((∅ : KeyTree).insert [0] [1]).insert (office 7).net.key [0xFF]) printer

/-- A write over the bad value that files the network twice. -/
def overwriting : List Write := [.commit [office 7] [office 8, office 9]]

theorem read_writeAll_worn :
    (∀ w ∈ overwriting, ∀ b ∈ w.filed,
      b.net.Within ∧ Binding.ofRecord? b.record = some b) ∧
    ∃ (s : Store) (bs : List Binding),
      overwriting.foldlM (fun s w => w.apply s) (.tree worn) = .ok s ∧ s.read = .ok bs ∧
      printer ∈ bs ∧ office 9 ∈ bs := by
  have hwrites : ∀ w ∈ overwriting, ∀ b ∈ w.filed,
      b.net.Within ∧ Binding.ofRecord? b.record = some b := by decide +kernel
  obtain ⟨start, s, bs, hstart, hwritten, hread, hperm, -⟩ :=
    read_writeAll worn overwriting hwrites
  have hprinter : start[printer.net]? = some printer := by
    refine (hstart _ _).2 ⟨rfl, by decide, Utf8.encode printer.record, ?_, ?_⟩
    · rw [worn, KeyTree.write, Std.ExtTreeMap.getElem?_insert_self]
    · rw [KeyTree.recordOf?_encode]
      decide +kernel
  have hother (tag : UInt16) : (office tag).net ≠ printer.net := by simp [office, printer]
  refine ⟨hwrites, s, bs, hwritten, hread, ?_, ?_⟩
  · refine hperm.mem_iff.2 (Table.mem_bindings.2 ⟨printer.net, ?_⟩)
    simpa [overwriting, Write.file, Table.fileAll, Table.getElem?_file, Table.getElem?_dropAll,
      hother, (hother _).symm] using hprinter
  · refine hperm.mem_iff.2 (Table.mem_bindings.2 ⟨(office 9).net, ?_⟩)
    simp [overwriting, Write.file, Table.fileAll, Table.getElem?_file, office]

end Store

end TagExchange
