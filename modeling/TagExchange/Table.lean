import Std.Data.ExtTreeMap
import TagExchange.Binding

/-!
# Binding tables

A table files bindings under networks, in the order of networks. A binding is always filed under
its own network, where it replaces what was there.
-/

namespace TagExchange

abbrev Table := Std.ExtTreeMap Network Binding compare

namespace Table

def file (t : Table) (b : Binding) : Table := t.insert b.net b

def fileAll (t : Table) (bs : List Binding) : Table := bs.foldl file t

/-- Takes out what is filed under the networks of the given bindings. -/
def dropAll (t : Table) (bs : List Binding) : Table := bs.foldl (fun t b => t.erase b.net) t

def ofBindings (bs : List Binding) : Table := fileAll ∅ bs

/-- The bindings in the order of the networks they are filed under. -/
def bindings (t : Table) : List Binding := t.toList.map Prod.snd

/-- Every binding lies under its own network. -/
def Filed (t : Table) : Prop := ∀ (n : Network) (b : Binding), t[n]? = some b → b.net = n

theorem getElem?_file (t : Table) (b : Binding) (n : Network) :
    (t.file b)[n]? = if b.net = n then some b else t[n]? := by
  simp [file, Std.ExtTreeMap.getElem?_insert, Std.LawfulEqCmp.compare_eq_iff_eq]

theorem Filed.file {t : Table} (h : t.Filed) (b : Binding) : (t.file b).Filed := by
  intro n c hc
  rw [getElem?_file] at hc
  split at hc
  · next hn => exact Option.some.inj hc ▸ hn
  · exact h n c hc

theorem mem_bindings {t : Table} {b : Binding} :
    b ∈ t.bindings ↔ ∃ n : Network, t[n]? = some b := by
  simp [bindings, Std.ExtTreeMap.mem_toList_iff_getElem?_eq_some]

end Table

end TagExchange
