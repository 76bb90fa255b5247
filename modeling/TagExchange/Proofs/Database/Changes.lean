import TagExchange.Proofs.Database.Batches
import TagExchange.Proofs.Database.Loading

/-!
# What a change tells

An addition or a deletion that succeeds gives back a list. The networks in it are those under which
the table before and the table after differ (`Database.Tells`), because a winner supersedes who held
its network and so differs from it, and what is doomed lies under its own network. Unless the list
is empty the operation enters one change, and then the generation goes up by one and every live
watcher hears of these networks once (`Database.apply_told`).
-/

namespace TagExchange

namespace Contest

variable {holder : Network → Option Binding} {c : Contest}

/-- Every winner supersedes who held its network before the batch. -/
def Overtakes (holder : Network → Option Binding) (c : Contest) : Prop :=
  ∀ (n : Network) (b : Binding), c.winners[n]? = some b → b.supersedes (holder n) = true

theorem Overtakes.hear (h : c.Overtakes holder) (b : Binding) :
    (Contest.hear holder c b).Overtakes holder := by
  by_cases ht : c.Takes holder b
  · intro n w hw
    rw [hear_of_takes ht, Table.getElem?_file] at hw
    split at hw
    · next hn =>
      subst hn
      cases hw
      have hwins := ht.2
      cases hwinner : c.winners[b.clean.net]? with
      | none => simpa [hwinner] using hwins
      | some w =>
        have hover := h _ w hwinner
        rw [hwinner] at hwins
        cases hholder : holder b.clean.net with
        | none => rfl
        | some a =>
          rw [hholder] at hover
          exact Binding.supersedes_trans hwins hover
    · exact h n w hw
  · rwa [hear_of_not_takes ht]

theorem resolve_overtakes (holder : Network → Option Binding) (batch : List Binding) :
    (resolve holder batch).Overtakes holder := by
  have hfold (c : Contest) (h : c.Overtakes holder) :
      (batch.foldl (Contest.hear holder) c).Overtakes holder := by
    induction batch generalizing c with
    | nil => exact h
    | cons b batch ih => exact ih _ (h.hear b)
  exact hfold {} (by simp [Overtakes])

theorem Overtakes.ne_holder (h : c.Overtakes holder) {n : Network} {b : Binding}
    (hb : c.winners[n]? = some b) : holder n ≠ some b := by
  intro hsame
  have hover := h n b hb
  rw [hsame, Binding.not_supersedes_self] at hover
  cases hover

end Contest

theorem Notice.mem_ofBindings {bs : List Binding} {n : Network} :
    n ∈ ofBindings bs ↔ n ∈ bs.map Binding.net := by
  rw [ofBindings, Std.ExtTreeSet.mem_ofList, List.contains_iff_mem]

namespace Database

variable {db db' : Database}

/-- A database that was opened on a store and then used in any way: calls were made, what stands
behind it has changed, watchers have taken out what they received. -/
inductive Reachable : Database → Prop
  | opened {store : Store} {db : Database} : openOn store = .ok db → Reachable db
  | called (c : Call) {db db' : Database} {bs : List Binding} :
    Reachable db → c.apply db = .ok (bs, db') → Reachable db'
  | stored (store : Store) {db : Database} : Reachable db → Reachable { db with store }
  | collected {db : Database} : Reachable db → Reachable db.collect.2

/-- Every binding lies under its own network. -/
theorem Reachable.filed (h : db.Reachable) : db.table.Filed := by
  induction h with
  | opened hopen => exact filed_of_openOn hopen
  | called c _ happly ih =>
    by_cases hc : c = .reopen
    · subst hc
      obtain ⟨again, hopen, hagain⟩ := Except.map_eq_ok.1 happly
      cases hagain
      exact filed_of_openOn hopen
    · exact Call.filed_apply hc happly ih
  | stored _ _ ih => exact ih
  | collected _ ih => exact ih

/-- The list names the networks under which two databases differ, and unless it is empty one change
lies between them. -/
structure Tells (db db' : Database) (touched : List Binding) : Prop where
  differs (n : Network) : db'.table[n]? ≠ db.table[n]? ↔ n ∈ touched.map Binding.net
  entered : (touched = [] ∧ db' = db) ∨
    touched ≠ [] ∧ ∃ table removed store, db' = db.change table removed touched store

theorem tells_add {batch winners : List Binding} (h : db.add batch = .ok (winners, db')) :
    db.Tells db' winners where
  differs n := by
    have hsound := Contest.resolve_sound (fun n => db.table[n]?) batch
    rw [(add_cases h).1, hsound.filed.mem_map_net, getElem?_add h]
    cases hwinner : (Contest.resolve (fun n => db.table[n]?) batch).winners[n]? with
    | none => simp
    | some b =>
      have hne := (Contest.resolve_overtakes (fun n => db.table[n]?) batch).ne_holder hwinner
      simpa using Ne.symm hne
  entered := by
    obtain ⟨-, hnone | ⟨hsome, store, -, rfl⟩⟩ := add_cases h
    · exact .inl hnone
    · exact .inr ⟨hsome, _, _, store, rfl⟩

theorem tells_deleteWhere {selects : Binding → Bool} {nets : List Network} {doomed : List Binding}
    (hfiled : db.table.Filed) (h : db.deleteWhere selects nets = .ok (doomed, db')) :
    db.Tells db' doomed where
  differs n := by
    rw [getElem?_doomed h]
    split
    · next hn =>
      obtain ⟨b, hb, rfl⟩ := List.mem_map.1 hn
      simp [hn, ((mem_doomed_iff h hfiled).1 hb).1]
    · next hn => simp [hn]
  entered := by
    obtain ⟨-, hnone | ⟨hsome, store, -, rfl⟩⟩ := deleteWhere_cases h
    · exact .inl hnone
    · exact .inr ⟨hsome, _, _, store, rfl⟩

theorem Tells.table_eq_iff {touched : List Binding} (h : db.Tells db' touched) :
    db'.table = db.table ↔ touched = [] := by
  constructor
  · intro hsame
    rw [List.eq_nil_iff_forall_not_mem]
    intro b hb
    exact (h.differs b.net).2 (List.mem_map_of_mem hb) (by rw [hsame])
  · intro hnone
    obtain ⟨-, rfl⟩ | ⟨hsome, -⟩ := h.entered
    · rfl
    · exact absurd hnone hsome

/-- The call is an addition or a deletion. -/
def Call.Writes : Call → Prop
  | add _ | delete _ | deleteFrom _ _ | purge _ => True
  | reopen | takeRemoved | watch _ | unwatch _ => False

theorem tells_apply {c : Call} (hc : c.Writes) {bs : List Binding} (hfiled : db.table.Filed)
    (h : c.apply db = .ok (bs, db')) : db.Tells db' bs := by
  cases c with
  | add batch => exact tells_add h
  | delete nets | deleteFrom peer nets | purge peer => exact tells_deleteWhere hfiled h
  | reopen | takeRemoved | watch label | unwatch label => exact hc.elim

/-- Where the tables are the same nothing else has changed. Where they are not, one change lies
between them, and its notice names the networks under which they differ. -/
theorem Tells.changes {touched : List Binding} (h : db.Tells db' touched) :
    (db'.table = db.table → db'.generation = db.generation ∧ db'.watchers = db.watchers) ∧
      (db'.table ≠ db.table → db'.generation = db.generation + 1 ∧
        ∃ notice : Notice, (∀ n, n ∈ notice ↔ db'.table[n]? ≠ db.table[n]?) ∧
          db'.watchers = db.watchers.map fun w =>
            if w.live then { w with inbox := w.inbox ++ [notice] } else w) := by
  rw [ne_eq, h.table_eq_iff]
  obtain ⟨hnone, rfl⟩ | ⟨hsome, table, removed, store, rfl⟩ := h.entered
  · exact ⟨fun _ => ⟨rfl, rfl⟩, fun hsome => absurd hnone hsome⟩
  · refine ⟨fun hnone => absurd hnone hsome, fun _ => ⟨rfl, .ofBindings touched, ?_, rfl⟩⟩
    intro n
    rw [Notice.mem_ofBindings, h.differs]

/-- The winners come in the order of their networks, and are what the table has now and had not
before. -/
theorem winners_told {batch winners : List Binding} (h : db.add batch = .ok (winners, db')) :
    winners.Pairwise (fun a b => compare a.net b.net = .lt) ∧
      ∀ b, b ∈ winners ↔ db'.table[b.net]? = some b ∧ db.table[b.net]? ≠ some b := by
  have hsound := Contest.resolve_sound (fun n => db.table[n]?) batch
  have hover := Contest.resolve_overtakes (fun n => db.table[n]?) batch
  rw [(add_cases h).1]
  constructor
  · exact Table.ordered_bindings hsound.filed
  · intro b
    rw [hsound.filed.mem_bindings, getElem?_add h]
    cases hwinner : (Contest.resolve (fun n => db.table[n]?) batch).winners[b.net]? with
    | none => simp
    | some w =>
      have hne := hover.ne_holder hwinner
      constructor
      · intro hw
        cases hw
        exact ⟨rfl, hne⟩
      · exact And.left

theorem apply_of_accepts {c : Call} (hc : c.Writes) (h : db.store.Accepts) :
    ∃ r, c.apply db = .ok r := by
  have hdelete (selects : Binding → Bool) (nets : List Network) :
      ∃ r, db.deleteWhere selects nets = .ok r := by
    obtain ⟨doomed, db', hdelete, -⟩ := deleteWhere_of_accepts h selects nets
    exact ⟨_, hdelete⟩
  cases c with
  | add batch =>
    obtain ⟨winners, db', hadd, -⟩ := add_of_accepts h batch
    exact ⟨_, hadd⟩
  | delete nets | deleteFrom peer nets | purge peer => exact hdelete _ _
  | reopen | takeRemoved | watch label | unwatch label => exact hc.elim

/-- An addition or a deletion, which succeeds over a store that takes every write. When it leaves
the table as it was, the generation stays and no watcher hears anything. When it does not, the
generation goes up by one and every live watcher hears once, of exactly the networks under which the
table has changed. An addition gives back what is new under these networks, in their order. -/
theorem apply_told (hdb : db.Reachable) {c : Call} (hc : c.Writes) :
    (db.store.Accepts → ∃ r, c.apply db = .ok r) ∧
    ∀ bs db', c.apply db = .ok (bs, db') →
      (db'.table = db.table → db'.generation = db.generation ∧ db'.watchers = db.watchers) ∧
      (db'.table ≠ db.table → db'.generation = db.generation + 1 ∧
        ∃ notice : Notice, (∀ n, n ∈ notice ↔ db'.table[n]? ≠ db.table[n]?) ∧
          db'.watchers = db.watchers.map fun w =>
            if w.live then { w with inbox := w.inbox ++ [notice] } else w) ∧
      ∀ batch, c = .add batch →
        bs.Pairwise (fun a b => compare a.net b.net = .lt) ∧
        ∀ b, b ∈ bs ↔ db'.table[b.net]? = some b ∧ db.table[b.net]? ≠ some b := by
  refine ⟨apply_of_accepts hc, fun bs db' happly => ?_⟩
  obtain ⟨hsame, hchanged⟩ := (tells_apply hc hdb.filed happly).changes
  refine ⟨hsame, hchanged, ?_⟩
  rintro batch rfl
  exact winners_told happly

/-- A database over a store that holds a binding, with a watcher, and a batch that wins its network
twice. -/
def watched : Database :=
  watch { table := .ofBindings seeded.entries.bindings, store := .memory seeded } "routes"
def renewals : List Binding :=
  [⟨.v6 ⟨1, 128⟩, 8, [], ⟨6, 0⟩⟩, ⟨.v6 ⟨1, 128⟩, 9, [], ⟨7, 0⟩⟩]

theorem apply_told_renewals : watched.Reachable ∧ (Call.add renewals).Writes ∧
    ∃ winners db', watched.add renewals = .ok (winners, db') ∧ db'.generation = 1 ∧
      ∃ notice : Notice, db'.watchers = [⟨"routes", true, [notice]⟩] ∧
        (.v6 ⟨1, 128⟩ : Network) ∈ notice := by
  have hopen : openOn (.memory seeded) =
      .ok { table := .ofBindings seeded.entries.bindings, store := .memory seeded } := rfl
  have hdb : watched.Reachable := .called (.watch "routes") (.opened hopen) rfl
  have hc : (Call.add renewals).Writes := trivial
  obtain ⟨hok, htold⟩ := apply_told hdb hc
  obtain ⟨⟨winners, db'⟩, happly⟩ := hok rfl
  have hadd : watched.add renewals = .ok (winners, db') := happly
  have hdiffers : db'.table[(.v6 ⟨1, 128⟩ : Network)]? ≠
      watched.table[(.v6 ⟨1, 128⟩ : Network)]? := by
    rw [getElem?_add hadd]
    decide +kernel
  obtain ⟨hgeneration, notice, hnotice, hwatchers⟩ :=
    (htold winners db' happly).2.1 fun hsame => hdiffers (by rw [hsame])
  exact ⟨hdb, hc, winners, db', hadd, hgeneration, notice, hwatchers, (hnotice _).2 hdiffers⟩

end Database

end TagExchange
