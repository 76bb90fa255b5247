import TagExchange.Proofs.Database.Mirror
import TagExchange.Proofs.Database.Operations
import TagExchange.Proofs.Network.Addresses
import TagExchange.Proofs.Store.Trees

/-!
# What a database loads stays as it was loaded

Opening a database files what the store gives, as it is. Additions clean their candidates and pass
over default routes, so no operation brings in a binding that is not as it should be, and none
touches one that is there unless it takes it out. A table over any store is well formed exactly when
what was loaded is, but for what has been taken out since (`Database.wellFormed_run_iff`).

What is at stake is the counting up of hosts: it stays within the block, and within the width of its
addresses, exactly when no bit beyond the length is set (`Network.countable_iff`).
-/

namespace TagExchange

namespace Net

variable {w : Nat}

/-- Counting up the hosts stays in the block, and no sum is beyond the last address. -/
def Countable (n : Net w) : Prop :=
  ∀ i < n.size, n.addr.toNat + i < 2 ^ w ∧
    (n.addr + BitVec.ofNat w i) &&& n.mask = n.addr &&& n.mask

/-- From a canonical start as many steps as the block has addresses lead to its last one; from any
other the count leaves the block. -/
theorem countable_iff (n : Net w) : n.Countable ↔ n.clean = n := by
  have hpos : 0 < 2 ^ n.hostBits := Nat.two_pow_pos _
  have hdivide := Nat.div_add_mod' n.addr.toNat (2 ^ n.hostBits)
  have hrest := Nat.mod_lt n.addr.toNat hpos
  rw [Countable, clean_eq_iff, size_eq]
  set q := n.addr.toNat / 2 ^ n.hostBits with hq
  constructor
  · intro hcount
    by_contra hne
    have hsum : n.addr.toNat + (2 ^ n.hostBits - n.addr.toNat % 2 ^ n.hostBits) =
        (q + 1) * 2 ^ n.hostBits := by
      rw [Nat.add_mul, Nat.one_mul]
      omega
    obtain ⟨hlt, hmask⟩ := hcount (2 ^ n.hostBits - n.addr.toNat % 2 ^ n.hostBits) (by omega)
    have hmask := congrArg BitVec.toNat hmask
    rw [toNat_and_mask, toNat_and_mask, BitVec.toNat_add, BitVec.toNat_ofNat, Nat.add_mod_mod,
      Nat.mod_eq_of_lt hlt, hsum, Nat.mul_div_cancel _ hpos, ← hq, Nat.add_mul] at hmask
    omega
  · intro hclean i hi
    have hend := toNat_add_le ((clean_eq_iff n).2 hclean)
    have hlt : n.addr.toNat + i < 2 ^ w := by omega
    have hquotient : (n.addr.toNat + i) / 2 ^ n.hostBits = q := by
      rw [← hclean, Nat.mul_comm q, Nat.mul_add_div hpos, Nat.div_eq_of_lt hi, Nat.add_zero]
    refine ⟨hlt, BitVec.eq_of_toNat_eq ?_⟩
    rw [toNat_and_mask, toNat_and_mask, BitVec.toNat_add, BitVec.toNat_ofNat, Nat.add_mod_mod,
      Nat.mod_eq_of_lt hlt, hquotient]

end Net

namespace Network

def Countable : Network → Prop
  | v4 n => n.Countable
  | v6 n => n.Countable

theorem countable_iff (n : Network) : n.Countable ↔ n.clean = n := by
  cases n with
  | v4 n => simp [Countable, Net.countable_iff, clean]
  | v6 n => simp [Countable, Net.countable_iff, clean]

end Network

theorem Binding.clean_eq_iff (b : Binding) : b.clean = b ↔ b.net.clean = b.net := by
  cases b
  simp [clean]

/-- Every binding lies under its own network, has no bit set beyond the length of it and is no
default route. -/
structure Table.WellFormed (t : Table) : Prop where
  filed : t.Filed
  proper : ∀ b ∈ t.bindings, Contest.Proper b

namespace Contest

/-- A contest is never won for the network of a binding that is not as it should be. -/
theorem Sound.winners_of_not_proper {c : Contest} (h : c.Sound) {b : Binding} (hb : ¬ Proper b) :
    c.winners[b.net]? = none := by
  rw [Option.eq_none_iff_forall_ne_some]
  intro w hw
  have hnet := h.filed _ _ hw
  have hclean := (Binding.clean_eq_iff w).1 (h.clean _ _ hw)
  rw [hnet] at hclean
  exact hb ⟨(Binding.clean_eq_iff b).2 hclean, h.specific _ _ hw⟩

end Contest

namespace Database

open Contest (Proper)

variable {db db' : Database} {b : Binding}

/-- The call, where it succeeds, takes the binding out. -/
def Call.Takes : Call → Binding → Prop
  | delete nets, b => b.net ∈ nets
  | deleteFrom peer nets, b => b.net ∈ nets ∧ b.learnedFrom = some peer
  | purge peer, b => b.learnedFrom = some peer
  | add _, _ | reopen, _ | takeRemoved, _ | watch _, _ | unwatch _, _ => False

namespace Call

theorem filed_apply {c : Call} (hc : c ≠ reopen) {bs : List Binding}
    (happly : c.apply db = .ok (bs, db')) (hfiled : db.table.Filed) : db'.table.Filed := by
  cases c with
  | add batch => exact filed_add happly hfiled
  | delete nets => exact filed_deleteWhere happly hfiled
  | deleteFrom peer nets => exact filed_deleteWhere happly hfiled
  | purge peer => exact filed_deleteWhere happly hfiled
  | reopen => exact absurd rfl hc
  | takeRemoved | watch label | unwatch label =>
    cases happly
    exact hfiled

/-- A binding that is not as it should be is neither brought in nor replaced. -/
theorem mem_apply_iff {c : Call} (hc : c ≠ reopen) {bs : List Binding}
    (happly : c.apply db = .ok (bs, db')) (hfiled : db.table.Filed) (hb : ¬ Proper b) :
    b ∈ db'.bindings ↔ b ∈ db.bindings ∧ ¬ c.Takes b := by
  have hfiled' := filed_apply hc happly hfiled
  rw [bindings, hfiled'.mem_bindings, bindings, hfiled.mem_bindings]
  cases c with
  | add batch =>
    have hlost := (Contest.resolve_sound (fun n => db.table[n]?) batch).winners_of_not_proper hb
    rw [getElem?_add happly, hlost]
    simp [Takes]
  | delete nets =>
    rw [getElem?_deleteWhere happly hfiled, Option.filter_eq_some_iff]
    simp [Takes]
  | deleteFrom peer nets =>
    rw [getElem?_deleteWhere happly hfiled, Option.filter_eq_some_iff]
    simp [Takes, imp_iff_not_or]
  | purge peer =>
    rw [getElem?_purge happly hfiled, Option.filter_eq_some_iff]
    simp [Takes]
  | reopen => exact absurd rfl hc
  | takeRemoved | watch label | unwatch label =>
    cases happly
    simp [Takes, Database.watch, Database.unwatch]

end Call

/-- One of the steps takes the binding out, and succeeds. -/
def TakesOut (db : Database) (steps : List Step) (b : Binding) : Prop :=
  ∃ front s back, steps = front ++ s :: back ∧ s.call.Takes b ∧
    ∃ r, s.call.apply ((db.run front).under s) = .ok r

theorem takesOut_concat {steps : List Step} {s : Step} :
    db.TakesOut (steps ++ [s]) b ↔ db.TakesOut steps b ∨
      (s.call.Takes b ∧ ∃ r, s.call.apply ((db.run steps).under s) = .ok r) :=
  exists_split_concat.trans or_comm

theorem run_concat (db : Database) (steps : List Step) (s : Step) :
    db.run (steps ++ [s]) = (db.run steps).step s := by
  simp [run]

/-- The induction is on the steps from the last: what holds before a step is what it starts from. -/
theorem mem_run_iff (hfiled : db.table.Filed) {steps : List Step}
    (hsteps : ∀ s ∈ steps, s.call ≠ .reopen) :
    (db.run steps).table.Filed ∧ ∀ b, ¬ Proper b →
      (b ∈ (db.run steps).bindings ↔ b ∈ db.bindings ∧ ¬ db.TakesOut steps b) := by
  induction steps using List.reverseRecOn with
  | nil => exact ⟨hfiled, fun b _ => by simp [run, TakesOut]⟩
  | append_singleton steps s ih =>
    obtain ⟨hfiled', hmem⟩ := ih fun r hr => hsteps r (by simp [hr])
    have hs : s.call ≠ .reopen := hsteps s (by simp)
    simp only [run_concat, takesOut_concat, step]
    cases happly : s.call.apply ((db.run steps).under s) with
    | error e =>
      refine ⟨hfiled', fun b hb => ?_⟩
      show b ∈ (db.run steps).bindings ↔ _
      rw [hmem b hb]
      simp
    | ok r =>
      obtain ⟨bs, db₁⟩ := r
      have hstart : ((db.run steps).under s).table.Filed := hfiled'
      refine ⟨Call.filed_apply hs happly hstart, fun b hb => ?_⟩
      have hbefore : b ∈ ((db.run steps).under s).bindings ↔
          b ∈ db.bindings ∧ ¬ db.TakesOut steps b := hmem b hb
      rw [Call.mem_apply_iff hs happly hstart hb, hbefore]
      simp [not_or, and_assoc]

/-- A run over a database that was opened on a store, whatever the store holds and whatever it
refuses on the way. Every binding lies under its own network. Of those that are not as they should
be, the table has exactly what was loaded and not taken out since; so it is well formed exactly
when nothing of that kind is left. The hosts of a network that is held can be counted up exactly
when it is clean. -/
theorem wellFormed_run_iff {store : Store} (hopen : openOn store = .ok db) {steps : List Step}
    (hsteps : ∀ s ∈ steps, s.call ≠ .reopen) :
    (db.run steps).table.Filed ∧
      (∀ b, ¬ Proper b →
        (b ∈ (db.run steps).bindings ↔ b ∈ db.bindings ∧ ¬ db.TakesOut steps b)) ∧
      ((db.run steps).table.WellFormed ↔
        ∀ b ∈ db.bindings, Proper b ∨ db.TakesOut steps b) ∧
      ∀ b ∈ (db.run steps).bindings, b.net.Countable ↔ b.clean = b := by
  have hloaded : db.table.Filed := by
    obtain ⟨stored, -, hopen⟩ := Except.bind_eq_ok.1 hopen
    cases hopen
    exact Table.Filed.ofBindings stored
  obtain ⟨hfiled, hmem⟩ := mem_run_iff hloaded hsteps
  refine ⟨hfiled, hmem, ?_, fun b _ => ?_⟩
  · constructor
    · intro hformed b hb
      by_contra hnot
      obtain ⟨hproper, htaken⟩ := not_or.1 hnot
      exact hproper (hformed.proper b ((hmem b hproper).2 ⟨hb, htaken⟩))
    · intro h
      refine ⟨hfiled, fun b hb => ?_⟩
      by_contra hproper
      obtain ⟨hb, htaken⟩ := (hmem b hproper).1 hb
      exact (h b hb).elim hproper htaken
  · rw [Network.countable_iff, Binding.clean_eq_iff]

/-- What a database over a tree has when it is opened. -/
theorem mem_bindings_of_openOn_tree {t : KeyTree} (hopen : openOn (.tree t) = .ok db) :
    b ∈ db.bindings ↔ t.held? b.net = some b := by
  have htable : db.table = .ofBindings t.read := by
    cases hopen
    rfl
  rw [bindings, htable, (Table.Filed.ofBindings t.read).mem_bindings, t.holds_ofBindings_read]

/-- A default route, and a block with bits set beyond its length. -/
def anywhere : Binding := ⟨.v4 ⟨0, 0⟩, 200, [], ⟨0, 0⟩⟩
def ragged : Binding := ⟨.v4 ⟨0xFFFFFF09, 24⟩, 100, [], ⟨0, 0⟩⟩

/-- The two as a tree keeps them. -/
def careless : KeyTree := .write (.write ∅ anywhere) ragged

theorem held?_careless (n : Network) : careless.held? n =
    if ragged.net = n then some ragged else if anywhere.net = n then some anywhere else none := by
  have hragged : KeyTree.Stored ragged := ⟨by decide, by decide +kernel⟩
  have hanywhere : KeyTree.Stored anywhere := ⟨by decide, by decide +kernel⟩
  rw [careless, KeyTree.held?_write hragged, KeyTree.held?_write hanywhere]
  simp [KeyTree.held?]

/-- The default route and the other block are loaded as they stand, and counting up the hosts of the
block leaves the address space. -/
theorem careless_malformed : ∃ db : Database, openOn (.tree careless) = .ok db ∧
    anywhere ∈ db.bindings ∧ ragged ∈ db.bindings ∧ ¬ db.table.WellFormed ∧
    ¬ ragged.net.Countable := by
  have hopen : openOn (.tree careless) =
      .ok { table := .ofBindings careless.read, store := .tree careless } := rfl
  have hanywhere := (mem_bindings_of_openOn_tree (b := anywhere) hopen).2
    (by rw [held?_careless, if_neg (by decide), if_pos rfl])
  have hragged := (mem_bindings_of_openOn_tree (b := ragged) hopen).2
    (by rw [held?_careless, if_pos rfl])
  refine ⟨_, hopen, hanywhere, hragged, ?_, ?_⟩
  · intro hformed
    exact absurd (hformed.proper _ hanywhere).specific (by decide)
  · rw [Network.countable_iff]
    decide

/-- Both are taken out. -/
def mending : List Step := [⟨false, false, .delete [anywhere.net, ragged.net]⟩]

theorem wellFormed_run_iff_mending : ∃ db : Database, openOn (.tree careless) = .ok db ∧
    (∀ s ∈ mending, s.call ≠ .reopen) ∧ (db.run mending).table.WellFormed := by
  have hopen : openOn (.tree careless) =
      .ok { table := .ofBindings careless.read, store := .tree careless } := rfl
  have hsteps : ∀ s ∈ mending, s.call ≠ .reopen := by simp [mending]
  refine ⟨_, hopen, hsteps, (wellFormed_run_iff hopen hsteps).2.2.1.2 fun b hb => .inr ?_⟩
  have hnet : b.net ∈ [anywhere.net, ragged.net] := by
    have hheld := (mem_bindings_of_openOn_tree hopen).1 hb
    rw [held?_careless] at hheld
    split at hheld
    · next hnet => simp [← hnet]
    · split at hheld
      · next hnet => simp [← hnet]
      · cases hheld
  have haccepts (s : Step) :
      (under { table := .ofBindings careless.read, store := .tree careless } s).store.Accepts :=
    trivial
  obtain ⟨doomed, db', hdelete, -⟩ := deleteWhere_of_accepts
    (haccepts ⟨false, false, .delete [anywhere.net, ragged.net]⟩) (fun _ => true)
    [anywhere.net, ragged.net]
  exact ⟨[], _, [], rfl, hnet, (doomed, db'), hdelete⟩

end Database

end TagExchange
