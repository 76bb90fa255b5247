import TagExchange.Proofs.Database.Deletions

/-!
# Entries that a peer cannot tell apart

A table has one binding for each network, and its networks are clean. On the wire a length beyond
the width of the addresses is written as the width, so two networks that are held have one wire form
exactly when they are hosts of one address (`Network.wire_eq_iff`): the lengths of the two are not
both within the width. What is added is not cut to the width, so such entries do come in next to
each other. A table has none of them exactly when no two networks of that kind stand at the end of
its run (`Database.distinct_run_iff`), which is so when no candidate is longer than its addresses.
-/

namespace TagExchange

namespace Net

variable {w : Nat} {m n : Net w}

theorem rebuilt_eq_of_bytes (hw : w % 8 = 0) (h : m.bytes = n.bytes) : m.rebuilt = n.rebuilt := by
  have hread : read w (m.bytes ++ []) = .ok (m.rebuilt, []) := reads hw m []
  have hread' : read w (n.bytes ++ []) = .ok (n.rebuilt, []) := reads hw n []
  rw [h, hread'] at hread
  exact (Prod.mk.inj (Except.ok.inj hread)).1.symm

theorem hostBits_rebuilt (hw : w < 256) (n : Net w) : n.rebuilt.hostBits = n.hostBits := by
  rw [hostBits, hostBits, rebuilt, length_of hw]
  omega

/-- Clean blocks have one wire form when they are the same or hold one address, whatever their
lengths are beyond the width. -/
theorem bytes_eq_iff (hw : w % 8 = 0) (hlt : w < 256) (hm : m.clean = m) (hn : n.clean = n) :
    m.bytes = n.bytes ↔ m = n ∨ (m.hostBits = 0 ∧ n.hostBits = 0 ∧ m.addr = n.addr) := by
  have hcanonical (k : Net w) (hk : k.clean = k) (hopen : k.hostBits ≠ 0) : k.rebuilt = k := by
    refine rebuilt_of_canonical ⟨?_, hk⟩
    rw [hostBits] at hopen
    omega
  constructor
  · intro hbytes
    have hrebuilt := rebuilt_eq_of_bytes hw hbytes
    have hbits : m.hostBits = n.hostBits := by
      rw [← hostBits_rebuilt hlt, hrebuilt, hostBits_rebuilt hlt]
    by_cases hopen : n.hostBits = 0
    · have hopen' := hbits.trans hopen
      rw [rebuilt_of_hostBits hlt hopen', rebuilt_of_hostBits hlt hopen] at hrebuilt
      have haddr : (host m.addr).addr = (host n.addr).addr := congrArg Net.addr hrebuilt
      exact .inr ⟨hopen', hopen, haddr⟩
    · rw [hcanonical m hm (hbits ▸ hopen), hcanonical n hn hopen] at hrebuilt
      exact .inl hrebuilt
  · rintro (rfl | ⟨hm0, hn0, haddr⟩)
    · rfl
    · have hmin (k : Net w) (hk : k.hostBits = 0) : min k.length.toNat w = w := by
        rw [hostBits] at hk
        omega
      simp only [bytes, hmin m hm0, hmin n hn0, haddr]

end Net

namespace Network

/-- The attribute that announces a network on its own. -/
def announcement : Network → AttributeValue
  | v4 n => .announce4 [n]
  | v6 n => .announce6 [n]

/-- What a peer sees of a network: the family, which the type of the attribute tells, and the bytes
that stand for it there. -/
def wire (n : Network) : Nat × Bytes := (n.announcement.code, n.announcement.bytes)

theorem wire_eq_iff {m n : Network} (hm : m.clean = m) (hn : n.clean = n) :
    m.wire = n.wire ↔ m = n ∨ (m.isHost = true ∧ n.isHost = true ∧ m.addr = n.addr) := by
  cases m with
  | v4 m =>
    cases n with
    | v4 n =>
      have hnets := Net.bytes_eq_iff (by decide) (by decide) (v4.inj hm) (v4.inj hn)
      simpa [wire, announcement, AttributeValue.code, AttributeValue.bytes, isHost, hostBits, addr]
        using hnets
    | v6 n => simp [wire, announcement, AttributeValue.code, AttributeKind.code, addr]
  | v6 m =>
    cases n with
    | v4 n => simp [wire, announcement, AttributeValue.code, AttributeKind.code, addr]
    | v6 n =>
      have hnets := Net.bytes_eq_iff (by decide) (by decide) (v6.inj hm) (v6.inj hn)
      simpa [wire, announcement, AttributeValue.code, AttributeValue.bytes, isHost, hostBits, addr]
        using hnets

/-- Canonical hosts of one address are the same. -/
theorem eq_of_isHost {m n : Network} (hm : m.Canonical) (hn : n.Canonical)
    (hmhost : m.isHost = true) (hnhost : n.isHost = true) (haddr : m.addr = n.addr) : m = n := by
  rw [← host_addr hm hmhost, haddr, host_addr hn hnhost]

end Network

namespace Database

open Binding

variable {db db' : Database} {n : Network}

/-- The call adds a binding for the network. Nobody adds one for a default route. -/
def Call.Offers : Call → Network → Prop
  | add batch, n => ∃ b ∈ batch, b.clean.net = n ∧ n.isDefault = false
  | delete _, _ | deleteFrom _ _, _ | purge _, _ | reopen, _ | takeRemoved, _ | watch _, _
  | unwatch _, _ => False

/-- The step succeeds in adding a binding for the network. -/
def Brings (db : Database) (s : Step) (n : Network) : Prop :=
  s.call.Offers n ∧ ∃ r, s.call.apply (db.under s) = .ok r

/-- The step succeeds in taking out what lies under the network. -/
def Loses (db : Database) (s : Step) (n : Network) : Prop :=
  (∃ b, db.table[n]? = some b ∧ s.call.Takes b) ∧ ∃ r, s.call.apply (db.under s) = .ok r

/-- A step of the run brings a network in, and no later one loses it. -/
inductive Stands (db : Database) (n : Network) : List Step → Prop
  | brought {steps : List Step} {s : Step} :
    (db.run steps).Brings s n → Stands db n (steps ++ [s])
  | kept {steps : List Step} {s : Step} :
    Stands db n steps → ¬ (db.run steps).Loses s n → Stands db n (steps ++ [s])

theorem not_stands_nil : ¬ db.Stands n [] := by
  intro h
  generalize hsteps : ([] : List Step) = steps at h
  cases h <;> simp at hsteps

theorem stands_concat {steps : List Step} {s : Step} : db.Stands n (steps ++ [s]) ↔
    (db.run steps).Brings s n ∨ (db.Stands n steps ∧ ¬ (db.run steps).Loses s n) := by
  constructor
  · intro h
    generalize hsteps : steps ++ [s] = all at h
    cases h with
    | brought hbrings =>
      obtain ⟨rfl, hs⟩ := List.append_inj' hsteps rfl
      obtain rfl := List.singleton_inj.1 hs
      exact .inl hbrings
    | kept hstands hloses =>
      obtain ⟨rfl, hs⟩ := List.append_inj' hsteps rfl
      obtain rfl := List.singleton_inj.1 hs
      exact .inr ⟨hstands, hloses⟩
  · rintro (hbrings | ⟨hstands, hloses⟩)
    · exact .brought hbrings
    · exact .kept hstands hloses

/-- After a call a network is held when it is offered, or when it was held and is not taken. -/
theorem Call.held_apply_iff {c : Call} (hc : c ≠ reopen) (hfiled : db.table.Filed)
    {bs : List Binding} (h : c.apply db = .ok (bs, db')) :
    (∃ b, db'.table[n]? = some b) ↔
      c.Offers n ∨ ((∃ b, db.table[n]? = some b) ∧ ¬ ∃ b, db.table[n]? = some b ∧ c.Takes b) := by
  by_cases hdeletes : c.Deletes
  · have hoffers : ¬ c.Offers n := by cases c <;> simp_all [Offers, Deletes]
    obtain ⟨selects, nets, hcall, htakes⟩ := hdeletes.exists_deleteWhere hfiled
    rw [hcall] at h
    rw [or_iff_right hoffers, getElem?_deleteWhere h hfiled]
    cases hheld : db.table[n]? with
    | none => simp
    | some b =>
      obtain rfl := hfiled n b hheld
      have htaken := (htakes b (hfiled.mem_bindings.2 hheld)).1
      simp [htaken, Option.filter_some, imp_iff_not_or]
  · cases c with
    | add batch =>
      rw [getElem?_add_candidates h, exists_foldl_contend, candidates_ne_nil_iff]
      simp [Offers, Takes]
    | delete nets | deleteFrom peer nets | purge peer => exact absurd trivial hdeletes
    | reopen => exact absurd rfl hc
    | takeRemoved | watch label | unwatch label =>
      cases h
      simp [Offers, Takes, Database.watch, Database.unwatch]

theorem held_step_iff (hfiled : db.table.Filed) {s : Step} (hs : s.call ≠ .reopen) :
    (∃ b, (db.step s).table[n]? = some b) ↔
      db.Brings s n ∨ ((∃ b, db.table[n]? = some b) ∧ ¬ db.Loses s n) := by
  rw [step, Brings, Loses]
  cases happly : s.call.apply (db.under s) with
  | error e => simp [under]
  | ok r =>
    have hstart : (db.under s).table.Filed := hfiled
    have hheld := Call.held_apply_iff (n := n) hs hstart happly
    simpa [under] using hheld

section

variable {steps : List Step} (hempty : db.table = ∅) (hsteps : ∀ s ∈ steps, s.call ≠ .reopen)

include hempty hsteps

theorem filed_run_of_empty : (db.run steps).table.Filed :=
  (mem_run_iff (hempty ▸ Table.Filed.empty) hsteps).1

/-- All that is in the table has been added, so it is clean. -/
theorem clean_of_mem_run {b : Binding} (hb : b ∈ (db.run steps).bindings) :
    b.net.clean = b.net := by
  have hmem := (mem_run_iff (hempty ▸ Table.Filed.empty) hsteps).2 b
  have hproper : Contest.Proper b := by
    by_contra hproper
    have hloaded := ((hmem hproper).1 hb).1
    rw [bindings, hempty, Table.Filed.empty.mem_bindings] at hloaded
    simp at hloaded
  exact (Binding.clean_eq_iff b).1 hproper.clean

end

/-- The networks that are held are those that stand. The induction is on the steps from the last. -/
theorem held_run_iff (hempty : db.table = ∅) {steps : List Step}
    (hsteps : ∀ s ∈ steps, s.call ≠ .reopen) :
    (∃ b, (db.run steps).table[n]? = some b) ↔ db.Stands n steps := by
  induction steps using List.reverseRecOn with
  | nil => simp [run, hempty, not_stands_nil]
  | append_singleton steps s ih =>
    have hbefore : ∀ r ∈ steps, r.call ≠ .reopen := fun r hr => hsteps r (by simp [hr])
    have hfiled := filed_run_of_empty hempty hbefore
    rw [run_concat, held_step_iff hfiled (hsteps s (by simp)), ih hbefore, stands_concat]

/-- What stands has been offered by one of the steps. -/
theorem Stands.offered {steps : List Step} (h : db.Stands n steps) :
    ∃ s ∈ steps, s.call.Offers n := by
  induction h with
  | @brought steps s hbrings => exact ⟨s, by simp, hbrings.1⟩
  | kept _ _ ih =>
    obtain ⟨s, hs, hoffers⟩ := ih
    exact ⟨s, by simp [hs], hoffers⟩

/-- A network whose candidates all have a length within the width of its addresses is canonical. -/
theorem Stands.canonical {steps : List Step} (h : db.Stands n steps)
    (hlengths : ∀ s ∈ steps, ∀ batch, s.call = .add batch → ∀ b ∈ batch, b.clean.net.Canonical) :
    n.Canonical := by
  obtain ⟨s, hs, hoffers⟩ := h.offered
  cases hcall : s.call with
  | add batch =>
    rw [hcall] at hoffers
    obtain ⟨b, hb, rfl, -⟩ := hoffers
    exact hlengths s hs batch hcall b hb
  | delete nets | deleteFrom peer nets | purge peer | reopen | takeRemoved | watch label
  | unwatch label =>
    rw [hcall] at hoffers
    exact hoffers.elim

/-- A peer can tell the entries of the table apart. -/
def Distinct (db : Database) : Prop :=
  ∀ b ∈ db.bindings, ∀ c ∈ db.bindings, b.net.wire = c.net.wire → b = c

/-- In a table of clean networks only hosts of one address can be in the way. -/
theorem distinct_iff (hfiled : db.table.Filed) (hclean : ∀ b ∈ db.bindings, b.net.clean = b.net) :
    db.Distinct ↔ ∀ m ∈ db.bindings.map Binding.net, ∀ n ∈ db.bindings.map Binding.net,
      m.isHost = true → n.isHost = true → m.addr = n.addr → m = n := by
  constructor
  · intro h m hm n hn hmhost hnhost haddr
    obtain ⟨b, hb, rfl⟩ := List.mem_map.1 hm
    obtain ⟨c, hc, rfl⟩ := List.mem_map.1 hn
    have hwire := (Network.wire_eq_iff (hclean b hb) (hclean c hc)).2 (.inr ⟨hmhost, hnhost, haddr⟩)
    rw [h b hb c hc hwire]
  · intro h b hb c hc hwire
    have hsame : b.net = c.net := by
      obtain hsame | ⟨hbhost, hchost, haddr⟩ :=
        (Network.wire_eq_iff (hclean b hb) (hclean c hc)).1 hwire
      · exact hsame
      · exact h _ (List.mem_map_of_mem hb) _ (List.mem_map_of_mem hc) hbhost hchost haddr
    have hheld := hfiled.mem_bindings.1 hb
    rw [hsame, hfiled.mem_bindings.1 hc] at hheld
    exact (Option.some.inj hheld).symm

/-- A run from an empty table, whatever the store refuses on the way. The networks that are held are
those that stand. No two entries have one wire form exactly when no two of these networks are hosts
of one address; this is so when every candidate has a length within the width of its addresses. -/
theorem distinct_run_iff (hempty : db.table = ∅) {steps : List Step}
    (hsteps : ∀ s ∈ steps, s.call ≠ .reopen) :
    (∀ n, n ∈ (db.run steps).bindings.map Binding.net ↔ db.Stands n steps) ∧
    ((db.run steps).Distinct ↔ ∀ m n, db.Stands m steps → db.Stands n steps →
      m.isHost = true → n.isHost = true → m.addr = n.addr → m = n) ∧
    ((∀ s ∈ steps, ∀ batch, s.call = .add batch → ∀ b ∈ batch, b.clean.net.Canonical) →
      (db.run steps).Distinct) := by
  have hfiled := filed_run_of_empty hempty hsteps
  have hstands (n : Network) :
      n ∈ (db.run steps).bindings.map Binding.net ↔ db.Stands n steps := by
    rw [bindings, hfiled.mem_map_net, ← held_run_iff hempty hsteps]
  have hdistinct := distinct_iff hfiled fun b => clean_of_mem_run hempty hsteps
  simp only [hstands] at hdistinct
  refine ⟨hstands, ?_, fun hlengths => hdistinct.2 ?_⟩
  · rw [hdistinct]
    exact ⟨fun h m n hm hn => h m hm n hn, fun h m hm n hn => h m n hm hn⟩
  · intro m hm n hn
    exact Network.eq_of_isHost (hm.canonical hlengths) (hn.canonical hlengths)

/-- Two bindings for one address, of which one has a length beyond the width. -/
def single : Binding := ⟨.v4 ⟨0x0A000001, 32⟩, 100, [], ⟨10, 0⟩⟩
def overlong : Binding := ⟨.v4 ⟨0x0A000001, 40⟩, 200, [], ⟨10, 0⟩⟩

/-- Both stay, and a peer sees one network. -/
theorem overlong_aliases :
    let db := run {} [⟨false, false, .add [single, overlong]⟩]
    single ∈ db.bindings ∧ overlong ∈ db.bindings ∧ single.net.wire = overlong.net.wire ∧
      ¬ db.Distinct := by
  intro db
  have hsingle : single ∈ db.bindings := by decide +kernel
  have hoverlong : overlong ∈ db.bindings := by decide +kernel
  have hwire : single.net.wire = overlong.net.wire := by decide
  refine ⟨hsingle, hoverlong, hwire, fun hdistinct => ?_⟩
  exact absurd (hdistinct _ hsingle _ hoverlong hwire) (by decide)

/-- The longer one is taken out again. -/
def shortening : List Step :=
  [⟨false, false, .add [single, overlong]⟩, ⟨false, false, .delete [overlong.net]⟩]

theorem distinct_run_iff_shortening : ({} : Database).table = ∅ ∧
    (∀ s ∈ shortening, s.call ≠ .reopen) ∧ single ∈ (run {} shortening).bindings ∧
    (run {} shortening).Distinct := by
  have hempty : ({} : Database).table = ∅ := rfl
  have hsteps : ∀ s ∈ shortening, s.call ≠ .reopen := by simp [shortening]
  obtain ⟨hstands, hdistinct, -⟩ := distinct_run_iff hempty hsteps
  have hnets : (run {} shortening).bindings.map Binding.net = [single.net] := by decide +kernel
  refine ⟨hempty, hsteps, by decide +kernel, hdistinct.2 fun m n hm hn _ _ _ => ?_⟩
  rw [← hstands, hnets, List.mem_singleton] at hm hn
  rw [hm, hn]

end Database

end TagExchange
