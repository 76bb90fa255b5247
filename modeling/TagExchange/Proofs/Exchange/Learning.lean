import TagExchange.Proofs.Exchange.Frames
import TagExchange.Proofs.Session.Hearing

/-!
# What a listener makes of one frame

A listener with a single peer files what it is told under the rule of best paths. As every frame is
heard later than the ones before, news about a network replace what is held there unless their path
is longer (`Told.settle`). So the table after a frame is a function of the table before and of what
the frame carries (`Node.Listening.hear`), and hearing it is never a fault.
-/

namespace TagExchange

/-- What a listener is told about a network: a tag and a path. -/
abbrev Told := UInt16 × List NodeId

/-- The tag and the path that a table holds under a network. -/
def Table.told (t : Table) (n : Network) : Option Told := t[n]?.map fun b => (b.tag, b.path)

/-- What the peers of a node are told of a binding. -/
def Binding.told (id : NodeId) (b : Binding) : Told := (b.tag, id :: b.path)

/-- News replace what is held unless their path is longer. -/
def Told.settle (current : Option Told) (news : Told) : Told :=
  match current with
  | none => news
  | some held => if news.2.length ≤ held.2.length then news else held

theorem Told.settle_of_le {held news : Told} (h : news.2.length ≤ held.2.length) :
    settle (some held) news = news := if_pos h

theorem Told.settle_of_lt {held news : Told} (h : held.2.length < news.2.length) :
    settle (some held) news = held := if_neg (Nat.not_le.2 h)

namespace Part

/-- What is held under a network after a frame, given what was held before. -/
def settle (id : NodeId) (part : Part) (held : Network → Option Told) (n : Network) :
    Option Told :=
  let kept := if n ∈ part.1.map Binding.net then none else held n
  match part.2.find? fun b => b.net = n with
  | some b => some (Told.settle kept (b.told id))
  | none => kept

/-- What a speaker puts into a frame for a listener. -/
structure Sendable (listener : NodeId) (part : Part) : Prop where
  deleteCanonical : ∀ b ∈ part.1, b.net.Canonical
  addCanonical : ∀ b ∈ part.2, b.net.Canonical
  specific : ∀ b ∈ part.2, b.net.isDefault = false
  nodup : (part.2.map Binding.net).Nodup
  fresh : ∀ b ∈ part.2, b.path.contains listener = false

end Part

/-- A listener of version 4 that is on and has learned from one peer only. -/
structure Node.Listening (id : NodeId) (n : Node) : Prop where
  phase : n.conn.phase = .on
  mode : n.conn.mode.isListener = true
  version : n.conn.version = .v4
  peer : n.conn.remoteId = id
  apart : n.conn.localId ≠ id
  accepts : n.db.store.Accepts
  filed : n.db.table.Filed
  learned : ∀ b ∈ n.db.bindings, b.learnedFrom = some id

namespace Database

variable {id : NodeId} {db : Database}

/-- Where everything was learned from the peer, a deletion takes out all that it names. -/
theorem deleteFrom_learned (haccepts : db.store.Accepts) (hfiled : db.table.Filed)
    (hlearned : ∀ b ∈ db.bindings, b.learnedFrom = some id) (nets : List Network) :
    ∃ doomed db', db.deleteFrom id nets = .ok (doomed, db') ∧ db'.store.Accepts ∧
      db'.table.Filed ∧
      ∀ n : Network, db'.table[n]? = if n ∈ nets then none else db.table[n]? := by
  obtain ⟨doomed, db', hdelete, haccepts'⟩ :=
    deleteWhere_of_accepts haccepts (fun b => b.learnedFrom == some id) nets
  refine ⟨doomed, db', hdelete, haccepts', filed_deleteWhere hdelete hfiled, ?_⟩
  intro n
  rw [getElem?_deleteWhere hdelete hfiled]
  cases hn : db.table[n]? with
  | none => simp
  | some b =>
    have hb : b.learnedFrom = some id := hlearned b (Table.mem_bindings.2 ⟨n, hn⟩)
    by_cases hnets : n ∈ nets
    · simp [hnets, hb, Option.filter_some]
    · simp [hnets]

/-- An addition of relayed bindings, one for each network, at a time after all that is held. -/
theorem add_relayed (haccepts : db.store.Accepts) (hfiled : db.table.Filed) {now : Instant}
    {listener : NodeId} {part : Part} (hpart : part.Sendable listener) {batch : List Binding}
    (hbatch : batch.Perm (part.2.map (Binding.relayed id now))) :
    ∃ winners db', db.add batch = .ok (winners, db') ∧ db'.store.Accepts ∧ db'.table.Filed ∧
      ∀ n : Network, db'.table[n]? =
        match part.2.find? fun b => b.net = n with
        | none => db.table[n]?
        | some b => if (b.relayed id now).supersedes db.table[n]? then some (b.relayed id now)
            else db.table[n]? := by
  obtain ⟨winners, db', hadd, haccepts'⟩ := add_of_accepts haccepts batch
  refine ⟨winners, db', hadd, haccepts', filed_add hadd hfiled, ?_⟩
  intro n
  have hmem (b : Binding) : b ∈ batch ↔ ∃ q ∈ part.2, q.relayed id now = b := by
    rw [hbatch.mem_iff, List.mem_map]
  have hnets : (batch.map Binding.net).Perm (part.2.map Binding.net) := by
    have h := hbatch.map Binding.net
    rw [List.map_map] at h
    exact h
  have hproper : ∀ b ∈ batch, Contest.Proper b := by
    intro b hb
    obtain ⟨q, hq, rfl⟩ := (hmem b).1 hb
    refine ⟨?_, hpart.specific q hq⟩
    have hclean := (hpart.addCanonical q hq).clean_eq
    simp [Binding.clean, Binding.relayed, hclean]
  have hnodup : (batch.map Binding.net).Nodup := hnets.nodup_iff.2 hpart.nodup
  rw [getElem?_add hadd]
  cases hfind : part.2.find? fun b => b.net = n with
  | none =>
    have hn : n ∉ batch.map Binding.net := by
      rw [hnets.mem_iff, List.mem_map]
      rintro ⟨q, hq, hnet⟩
      simpa [hnet] using List.find?_eq_none.1 hfind q hq
    rw [Contest.getElem?_resolve_of_notMem hproper hn]
    rfl
  | some b =>
    have hb : b ∈ part.2 := List.mem_of_find?_eq_some hfind
    have hnet : b.net = n := by simpa using List.find?_some hfind
    have hwon := Contest.getElem?_resolve (fun n => db.table[n]?) hproper hnodup
      ((hmem _).2 ⟨b, hb, rfl⟩)
    have hrelayed : (b.relayed id now).net = n := hnet
    rw [hrelayed] at hwon
    rw [hwon]
    dsimp only
    split <;> rfl

end Database

/-- News that are later than what is held supersede it unless their path is longer. -/
theorem Binding.told_of_supersedes {id : NodeId} {now : Instant} {b : Binding}
    {held : Option Binding} (hstamp : ∀ c, held = some c → c.stamp < now) :
    (if (b.relayed id now).supersedes held then some (b.relayed id now) else held).map
        (fun b => (b.tag, b.path)) =
      some (Told.settle (held.map fun b => (b.tag, b.path)) (b.told id)) := by
  cases held with
  | none => rfl
  | some c =>
    have hlater : c.stamp < (b.relayed id now).stamp := hstamp c rfl
    have hiff : (b.relayed id now).supersedes (some c) = true ↔
        (id :: b.path).length ≤ c.path.length := by
      rw [supersedes_some_iff]
      constructor
      · rintro (hlt | ⟨heq, -⟩)
        · exact Nat.le_of_lt hlt
        · exact Nat.le_of_eq heq
      · intro hle
        rcases Nat.lt_or_eq_of_le hle with hlt | heq
        · exact .inl hlt
        · exact .inr ⟨heq, hlater⟩
    by_cases hle : (id :: b.path).length ≤ c.path.length
    · have htold : (b.told id).2.length ≤ (c.tag, c.path).2.length := hle
      rw [if_pos (hiff.2 hle), Option.map_some, Option.map_some, Told.settle_of_le htold]
      rfl
    · have htold : (c.tag, c.path).2.length < (b.told id).2.length := Nat.not_le.1 hle
      rw [if_neg fun h => hle (hiff.1 h), Option.map_some, Told.settle_of_lt htold]

namespace Node.Listening

variable {id : NodeId} {n : Node} {now : Instant}

/-- Learning what a frame carries. The additions of the changes are those of the part as the
listener files them, in any order. -/
theorem learn (h : n.Listening id) (hstamps : ∀ b ∈ n.db.bindings, b.stamp < now) {part : Part}
    (hpart : part.Sendable n.conn.localId) {c : Changes}
    (hdelete : c.delete.Perm (part.1.map Binding.net))
    (hadd : c.add.Perm (part.2.map (Binding.relayed id now))) :
    ∃ db, Session.learn c n = .ok () { n with db } ∧
      Node.Listening id { n with db } ∧
      (∀ b ∈ db.bindings, b ∈ n.db.bindings ∨ b.stamp = now) ∧
      ∀ net, db.table.told net = part.settle id n.db.table.told net := by
  obtain ⟨doomed, db₁, hdoomed, haccepts₁, hfiled₁, hget₁⟩ :=
    Database.deleteFrom_learned h.accepts h.filed h.learned c.delete
  obtain ⟨winners, db₂, hwinners, haccepts₂, hfiled₂, hget₂⟩ :=
    Database.add_relayed haccepts₁ hfiled₁ hpart hadd
  have hkept : (c.add.filter fun b => !b.path.contains n.conn.localId) = c.add := by
    apply List.filter_eq_self.2
    intro b hb
    obtain ⟨q, hq, rfl⟩ := List.mem_map.1 (hadd.mem_iff.1 hb)
    have hfresh := hpart.fresh q hq
    simp only [Binding.relayed, List.contains_cons, hfresh, Bool.or_false]
    simpa using h.apart
  have hlearn := Session.learn_eq c n
  rw [h.peer, hdoomed, hkept] at hlearn
  dsimp only at hlearn
  rw [hwinners] at hlearn
  have hnew : ∀ b ∈ db₂.bindings, b ∈ n.db.bindings ∨ ∃ q, b = Binding.relayed id now q := by
    intro b hb
    obtain ⟨m, hm⟩ := Table.mem_bindings.1 hb
    have hold : db₁.table[m]? = some b → b ∈ n.db.bindings := by
      intro hb₁
      rw [hget₁] at hb₁
      split at hb₁
      · cases hb₁
      · exact Table.mem_bindings.2 ⟨m, hb₁⟩
    rw [hget₂] at hm
    split at hm
    · exact .inl (hold hm)
    · next q _ =>
      split at hm
      · cases hm
        exact .inr ⟨q, rfl⟩
      · exact .inl (hold hm)
  refine ⟨db₂, hlearn, ?_, ?_, ?_⟩
  · refine ⟨h.phase, h.mode, h.version, h.peer, h.apart, haccepts₂, hfiled₂, ?_⟩
    intro b hb
    rcases hnew b hb with hb | ⟨q, rfl⟩
    · exact h.learned b hb
    · rfl
  · intro b hb
    rcases hnew b hb with hb | ⟨q, rfl⟩
    · exact .inl hb
    · exact .inr rfl
  · intro net
    have hmem : net ∈ c.delete ↔ net ∈ part.1.map Binding.net := hdelete.mem_iff
    have hheld : db₁.table.told net =
        if net ∈ part.1.map Binding.net then none else n.db.table.told net := by
      rw [Table.told, hget₁, Table.told]
      by_cases hnet : net ∈ part.1.map Binding.net
      · rw [if_pos (hmem.2 hnet), if_pos hnet]
        rfl
      · rw [if_neg fun h => hnet (hmem.1 h), if_neg hnet]
    rw [Part.settle, ← hheld, Table.told, hget₂]
    cases part.2.find? fun b => b.net = net with
    | none => rfl
    | some b =>
      apply Binding.told_of_supersedes
      intro held hheld
      rw [hget₁] at hheld
      split at hheld
      · cases hheld
      · exact hstamps held (Table.mem_bindings.2 ⟨net, hheld⟩)

theorem hear (h : n.Listening id) (hstamps : ∀ b ∈ n.db.bindings, b.stamp < now) {part : Part}
    (hpart : part.Sendable n.conn.localId) {caps : List Capability} {filter : Filter}
    (hfilter : ∀ b ∈ part.2, filter b = false) {frame : Bytes}
    (hframe : Composer.Carries (.current id caps filter) part frame) :
    ∃ db, Session.hear now frame n = .ok () { n with db } ∧
      Node.Listening id { n with db } ∧
      (∀ b ∈ db.bindings, b ∈ n.db.bindings ∨ b.stamp = now) ∧
      ∀ net, db.table.told net = part.settle id n.db.table.told net := by
  obtain ⟨attrs, hread, hall⟩ := hframe.current
  obtain ⟨c, hc, hdelete, hadd⟩ := hall now
  have hdeleted : (part.1.map fun b => b.net.rebuilt) = part.1.map Binding.net :=
    List.map_congr_left fun b hb => Network.rebuilt_of_canonical (hpart.deleteCanonical b hb)
  have hadded : ((part.2.filter fun b => !filter b).map fun b => (b.relayed id now).rebuilt) =
      part.2.map (Binding.relayed id now) := by
    have hkept : (part.2.filter fun b => !filter b) = part.2 := by
      apply List.filter_eq_self.2
      intro b hb
      rw [hfilter b hb]
      rfl
    rw [hkept]
    apply List.map_congr_left
    intro b hb
    have hnet : b.net.rebuilt = b.net := Network.rebuilt_of_canonical (hpart.addCanonical b hb)
    simp [Binding.rebuilt, Binding.relayed, hnet]
  rw [hdeleted] at hdelete
  rw [hadded] at hadd
  obtain ⟨db, hlearn, hrest⟩ := h.learn hstamps hpart hdelete hadd
  refine ⟨db, ?_, hrest⟩
  have hreceive : Session.receive now (.update attrs) n = .ok () { n with db } := by
    apply Session.listening_ok h.phase h.mode _ hlearn
    rw [hc]
    rfl
  rw [← h.version] at hread
  rw [Session.hear_of_read hread, hreceive]

end Node.Listening

end TagExchange
