import TagExchange.Proofs.Exchange.Convergence
import TagExchange.Proofs.Exchange.Frames

/-!
# A copy kept from the updates

An observer of a version 4 speaker keeps a plain map: it drops what an update withdraws and then
overwrites what it announces, and knows nothing of paths or of time (`Copy.apply`). Whatever
contents the speaker's database takes on, the copy holds after every export exactly what is meant
for the peer, each binding with the id of the speaker in front of its path (`Node.exports_exact`).

Every frame leads towards the newest export: what it touches is right from then on
(`Copy.Towards`), and what no frame touches was right before.
-/

namespace TagExchange

/-- What has been announced for every network. -/
abbrev Copy := Network → Option Told

namespace Copy

def blank : Copy := fun _ => none

/-- First drops what is withdrawn, then overwrites what is announced. -/
def apply (m : Copy) (c : Changes) : Copy :=
  c.add.foldl (fun m b => Function.update m b.net (some (b.tag, b.path)))
    (c.delete.foldl (fun m net => Function.update m net none) m)

/-- Applies the update in a frame of version 4; there is no result if it cannot be read. -/
def hear (now : Instant) (frame : Bytes) (m : Copy) : Option Copy :=
  match Message.ofFrame .v4 frame with
  | .ok (.update attributes) => (Update.changes now attributes).toOption.map m.apply
  | _ => none

/-- Applies one frame after the other, each read at an instant of its own. -/
def hearAll (m : Copy) (readings : List (Instant × Bytes)) : Option Copy :=
  readings.foldlM (fun m (now, frame) => m.hear now frame) m

/-- A copy that has come closer to a goal: under the touched networks it is there, under all others
nothing has changed. -/
def Towards (goal : Copy) (touched : Network → Prop) (m m' : Copy) : Prop :=
  ∀ n, (touched n → m' n = goal n) ∧ (¬touched n → m' n = m n)

variable {goal m m' m'' : Copy} {touched touched' : Network → Prop}

theorem Towards.refl (goal m : Copy) : Towards goal (fun _ => False) m m :=
  fun _ => ⟨False.elim, fun _ => rfl⟩

theorem Towards.trans (h : Towards goal touched m m') (h' : Towards goal touched' m' m'') :
    Towards goal (fun n => touched n ∨ touched' n) m m'' := by
  intro n
  by_cases hn : touched' n
  · exact ⟨fun _ => (h' n).1 hn, fun hnot => absurd (.inr hn) hnot⟩
  · refine ⟨?_, fun hnot => ?_⟩
    · rintro (ht | ht)
      · rw [(h' n).2 hn, (h n).1 ht]
      · exact absurd ht hn
    · rw [(h' n).2 hn, (h n).2 fun ht => hnot (.inl ht)]

/-- Where all that was not touched is at its goal, everything is. -/
theorem Towards.eq_goal (h : Towards goal touched m m') (hrest : ∀ n, ¬touched n → m n = goal n) :
    m' = goal := by
  funext n
  by_cases hn : touched n
  · exact (h n).1 hn
  · rw [(h n).2 hn, hrest n hn]

/-- Overwriting with values of the goal. -/
theorem towards_foldl_update {α : Type} (net : α → Network) (value : α → Option Told)
    (xs : List α) (m : Copy) (h : ∀ x ∈ xs, value x = goal (net x)) :
    Towards goal (fun n => n ∈ xs.map net) m
      (xs.foldl (fun m x => Function.update m (net x) (value x)) m) := by
  induction xs generalizing m with
  | nil => exact fun n => ⟨fun hn => absurd hn (by simp), fun _ => rfl⟩
  | cons x xs ih =>
    have hrest := ih (Function.update m (net x) (value x)) fun y hy => h y (by simp [hy])
    intro n
    simp only [List.map_cons, List.mem_cons, List.foldl_cons]
    by_cases hn : n ∈ xs.map net
    · exact ⟨fun _ => (hrest n).1 hn, fun hnot => absurd (.inr hn) hnot⟩
    · rw [(hrest n).2 hn]
      by_cases hx : n = net x
      · subst hx
        rw [Function.update_self, h x (by simp)]
        exact ⟨fun _ => rfl, fun hnot => absurd (.inl rfl) hnot⟩
      · rw [Function.update_of_ne hx]
        exact ⟨fun hor => hor.elim (absurd · hx) (absurd · hn), fun _ => rfl⟩

theorem towards_apply {c : Changes} (hdelete : ∀ n ∈ c.delete, goal n = none)
    (hadd : ∀ b ∈ c.add, goal b.net = some (b.tag, b.path)) (m : Copy) :
    Towards goal (fun n => n ∈ c.delete ∨ n ∈ c.add.map Binding.net) m (m.apply c) := by
  have hdropped := towards_foldl_update id (fun _ => none) c.delete m
    fun n hn => (hdelete n hn).symm
  have hadded := towards_foldl_update Binding.net (fun b => some (b.tag, b.path)) c.add
    (c.delete.foldl (fun m net => Function.update m net none) m) fun b hb => (hadd b hb).symm
  rw [List.map_id] at hdropped
  exact hdropped.trans hadded

variable {id : NodeId} {caps : List Capability} {filter : Filter}

/-- A part that agrees with a goal: what it takes away is not there, what it adds is. -/
structure Agrees (goal : Copy) (id : NodeId) (filter : Filter) (part : Part) : Prop where
  deleteCanonical : ∀ b ∈ part.1, b.net.Canonical
  addCanonical : ∀ b ∈ part.2, b.net.Canonical
  passes : ∀ b ∈ part.2, filter b = false
  delete : ∀ b ∈ part.1, goal b.net = none
  add : ∀ b ∈ part.2, goal b.net = some (b.told id)

/-- What a frame is read as. -/
theorem Agrees.read {part : Part} (h : Agrees goal id filter part) {frame : Bytes}
    (hframe : Composer.Carries (.current id caps filter) part frame) :
    ∃ attrs, Message.ofFrame .v4 frame = .ok (.update attrs) ∧
      ∀ now, ∃ c, Update.changes now attrs = .ok c ∧ c.delete.Perm (part.1.map Binding.net) ∧
        c.add.Perm (part.2.map (Binding.relayed id now)) := by
  obtain ⟨attrs, hread, hchanges⟩ := hframe.current
  refine ⟨attrs, hread, fun now => ?_⟩
  obtain ⟨c, hc, hdelete, hadd⟩ := hchanges now
  have hpasses : (part.2.filter fun b => !filter b) = part.2 := by
    apply List.filter_eq_self.2
    intro b hb
    rw [h.passes b hb]
    rfl
  have hdeleteNets : (part.1.map fun b => b.net.rebuilt) = part.1.map Binding.net :=
    List.map_congr_left fun b hb => Network.rebuilt_of_canonical (h.deleteCanonical b hb)
  have haddRelayed : (part.2.map fun b => (b.relayed id now).rebuilt) =
      part.2.map (Binding.relayed id now) := by
    apply List.map_congr_left
    intro b hb
    have hnet := Network.rebuilt_of_canonical (h.addCanonical b hb)
    rw [Binding.rebuilt, Binding.relayed, hnet]
  rw [hdeleteNets] at hdelete
  rw [hpasses, haddRelayed] at hadd
  exact ⟨c, hc, hdelete, hadd⟩

/-- A frame touches the networks of the part that it carries. -/
theorem Agrees.hear {part : Part} (h : Agrees goal id filter part) {frame : Bytes}
    (hframe : Composer.Carries (.current id caps filter) part frame) (now : Instant) (m : Copy) :
    ∃ m', m.hear now frame = some m' ∧
      Towards goal (fun n => n ∈ part.1.map Binding.net ∨ n ∈ part.2.map Binding.net) m m' := by
  obtain ⟨attrs, hread, hchanges⟩ := h.read hframe
  obtain ⟨c, hc, hdelete, hadd⟩ := hchanges now
  have hnets : (c.add.map Binding.net).Perm (part.2.map Binding.net) := by
    have hperm := hadd.map Binding.net
    rw [List.map_map] at hperm
    exact hperm
  refine ⟨m.apply c, ?_, ?_⟩
  · rw [Copy.hear, hread]
    dsimp only
    rw [hc]
    rfl
  · have htowards : Towards goal (fun n => n ∈ c.delete ∨ n ∈ c.add.map Binding.net) m
        (m.apply c) := by
      apply towards_apply
      · intro n hn
        obtain ⟨b, hb, rfl⟩ := List.mem_map.1 (hdelete.mem_iff.1 hn)
        exact h.delete b hb
      · intro b hb
        obtain ⟨q, hq, rfl⟩ := List.mem_map.1 (hadd.mem_iff.1 hb)
        exact h.add q hq
    simpa only [hdelete.mem_iff, hnets.mem_iff] using htowards

theorem hearAll_carried {parts : List Part} {frames : List Bytes}
    (hcarried : List.Forall₂ (Composer.Carries (.current id caps filter)) parts frames)
    (hagrees : ∀ part ∈ parts, Agrees goal id filter part) {readings : List (Instant × Bytes)}
    (hreadings : readings.map Prod.snd = frames) (m : Copy) :
    ∃ m', m.hearAll readings = some m' ∧
      Towards goal (fun n => n ∈ (parts.flatMap Prod.fst).map Binding.net ∨
        n ∈ (parts.flatMap Prod.snd).map Binding.net) m m' := by
  induction hcarried generalizing readings m with
  | nil =>
    rw [List.map_eq_nil_iff] at hreadings
    subst hreadings
    exact ⟨m, rfl, by simpa using Towards.refl goal m⟩
  | @cons part frame parts frames hframe _ ih =>
    obtain ⟨⟨now, _⟩, readings, rfl, rfl, hrest⟩ := List.map_eq_cons_iff.1 hreadings
    obtain ⟨m₁, hhear, hfirst⟩ := (hagrees part (by simp)).hear hframe now m
    obtain ⟨m₂, hall, hothers⟩ := ih (fun p hp => hagrees p (by simp [hp])) hrest m₁
    refine ⟨m₂, ?_, ?_⟩
    · rw [hearAll, List.foldlM_cons]
      show (m.hear now _ >>= _) = _
      rw [hhear]
      exact hall
    · have htowards := hfirst.trans hothers
      refine fun n => ⟨fun hn => (htowards n).1 ?_, fun hn => (htowards n).2 ?_⟩
      · simp only [List.flatMap_cons, List.map_append, List.mem_append] at hn
        tauto
      · simp only [List.flatMap_cons, List.map_append, List.mem_append] at hn
        tauto

end Copy

namespace Table

/-- Bindings lie under their own networks, which are canonical. -/
structure Regular (t : Table) : Prop where
  filed : t.Filed
  canonical : ∀ b ∈ t.bindings, b.net.Canonical

theorem regular_empty : Regular ∅ where
  filed := Filed.empty
  canonical := by simp [mem_bindings]

theorem Regular.visible {t : Table} (h : t.Regular) (peer : NodeId) : (t.visible peer).Regular where
  filed := Filed.ofBindings _
  canonical := fun b hb => h.canonical b ((mem_visible h.filed).1 hb).1

/-- A table as a copy, each path one hop longer. -/
def relayed (id : NodeId) (t : Table) : Copy := fun n => t[n]?.map (Binding.told id)

/-- What a node means to tell a peer of a table: what has not been through the peer, one hop
longer. -/
def meant (id peer : NodeId) (t : Table) : Copy :=
  fun n => (t[n]?.filter fun b => !b.path.contains peer).map (Binding.told id)

theorem relayed_visible {t : Table} (h : t.Filed) (id peer : NodeId) :
    (t.visible peer).relayed id = t.meant id peer := by
  funext n
  rw [relayed, getElem?_visible h, meant]

/-- The parts of a difference lead to the newer table. -/
theorem agrees_difference {id : NodeId} {filter : Filter} {old next : Table} (hold : old.Regular)
    (hnext : next.Regular) (hfilter : ∀ b ∈ next.bindings, filter b = false) {part : Part}
    (hdelete : ∀ b ∈ part.1, b ∈ (Session.difference old next).1)
    (hadd : ∀ b ∈ part.2, b ∈ (Session.difference old next).2) :
    Copy.Agrees (next.relayed id) id filter part where
  deleteCanonical := fun b hb => hold.canonical b (Exports.mem_delete.1 (hdelete b hb)).1
  addCanonical := fun b hb => hnext.canonical b (Exports.mem_add.1 (hadd b hb)).1
  passes := fun b hb => hfilter b (Exports.mem_add.1 (hadd b hb)).1
  delete := fun b hb => by rw [relayed, (Exports.mem_delete.1 (hdelete b hb)).2]; rfl
  add := fun b hb => by
    rw [relayed, hnext.filed.mem_bindings.1 (Exports.mem_add.1 (hadd b hb)).1]
    rfl

/-- The frames of a difference turn a copy of the older table into one of the newer. -/
theorem hearAll_difference {id : NodeId} {caps : List Capability} {filter : Filter}
    {old next : Table} (hold : old.Regular) (hnext : next.Regular)
    (hfilter : ∀ b ∈ next.bindings, filter b = false) {frames : List Bytes}
    (hframes : (Composer.current id caps filter).frames (Session.difference old next).1
      (Session.difference old next).2 = .ok frames) :
    (∀ frame ∈ frames, frame.length ≤ messageLimit) ∧
      ∀ readings : List (Instant × Bytes), readings.map Prod.snd = frames →
        (old.relayed id).hearAll readings = some (next.relayed id) := by
  obtain ⟨parts, hdelete, hadd, hcarried⟩ := Composer.frames_parts hframes
  have hagrees : ∀ part ∈ parts, Copy.Agrees (next.relayed id) id filter part := by
    intro part hpart
    apply agrees_difference hold hnext hfilter
    · intro b hb
      rw [← hdelete]
      exact List.mem_flatMap.2 ⟨part, hpart, hb⟩
    · intro b hb
      rw [← hadd]
      exact List.mem_flatMap.2 ⟨part, hpart, hb⟩
  refine ⟨?_, ?_⟩
  · intro frame hframe
    obtain ⟨part, hpart, -⟩ := Composer.carries_of_mem_frames hframes hframe
    exact hpart.length_le
  · intro readings hreadings
    obtain ⟨m', hm', htowards⟩ := Copy.hearAll_carried hcarried hagrees hreadings (old.relayed id)
    rw [hm', htowards.eq_goal]
    intro n hn
    rw [hdelete, hadd, not_or] at hn
    rw [relayed, relayed, Exports.getElem?_eq_of_notMem_difference hold.filed hnext.filed hn.1 hn.2]

end Table

namespace Node

/-- The database takes on some contents, and the peer is brought up to date. -/
def export? (n : Node) (db : Database) : Option Node :=
  match Session.advertise n.conn.version { n with db } with
  | .ok _ n => some n
  | .error _ _ => none

/-- An export that succeeds puts its frames on the line and notes what it has exported. -/
theorem export?_eq_some {n n' : Node} {db : Database} (hphase : n.conn.phase = .on)
    (hmode : n.conn.mode.isSpeaker = true) (h : n.export? db = some n') : ∃ frames line,
    ({ n with db } : Node).Exports n.conn.version frames ∧ n.conn.line.Extends frames line ∧
      n' = { conn := { n.conn with line, advertised := Session.exported n.conn db }, db } := by
  rw [export?] at h
  split at h
  · next k n₁ hadvertise =>
    cases h
    obtain ⟨frames, line, hframes, hextends, -, rfl⟩ :=
      Session.advertise_ok (n := { n with db }) hphase hmode hadvertise
    exact ⟨frames, line, hframes, hextends, rfl⟩
  · cases h

/-- One content after the other, unless an export fails. -/
def exports? (n : Node) (contents : List Database) : Option Node := contents.foldlM export? n

/-- A speaker of version 4 that is on. -/
structure Exporting (n : Node) : Prop where
  phase : n.conn.phase = .on
  mode : n.conn.mode.isSpeaker = true
  version : n.conn.version = .v4
  regular : n.conn.advertised.Regular

/-- What the peer has been told so far. -/
def told (n : Node) : Copy := n.conn.advertised.relayed n.conn.localId

/-- A node after it has sent some frames, which take along whoever keeps a copy. -/
structure Streams (n : Node) (frames : List Bytes) (n' : Node) : Prop where
  exporting : n'.Exporting
  localId : n'.conn.localId = n.conn.localId
  remoteId : n'.conn.remoteId = n.conn.remoteId
  sent : n'.conn.line.sent = n.conn.line.sent ++ frames
  limit : ∀ frame ∈ frames, frame.length ≤ messageLimit
  heard : ∀ readings : List (Instant × Bytes), readings.map Prod.snd = frames →
    n.told.hearAll readings = some n'.told

theorem Streams.refl {n : Node} (h : n.Exporting) : n.Streams [] n where
  exporting := h
  localId := rfl
  remoteId := rfl
  sent := (List.append_nil _).symm
  limit := by simp
  heard := by
    intro readings hreadings
    rw [List.map_eq_nil_iff] at hreadings
    subst hreadings
    rfl

theorem Streams.trans {n₁ n₂ n₃ : Node} {frames frames' : List Bytes} (h : n₁.Streams frames n₂)
    (h' : n₂.Streams frames' n₃) : n₁.Streams (frames ++ frames') n₃ where
  exporting := h'.exporting
  localId := h'.localId.trans h.localId
  remoteId := h'.remoteId.trans h.remoteId
  sent := by rw [h'.sent, h.sent, List.append_assoc]
  limit := fun frame hframe => (List.mem_append.1 hframe).elim (h.limit frame) (h'.limit frame)
  heard := by
    intro readings hreadings
    obtain ⟨front, back, rfl, hfront, hback⟩ := List.map_eq_append_iff.1 hreadings
    rw [Copy.hearAll, List.foldlM_append, ← Copy.hearAll, h.heard front hfront]
    exact h'.heard back hback

/-- An export that succeeds notes what is visible of the contents. -/
theorem Exporting.export {n n' : Node} (h : n.Exporting) {db : Database} (hdb : db.table.Regular)
    (hexport : n.export? db = some n') : ∃ frames, n.Streams frames n' ∧ n'.db = db ∧
      n'.conn.advertised = db.table.visible n.conn.remoteId := by
  obtain ⟨frames, line, hframes, hextends, rfl⟩ := export?_eq_some h.phase h.mode hexport
  have hnext : (db.table.visible n.conn.remoteId).Regular := hdb.visible _
  have hfilter : ∀ b ∈ (db.table.visible n.conn.remoteId).bindings,
      n.conn.holdsBack b = false := by
    intro b hb
    exact ((Table.mem_visible hdb.filed).1 hb).2
  have hcurrent : ¬Version.v4.isLegacy = true := by simp [Version.isLegacy]
  rw [Node.Exports, Connection.composer, h.version, if_neg hcurrent] at hframes
  obtain ⟨hlimit, hheard⟩ := Table.hearAll_difference h.regular hnext hfilter hframes
  refine ⟨frames, ⟨⟨h.phase, h.mode, h.version, hnext⟩, rfl, ?_, hextends.sent, hlimit, hheard⟩,
    rfl, rfl⟩
  rw [Connection.remoteId, Connection.remoteId, hextends.peer]

/-- By induction on the contents: each export goes on from what has been told. -/
theorem Exporting.exports {n n' : Node} (h : n.Exporting) {contents : List Database}
    (hcontents : ∀ db ∈ contents, db.table.Regular) (hrun : n.exports? contents = some n') :
    ∃ frames, n.Streams frames n' := by
  induction contents generalizing n with
  | nil =>
    cases hrun
    exact ⟨[], Streams.refl h⟩
  | cons db contents ih =>
    rw [exports?, List.foldlM_cons] at hrun
    obtain ⟨n₁, hexport, hrest⟩ := Option.bind_eq_some_iff.1 hrun
    obtain ⟨frames, hfirst, -⟩ := h.export (hcontents db (by simp)) hexport
    obtain ⟨frames', hothers⟩ := ih hfirst.exporting (fun d hd => hcontents d (by simp [hd])) hrest
    exact ⟨frames ++ frames', hfirst.trans hothers⟩

/-- After every export a copy kept from the frames holds what is meant for the peer, whatever the
contents of the database were before. Every frame is within the limit, and another export of the
same contents sends nothing. -/
theorem exports_exact {n n' : Node} (h : n.Exporting) (hblank : n.conn.advertised = ∅)
    {contents : List Database} {last : Database}
    (hcontents : ∀ db ∈ contents ++ [last], db.table.Regular)
    (hrun : n.exports? (contents ++ [last]) = some n') :
    (∃ frames, n'.conn.line.sent = n.conn.line.sent ++ frames ∧
      (∀ frame ∈ frames, frame.length ≤ messageLimit) ∧
      ∀ readings : List (Instant × Bytes), readings.map Prod.snd = frames →
        Copy.blank.hearAll readings =
          some (last.table.meant n.conn.localId n.conn.remoteId)) ∧
    Session.advertise n'.conn.version n' = .ok 0 n' := by
  have hlast : last.table.Regular := hcontents last (by simp)
  rw [exports?, List.foldlM_append] at hrun
  obtain ⟨n₁, hfront, hrun⟩ := Option.bind_eq_some_iff.1 hrun
  obtain ⟨n₂, hexport, hend⟩ := Option.bind_eq_some_iff.1 hrun
  cases hend
  obtain ⟨frames, hstreams⟩ := h.exports (fun d hd => hcontents d (by simp [hd])) hfront
  obtain ⟨frames', hnewest, hdb, hadvertised⟩ := hstreams.exporting.export hlast hexport
  have hall := hstreams.trans hnewest
  have hstart : n.told = Copy.blank := by
    funext net
    simp [told, Table.relayed, hblank, Copy.blank]
  have htold : n'.told = last.table.meant n.conn.localId n.conn.remoteId := by
    rw [told, hadvertised, Table.relayed_visible hlast.filed, hall.localId, hstreams.remoteId]
  refine ⟨⟨frames ++ frames', hall.sent, hall.limit, ?_⟩, ?_⟩
  · intro readings hreadings
    rw [← hstart, hall.heard readings hreadings, htold]
  · have hsame : Session.exported n'.conn n'.db = n'.conn.advertised := by
      rw [hadvertised, hdb, ← hnewest.remoteId]
      rfl
    have hidle := Session.advertise_idle (v := n'.conn.version) hall.exporting.phase
      hall.exporting.mode (by
        rw [hsame]
        exact Exports.difference_self hall.exporting.regular.filed)
    rw [hidle, hsame]

theorem regular_block (tag : UInt16) (path : List NodeId) (stamp : Instant) :
    (Table.ofBindings [Feed.block tag path stamp]).Regular :=
  ⟨(Feed.announceable_block tag path stamp).filed,
    (Feed.announceable_block tag path stamp).canonical⟩

/-- An export whose frames encode goes through when the line takes them. -/
theorem export?_of_exports {n : Node} (hphase : n.conn.phase = .on)
    (hmode : n.conn.mode.isSpeaker = true) (hfree : n.conn.line.Free) {db : Database}
    {frames : List Bytes} (h : Node.Exports n.conn.version { n with db } frames) :
    n.export? db = some
      { conn := { n.conn with
          line.sent := n.conn.line.sent ++ frames
          advertised := Session.exported n.conn db }
        db } := by
  rw [export?, Session.advertise_of_exports (n := { n with db }) hphase hmode hfree h]

theorem Exporting.export_single {n : Node} (h : n.Exporting) (hfree : n.conn.line.Free)
    {db : Database} {b : Binding} {m : Message} {frame : Bytes}
    (hdelete : (Session.difference n.conn.advertised (Session.exported n.conn db)).1 = [])
    (hadd : (Session.exported n.conn db).bindings.filter
      (fun b => n.conn.advertised[b.net]? ≠ some b) = [b])
    (hm : n.conn.composer .v4 [] [b] = .ok m) (hframe : m.frame = .ok frame) :
    n.export? db = some
      { conn := { n.conn with
          line.sent := n.conn.line.sent ++ [frame]
          advertised := Session.exported n.conn db }
        db } := by
  rw [← h.version] at hm
  exact export?_of_exports h.phase h.mode hfree (Node.exports_single hdelete hadd hm hframe)

/-- A binding is replaced by one with a longer path, which a listener would refuse: a copy kept from
the frames has it. -/
theorem exports_exact_detour :
    let n := Feed.blank.speaker
    let direct : Database := { table := .ofBindings [Feed.near] }
    let detour : Database := { table := .ofBindings [Feed.far] }
    n.Exporting ∧ n.conn.advertised = ∅ ∧
      (∀ db ∈ [direct] ++ [detour], db.table.Regular) ∧
      ∃ n', n.exports? ([direct] ++ [detour]) = some n' ∧
        n'.conn.line.sent = [Feed.nearFrame, Feed.farFrame] ∧
        ∀ now later, Copy.blank.hearAll [(now, Feed.nearFrame), (later, Feed.farFrame)] =
          some (detour.table.meant 0x0a000001 0x0a000002) := by
  intro n direct detour
  have hexporting : n.Exporting := ⟨rfl, rfl, rfl, Table.regular_empty⟩
  have hregular : ∀ db ∈ [direct] ++ [detour], db.table.Regular := by
    intro db hdb
    rcases List.mem_pair.1 hdb with rfl | rfl
    · exact regular_block 100 [] ⟨10, 0⟩
    · exact regular_block 200 [9] ⟨20, 0⟩
  let n₁ : Node :=
    { conn := { n.conn with
        line.sent := [Feed.nearFrame]
        advertised := .ofBindings [Feed.near] }
      db := direct }
  obtain ⟨mnear, hmnear, hnear⟩ := Feed.composer_near
  obtain ⟨mfar, hmfar, hfar⟩ := Feed.composer_far
  have hfirst : n.export? direct = some n₁ :=
    hexporting.export_single ⟨rfl, rfl⟩ rfl rfl hmnear hnear
  have hexporting₁ : n₁.Exporting := ⟨rfl, rfl, rfl, (regular_block 100 [] ⟨10, 0⟩)⟩
  obtain ⟨n', hn', hsent⟩ : ∃ n', n₁.export? detour = some n' ∧
      n'.conn.line.sent = [Feed.nearFrame, Feed.farFrame] :=
    ⟨_, hexporting₁.export_single ⟨rfl, rfl⟩ rfl rfl hmfar hfar, rfl⟩
  have hrun : n.exports? ([direct] ++ [detour]) = some n' := by
    show (n.export? direct >>= fun n => n.export? detour >>= some) = some n'
    rw [hfirst]
    show (n₁.export? detour >>= some) = some n'
    rw [hn']
    rfl
  obtain ⟨⟨frames, hframes, -, hheard⟩, -⟩ := exports_exact hexporting rfl hregular hrun
  refine ⟨hexporting, rfl, hregular, n', hrun, hsent, ?_⟩
  intro now later
  apply hheard
  rw [hsent] at hframes
  exact hframes

end Node

end TagExchange
