import TagExchange.Proofs.Exchange.Convergence
import TagExchange.Proofs.Session.Attribution

/-!
# No binding goes round in circles

A mesh of nodes, each with one database and one id, whose links end in connections of any version.
Bindings come into a mesh with an empty path, at any node and at any time; everything else that the
databases hold has been sent along the links. Whatever happens, no path leads through a node twice
or through the node that holds the binding (`Mesh.loopFree`): a node puts its own id in front of
what it passes on, which has not been through it, and drops what has been through it when it comes
back. A hop of an older version forgets the path and starts a new one.

A frame that is on its way tells of the bindings that its sender had when it was sent; they may be
gone since. So the invariant is about all frames that have ever been sent (`Mesh.Sound`). It needs
nothing of who faces whom, and nothing of the ids.
-/

namespace TagExchange

/-- The ends of the links, the node that each belongs to, the end that each faces, and the ids of
the nodes. -/
structure Wiring (Site End : Type) where
  site : End → Site
  other : End → End
  id : Site → NodeId

/-- The database of every node and the connection at every end of a link. -/
structure Mesh (Site End : Type) where
  db : Site → Database
  conn : End → Connection

namespace Mesh

/-- What can happen in a mesh. -/
inductive Act (Site End : Type) where
  | originate (s : Site) (batch : List Binding)
  | withdraw (s : Site) (nets : List Network)
  | purge (s : Site) (peer : NodeId)
  /-- A new connection takes the place of the one at an end. -/
  | connect (e : End) (c : Connection)
  | occur (e : End) (event : Event)
  | say (e : End) (m : Message)
  /-- An end hears the next frame on its way at an instant. -/
  | deliver (e : End) (now : Instant)

variable {Site End : Type} {w : Wiring Site End}

/-- What nodes do of their own accord. Bindings of their own have no path, new connections are
between the same nodes and have sent nothing, and openings and updates are sent by sessions only. -/
def Act.Proper (w : Wiring Site End) : Act Site End → Prop
  | originate _ batch => ∀ b ∈ batch, b.path = []
  | connect e c => c.localId = w.id (w.site e) ∧ c.line.sent = []
  | occur _ event => ∀ now bs, event ≠ .frame now bs
  | say _ m => m.type ≠ .opening ∧ m.type ≠ .reply ∧ m.type ≠ .update
  | withdraw _ _ | purge _ _ | deliver _ _ => True

/-- The node as one of its connections has it. -/
def node (w : Wiring Site End) (m : Mesh Site End) (e : End) : Node := ⟨m.conn e, m.db (w.site e)⟩

/-- A path that does not lead through a node twice, nor through the given one. -/
def Straight (id : NodeId) (path : List NodeId) : Prop := path.Nodup ∧ id ∉ path

/-- A mesh before anything has been sent, with bindings of the nodes' own at most. -/
structure Fresh (w : Wiring Site End) (m : Mesh Site End) : Prop where
  direct : ∀ s, ∀ b ∈ (m.db s).bindings, b.path = []
  localId : ∀ e, (m.conn e).localId = w.id (w.site e)
  silent : ∀ e, (m.conn e).line.sent = []

/-- What holds all along: every node's paths are straight, and all that has been sent tells of such
paths. -/
structure Sound (w : Wiring Site End) (m : Mesh Site End) : Prop where
  straight : ∀ s, ∀ b ∈ (m.db s).bindings, Straight (w.id s) b.path
  localId : ∀ e, (m.conn e).localId = w.id (w.site e)
  sent : ∀ e, ∀ frame ∈ (m.conn e).line.sent,
    (m.conn e).Utters (fun _ => True) (Straight (w.id (w.site e))) frame

variable {m : Mesh Site End}

theorem Fresh.sound (h : m.Fresh w) : m.Sound w where
  straight := by
    intro s b hb
    rw [h.direct s b hb]
    exact ⟨List.nodup_nil, List.not_mem_nil⟩
  localId := h.localId
  sent := by
    intro e frame hframe
    rw [h.silent e] at hframe
    cases hframe

theorem Sound.candid (h : m.Sound w) (e : End) :
    (m.node w e).Candid (fun _ => True) (Straight (w.id (w.site e))) :=
  ⟨trivial, h.straight (w.site e), h.sent e⟩

/-- What one node says another may believe: a straight path that has not been through the other is
straight there too, with one hop more. -/
theorem Sound.credible (h : m.Sound w) {e : End} (id : NodeId) {frame : Bytes}
    (hframe : frame ∈ (m.conn e).line.sent) {v : Version} {message : Message}
    (hread : Message.ofFrame v frame = .ok message) :
    message.Credible (fun _ => True) (Straight id) id := by
  refine (h.sent e frame hframe).credible (fun _ _ _ _ => trivial) ?_ ?_ hread
  · intro peer hpeer
    exact ⟨List.nodup_singleton peer, by simpa using Ne.symm hpeer⟩
  · rintro path ⟨hnodup, hlocal⟩ hid
    rw [h.localId e]
    rw [h.localId e] at hid
    exact ⟨List.nodup_cons.2 ⟨hlocal, hnodup⟩, hid⟩

section Sites

variable [DecidableEq Site]

/-- Changes the database of a node, unless its store refuses. -/
def change (s : Site) (op : Database → Except StoreError (List Binding × Database))
    (m : Mesh Site End) : Mesh Site End :=
  match op (m.db s) with
  | .ok (_, db) => { m with db := Function.update m.db s db }
  | .error _ => m

theorem Sound.change (h : m.Sound w) {s : Site}
    {op : Database → Except StoreError (List Binding × Database)}
    (hop : ∀ bs db, op (m.db s) = .ok (bs, db) →
      ∀ b ∈ db.bindings, b ∈ (m.db s).bindings ∨ b.path = []) : (m.change s op).Sound w := by
  rw [Mesh.change]
  split
  · next bs db hdb =>
    refine ⟨?_, h.localId, h.sent⟩
    intro s' b hb
    by_cases hs' : s' = s
    · subst hs'
      simp only [Function.update_self] at hb
      rcases hop bs db hdb b hb with hb | hb
      · exact h.straight s' b hb
      · rw [hb]
        exact ⟨List.nodup_nil, List.not_mem_nil⟩
    · simp only [Function.update_of_ne hs'] at hb
      exact h.straight s' b hb
  · exact h

end Sites

section Ends

variable [DecidableEq End]

/-- Another connection at an end, between the same nodes, that has sent what the one before has sent
or nothing. -/
theorem Sound.connect (h : m.Sound w) {e : End} {c : Connection}
    (hid : c.localId = w.id (w.site e))
    (hsent : ∀ frame ∈ c.line.sent, c.Utters (fun _ => True) (Straight (w.id (w.site e))) frame) :
    Mesh.Sound w { m with conn := Function.update m.conn e c } := by
  refine ⟨h.straight, ?_, ?_⟩
  · intro e'
    by_cases he : e' = e
    · subst he
      simpa using hid
    · simpa [he] using h.localId e'
  · intro e'
    by_cases he : e' = e
    · subst he
      simpa using hsent
    · simpa [he] using h.sent e'

end Ends

variable [DecidableEq Site] [DecidableEq End]

/-- A session at an end, as far as it gets. -/
def act {α : Type} (w : Wiring Site End) (e : End) (s : Session α) (m : Mesh Site End) :
    Mesh Site End :=
  let n := s.outcome (m.node w e)
  { db := Function.update m.db (w.site e) n.db, conn := Function.update m.conn e n.conn }

/-- An end hears the next frame that the end it faces has on its way. -/
def deliver (w : Wiring Site End) (e : End) (now : Instant) (m : Mesh Site End) : Mesh Site End :=
  let sender := m.conn (w.other e)
  match sender.line.pending with
  | [] => m
  | frame :: _ =>
    let line := { sender.line with taken := sender.line.taken + 1 }
    let m := { m with conn := Function.update m.conn (w.other e) { sender with line } }
    m.act w e (Session.hear now frame)

def step (w : Wiring Site End) (m : Mesh Site End) : Act Site End → Mesh Site End
  | .originate s batch => m.change s fun db => db.add batch
  | .withdraw s nets => m.change s fun db => db.delete nets
  | .purge s peer => m.change s fun db => db.purge peer
  | .connect e c => { m with conn := Function.update m.conn e c }
  | .occur e event => m.act w e event.session
  | .say e message => m.act w e (Session.send message)
  | .deliver e now => m.deliver w e now

def run (w : Wiring Site End) (m : Mesh Site End) (acts : List (Act Site End)) : Mesh Site End :=
  acts.foldl (step w) m

/-- It is enough to look at the node where a session takes place. -/
theorem Sound.act (h : m.Sound w) {α : Type} {e : End} {s : Session α}
    (hs : (m.node w e).Upholds (fun _ => True) (Straight (w.id (w.site e)))
      (s.outcome (m.node w e))) : (m.act w e s).Sound w := by
  have hcandid := hs.candid (h.candid e)
  refine ⟨?_, ?_, ?_⟩
  · intro s'
    by_cases hs' : s' = w.site e
    · subst hs'
      simpa [Mesh.act] using hcandid.bindings
    · simpa [Mesh.act, hs'] using h.straight s'
  · intro e'
    by_cases he : e' = e
    · subst he
      simpa [Mesh.act] using hs.same.localId.trans (h.localId e')
    · simpa [Mesh.act, he] using h.localId e'
  · intro e'
    by_cases he : e' = e
    · subst he
      simpa [Mesh.act] using hcandid.sent
    · simpa [Mesh.act, he] using h.sent e'

theorem Sound.deliver (h : m.Sound w) (e : End) (now : Instant) : (m.deliver w e now).Sound w := by
  rw [Mesh.deliver]
  dsimp only
  split
  · exact h
  · next frame rest hpending =>
    have hframe : frame ∈ (m.conn (w.other e)).line.sent := by
      apply List.mem_of_mem_drop (i := (m.conn (w.other e)).line.taken)
      rw [← Line.pending, hpending]
      exact List.mem_cons_self
    have htaken := h.connect (e := w.other e) (c := { m.conn (w.other e) with
      line := { (m.conn (w.other e)).line with taken := (m.conn (w.other e)).line.taken + 1 } })
      (h.localId _) fun f hf => (h.sent _ f hf).same ⟨rfl, rfl, rfl⟩
    refine htaken.act (Session.hear_upholds fun message hread => ?_)
    have hlocal := htaken.localId e
    rw [Mesh.node, hlocal]
    exact h.credible _ hframe hread

theorem upholds_event {event : Event} (hevent : ∀ now bs, event ≠ .frame now bs) (n : Node)
    (vouches : List NodeId → Prop) :
    n.Upholds (fun _ => True) vouches (event.session.outcome n) := by
  cases event with
  | activate v => exact Session.activate_upholds trivial n
  | frame now bs => exact absurd rfl (hevent now bs)
  | exception v f => exact Session.shutDown_upholds v f n
  | deactivate => exact Session.deactivate_upholds n
  | advertise v => exact (Session.advertise_upholds v).discard n
  | refuse writes reads => exact .of_db fun _ hb => .inl hb

theorem Sound.step (h : m.Sound w) {a : Act Site End} (ha : a.Proper w) : (m.step w a).Sound w := by
  cases a with
  | originate s batch =>
    show (m.change s fun db => db.add batch).Sound w
    refine h.change fun bs db hadd b hb => ?_
    rcases Database.mem_add hadd hb with hb | ⟨-, q, hq, rfl⟩
    · exact .inl hb
    · exact .inr (ha q hq)
  | withdraw s nets =>
    show (m.change s fun db => db.delete nets).Sound w
    exact h.change fun bs db hdelete b hb => .inl (Database.mem_deleteWhere hdelete hb)
  | purge s peer =>
    show (m.change s fun db => db.purge peer).Sound w
    exact h.change fun bs db hpurge b hb => .inl (Database.mem_deleteWhere hpurge hb)
  | connect e c => exact h.connect ha.1 (by simp [ha.2])
  | occur e event => exact h.act (upholds_event ha _ _)
  | say e message =>
    exact h.act (Session.send_upholds fun _ frame hframe => .other ha.1 ha.2.1 ha.2.2 hframe)
  | deliver e now => exact h.deliver e now

theorem Sound.run (h : m.Sound w) {acts : List (Act Site End)} (hacts : ∀ a ∈ acts, a.Proper w) :
    (m.run w acts).Sound w := by
  induction acts generalizing m with
  | nil => exact h
  | cons a acts ih => exact ih (h.step (hacts a (by simp))) fun b hb => hacts b (by simp [hb])

/-- In every state that a fresh mesh can reach, no binding has been through a node twice or through
the node that holds it, and no update of version 4 on its way announces a path that leads through a
node twice. -/
theorem loopFree (h : m.Fresh w) {acts : List (Act Site End)} (hacts : ∀ a ∈ acts, a.Proper w) :
    (∀ s, ∀ b ∈ ((m.run w acts).db s).bindings, b.path.Nodup ∧ w.id s ∉ b.path) ∧
    ∀ e, ∀ frame ∈ ((m.run w acts).conn e).line.pending, ∀ attrs now changes,
      Message.ofFrame .v4 frame = .ok (.update attrs) →
        Update.changes now attrs = .ok changes → ∀ b ∈ changes.add, b.path.Nodup := by
  have hsound := h.sound.run hacts
  refine ⟨hsound.straight, ?_⟩
  intro e frame hframe attrs now changes hread hchanges b hb
  have hutters := hsound.sent e frame (List.mem_of_mem_drop hframe)
  obtain ⟨path, ⟨hnodup, hlocal⟩, hpath⟩ := hutters.announces hread hchanges hb
  rw [hpath, hsound.localId e]
  exact List.nodup_cons.2 ⟨hlocal, hnodup⟩

/-- Three nodes in a row and the two links between them. On each link the node in front speaks. -/
def row : Wiring (Fin 3) (Bool × Bool) where
  site
    | (false, true) => 0
    | (false, false) => 1
    | (true, true) => 1
    | (true, false) => 2
  other := fun (link, speaks) => (link, !speaks)
  id := fun s => 0x0a000001 + BitVec.ofNat 32 s

/-- All sessions are on, and nothing has been told. -/
def silent : Mesh (Fin 3) (Bool × Bool) where
  db := fun _ => {}
  conn := fun (link, speaks) =>
    let c := if speaks then Feed.blank.speaker.conn else Feed.blank.listener.conn
    if link then
      { c with localId := c.localId + 1, remoteNodeId := c.remoteNodeId.map (· + 1) }
    else c

/-- The first node tells the second of a binding, and the second tells the third. -/
def passOn : List (Act (Fin 3) (Bool × Bool)) :=
  [.originate 0 [Feed.near], .occur (false, true) (.advertise .v4),
    .deliver (false, false) ⟨100, 0⟩, .occur (true, true) (.advertise .v4)]

/-- What is told of it, with the path so far. -/
def announcement (path : List NodeId) : Message :=
  .update [.wellKnown (.path path), .wellKnown (.tag Message.plainTag),
    .of Flags.optionalCompact (.announce4 [⟨0x0a050000, 16⟩])]

/-- The frame that the second node sends. -/
def onwardFrame : Bytes :=
  [0, 0, 0, 30, 0, 0, 0, 3, 80, 16, 8, 10, 0, 0, 2, 10, 0, 0, 1, 80, 17, 2, 0, 100, 144, 11, 3,
    16, 10, 5]

theorem announcement_read {path : List NodeId} {frame : Bytes}
    (hframe : (announcement path).frame = .ok frame) :
    Message.ofFrame .v4 frame = .ok (announcement path).canonical :=
  Message.ofFrame_of_frame (Session.announcement_wellFormed path Message.plainTag
    Flags.optionalCompact ⟨by decide, by decide⟩) hframe

/-- An export of one binding to a peer that has been told nothing. -/
theorem advertise_outcome_single {n : Node} {b : Binding} {m : Message} {frame : Bytes}
    (hphase : n.conn.phase = .on) (hmode : n.conn.mode.isSpeaker = true) (hfree : n.conn.line.Free)
    (hdelete : (Session.difference n.conn.advertised (Session.exported n.conn n.db)).1 = [])
    (hadd : (Session.exported n.conn n.db).bindings.filter
      (fun b => n.conn.advertised[b.net]? ≠ some b) = [b])
    (hm : n.conn.composer .v4 [] [b] = .ok m) (hframe : m.frame = .ok frame) :
    (Event.advertise .v4).session.outcome n =
      { n with
        conn.line.sent := n.conn.line.sent ++ [frame]
        conn.advertised := Session.exported n.conn n.db } := by
  rw [Event.session, Session.outcome_discard]
  exact Session.outcome_of_ok (Session.advertise_of_exports hphase hmode hfree
    (Node.exports_single hdelete hadd hm hframe))

/-- What the second node files and tells. -/
def onward : Binding := Feed.block 100 [0x0a000001] ⟨100, 0⟩

theorem hear_near : (Session.hear ⟨100, 0⟩ Feed.nearFrame).outcome Feed.blank.listener =
    ⟨Feed.blank.listener.conn, { table := .ofBindings [onward], generation := 1 }⟩ := by
  apply Session.outcome_of_ok
  have hread : Message.ofFrame .v4 Feed.nearFrame = .ok (announcement [0x0a000001]) :=
    announcement_read rfl
  rw [Session.hear_of_read (n := Feed.blank.listener) hread]
  rfl

theorem composer_onward : ∃ m, (silent.conn (true, true)).composer .v4 [] [onward] = .ok m ∧
    m.frame = .ok onwardFrame :=
  ⟨_, rfl, rfl⟩

/-- The mesh when the first node has told the second. -/
def told : Mesh (Fin 3) (Bool × Bool) where
  db := Function.update silent.db 0 { table := .ofBindings [Feed.near], generation := 1 }
  conn := Function.update silent.conn (false, true) { silent.conn (false, true) with
    line := { (silent.conn (false, true)).line with sent := [Feed.nearFrame] }
    advertised := .ofBindings [Feed.near] }

/-- The mesh when the second node has heard it. -/
def heard : Mesh (Fin 3) (Bool × Bool) where
  db := Function.update told.db 1 { table := .ofBindings [onward], generation := 1 }
  conn := Function.update told.conn (false, true) { told.conn (false, true) with
    line := { (told.conn (false, true)).line with taken := 1 } }

theorem run_told :
    silent.run row [.originate 0 [Feed.near], .occur (false, true) (.advertise .v4)] = told := by
  obtain ⟨m, hm, hframe⟩ := Feed.composer_near
  let n : Node := ⟨silent.conn (false, true), told.db 0⟩
  have hadvertise := advertise_outcome_single (n := n) rfl rfl ⟨rfl, rfl⟩ rfl rfl hm hframe
  show Mesh.mk (Function.update _ _ (Session.outcome _ n).db)
    (Function.update _ _ (Session.outcome _ n).conn) = told
  rw [hadvertise, told]
  congr 1
  exact Function.update_idem ..

theorem deliver_told : told.deliver row (false, false) ⟨100, 0⟩ = heard := by
  show Mesh.mk (Function.update _ _ (Session.outcome _ Feed.blank.listener).db)
    (Function.update _ _ (Session.outcome _ Feed.blank.listener).conn) = heard
  rw [hear_near, heard]
  congr 1
  exact Function.update_eq_self ..

theorem run_passOn : (silent.run row passOn).db 1 = heard.db 1 ∧
    ((silent.run row passOn).conn (true, true)).line.pending = [onwardFrame] := by
  obtain ⟨m, hm, hframe⟩ := composer_onward
  let n : Node := ⟨silent.conn (true, true), heard.db 1⟩
  have hadvertise := advertise_outcome_single (n := n) rfl rfl ⟨rfl, rfl⟩ rfl rfl hm hframe
  have hrun : silent.run row passOn = heard.step row (.occur (true, true) (.advertise .v4)) := by
    rw [← deliver_told, ← run_told]
    rfl
  rw [hrun]
  show (Session.outcome _ n).db = _ ∧ (Session.outcome _ n).conn.line.pending = _
  rw [hadvertise]
  exact ⟨rfl, rfl⟩

theorem loopFree_passOn : silent.Fresh row ∧ (∀ a ∈ passOn, a.Proper row) ∧
    onward ∈ ((silent.run row passOn).db 1).bindings ∧
    ((silent.run row passOn).conn (true, true)).line.pending = [onwardFrame] ∧
    Message.ofFrame .v4 onwardFrame = .ok (announcement [0x0a000002, 0x0a000001]) ∧
    (∀ s, ∀ b ∈ ((silent.run row passOn).db s).bindings, b.path.Nodup ∧ row.id s ∉ b.path) ∧
    ∀ attrs now changes, Message.ofFrame .v4 onwardFrame = .ok (.update attrs) →
      Update.changes now attrs = .ok changes → ∀ b ∈ changes.add, b.path.Nodup := by
  have hfresh : silent.Fresh row := by
    refine ⟨?_, by decide, by decide⟩
    intro s b hb
    simp [silent, Database.bindings, Table.mem_bindings] at hb
  have hproper : ∀ a ∈ passOn, a.Proper row := by
    intro a ha
    simp only [passOn, List.mem_cons, List.not_mem_nil, or_false] at ha
    rcases ha with rfl | rfl | rfl | rfl
    · intro b hb
      obtain rfl := List.mem_singleton.1 hb
      rfl
    · intro now bs h
      cases h
    · trivial
    · intro now bs h
      cases h
  obtain ⟨hstraight, hflight⟩ := loopFree hfresh hproper
  obtain ⟨hdb, hpending⟩ := run_passOn
  have honward : onward ∈ (heard.db 1).bindings := by decide +kernel
  have hread : Message.ofFrame .v4 onwardFrame = .ok (announcement [0x0a000002, 0x0a000001]) :=
    announcement_read rfl
  refine ⟨hfresh, hproper, hdb ▸ honward, hpending, hread, hstraight, ?_⟩
  apply hflight (true, true)
  rw [hpending]
  exact List.mem_cons_self

end Mesh

end TagExchange
