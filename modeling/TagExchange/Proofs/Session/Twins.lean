import TagExchange.Proofs.Session.Attribution

/-!
# Two nodes that cannot be told apart

What a connection notes of its peer is its id, its capabilities, the timers and the time of its last
keepalive. A node that differs from another one in the timers only is a twin of it
(`Node.Twin`). While it is not on, it may also take the peer for someone else, as long as a purge
would not show it (`Node.Stranger`). No step gives different results on two such nodes, and they
stay alike (`Session.hear_alike` and its companions); once an opening has been accepted they are
twins (`Session.accept_alike`).
-/

namespace TagExchange

/-- What a connection notes of its peer. -/
structure PeerNotes where
  remoteNodeId : Option NodeId
  capabilities : List Capability
  holdTime : Nat
  keepaliveTime : Nat
  lastKeepalive : Option Instant

/-- The connection with other notes. -/
def Connection.noting (c : Connection) (notes : PeerNotes) : Connection :=
  { c with
    remoteNodeId := notes.remoteNodeId
    capabilities := notes.capabilities
    holdTime := notes.holdTime
    keepaliveTime := notes.keepaliveTime
    lastKeepalive := notes.lastKeepalive }

namespace Node

def noting (n : Node) (notes : PeerNotes) : Node := { n with conn := n.conn.noting notes }

/-- The same node, but for the timers and the time of the last keepalive. -/
def Twin (n n' : Node) : Prop := ∃ notes : PeerNotes, n' = n.noting notes ∧
  notes.remoteNodeId = n.conn.remoteNodeId ∧ notes.capabilities = n.conn.capabilities

/-- Two ids of a peer that a purge treats in the same way. -/
def Confuses (n : Node) (peer peer' : NodeId) : Prop :=
  peer = peer' ∨ ¬n.Holds peer ∧ ¬n.Holds peer'

/-- The same node, not on and with any notes, but a listener confuses the ids of the peer. -/
def Stranger (n n' : Node) : Prop := ∃ notes : PeerNotes, n' = n.noting notes ∧
  n.conn.phase ≠ .on ∧
  (n.conn.mode.isListener = true → n.Confuses n.conn.remoteId n'.conn.remoteId)

def Alike (n n' : Node) : Prop := n.Twin n' ∨ n.Stranger n'

variable {n n' : Node}

theorem Twin.alike (h : n.Twin n') : n.Alike n' := .inl h

theorem Alike.noting (h : n.Alike n') : ∃ notes, n' = n.noting notes := by
  rcases h with ⟨notes, rfl, -⟩ | ⟨notes, rfl, -⟩ <;> exact ⟨notes, rfl⟩

theorem Alike.mode (h : n.Alike n') : n'.conn.mode = n.conn.mode := by
  obtain ⟨notes, rfl⟩ := h.noting
  rfl

theorem Alike.phase (h : n.Alike n') : n'.conn.phase = n.conn.phase := by
  obtain ⟨notes, rfl⟩ := h.noting
  rfl

theorem Alike.version (h : n.Alike n') : n'.conn.version = n.conn.version := by
  obtain ⟨notes, rfl⟩ := h.noting
  rfl

theorem Alike.line (h : n.Alike n') : n'.conn.line = n.conn.line := by
  obtain ⟨notes, rfl⟩ := h.noting
  rfl

theorem Alike.db (h : n.Alike n') : n'.db = n.db := by
  obtain ⟨notes, rfl⟩ := h.noting
  rfl

theorem Alike.localId (h : n.Alike n') : n'.conn.localId = n.conn.localId := by
  obtain ⟨notes, rfl⟩ := h.noting
  rfl

theorem Alike.opening (h : n.Alike n') (v : Version) : n'.conn.opening v = n.conn.opening v := by
  obtain ⟨notes, rfl⟩ := h.noting
  rfl

/-- Nodes that are alike are twins while they are on. -/
theorem Alike.twin (h : n.Alike n') (hon : n.conn.phase = .on) : n.Twin n' := by
  rcases h with h | ⟨-, -, hoff, -⟩
  · exact h
  · exact absurd hon hoff

theorem Twin.remoteId (h : n.Twin n') : n'.conn.remoteId = n.conn.remoteId := by
  obtain ⟨notes, rfl, hid, -⟩ := h
  show (notes.remoteNodeId <|> n.conn.line.peer.addr4?).getD 0 = _
  rw [hid]
  rfl

theorem Twin.holdsBack (h : n.Twin n') : n'.conn.holdsBack = n.conn.holdsBack := by
  funext b
  rw [Connection.holdsBack, Connection.holdsBack, h.remoteId]

theorem Twin.composer (h : n.Twin n') (v : Version) :
    n'.conn.composer v = n.conn.composer v := by
  rw [Connection.composer, Connection.composer, h.holdsBack]
  obtain ⟨notes, rfl, -, hcaps⟩ := h
  show (if v.isLegacy then _ else Composer.current n.conn.localId notes.capabilities _) = _
  rw [hcaps]
  rfl

theorem Twin.exported (h : n.Twin n') :
    Session.exported n'.conn n'.db = Session.exported n.conn n.db := by
  rw [Session.exported, Session.exported, h.holdsBack, h.alike.db]

end Node

namespace Session

variable {α β : Type} {R R' E : Node → Node → Prop} {n n' : Node}

/-- Two runs with the same result, and what relates the nodes after a success and after a fault. -/
inductive Match (R E : Node → Node → Prop) :
    EStateM.Result Fault Node α → EStateM.Result Fault Node α → Prop
  | ok {a : α} {n n' : Node} (h : R n n') : Match R E (.ok a n) (.ok a n')
  | error {f : Fault} {n n' : Node} (h : E n n') : Match R E (.error f n) (.error f n')

theorem Match.bind {s : Session α} {f : α → Session β} (hs : Match R E (s n) (s n'))
    (hf : ∀ a n₁ n₁', R n₁ n₁' → Match R' E (f a n₁) (f a n₁')) :
    Match R' E ((s >>= f) n) ((s >>= f) n') := by
  generalize hx : s n = x at hs
  generalize hx' : s n' = x' at hs
  cases hs with
  | ok h =>
    rw [bind_of_ok hx, bind_of_ok hx']
    exact hf _ _ _ h
  | error h =>
    rw [bind_of_error hx, bind_of_error hx']
    exact .error h

theorem Match.mono {x x' : EStateM.Result Fault Node α} (h : Match R E x x')
    {E' : Node → Node → Prop} (hok : ∀ {n n'}, R n n' → R' n n')
    (herror : ∀ {n n'}, E n n' → E' n n') : Match R' E' x x' := by
  cases h with
  | ok h => exact .ok (hok h)
  | error h => exact .error (herror h)

end Session

namespace Connection

variable (notes : PeerNotes) (c : Connection)

theorem send_noting (m : Message) :
    (c.noting notes).send m = (c.send m).map (noting · notes) := by
  rw [send, send]
  cases m.frame with
  | error f => rfl
  | ok frame =>
    show (c.line.send frame >>= _) = Except.map _ (c.line.send frame >>= _)
    cases c.line.send frame <;> rfl

theorem sendAll_noting (frames : List Bytes) : (c.noting notes).sendAll frames =
    ((c.sendAll frames).1, (c.sendAll frames).2.noting notes) := by
  induction frames generalizing c with
  | nil => rfl
  | cons frame frames ih =>
    have hline : (c.noting notes).line = c.line := rfl
    rw [sendAll, sendAll, hline]
    cases c.line.send frame with
    | error f => rfl
    | ok line => exact ih { c with line }

theorem shutDown_noting (v : Version) (f : Fault) :
    (c.noting notes).shutDown v f = (c.shutDown v f).noting notes := by
  rw [shutDown, shutDown]
  cases f.notice? v with
  | none => rfl
  | some notice =>
    dsimp only
    rw [send_noting]
    cases c.send (.error notice) <;> rfl

/-- The timers that are agreed on depend on the offer and the settings. -/
theorem negotiate_noting (offer : Option HoldTime) : ∃ timers : Except Fault (Nat × Nat),
    ∀ notes, (c.noting notes).negotiate offer = timers.map fun t =>
      { c.noting notes with holdTime := t.1, keepaliveTime := t.2 } := by
  cases offer with
  | none => exact ⟨.ok (0, 0), fun _ => rfl⟩
  | some offered =>
    have hset (t : Nat) : ∃ timers : Except Fault (Nat × Nat), ∀ notes,
        (Except.ok ((c.noting notes).setTimers t) : Except Fault Connection) =
          timers.map fun t => { c.noting notes with holdTime := t.1, keepaliveTime := t.2 } :=
      ⟨.ok (t, min (t / 3) c.config.keepaliveTime), fun _ => rfl⟩
    have hmode (notes : PeerNotes) : (c.noting notes).mode = c.mode := rfl
    have hconfig (notes : PeerNotes) : (c.noting notes).config = c.config := rfl
    simp only [negotiate, hmode, hconfig]
    split_ifs
    · exact ⟨.ok (0, 0), fun _ => rfl⟩
    · exact ⟨.error _, fun _ => rfl⟩
    · exact hset _
    · exact ⟨.error _, fun _ => rfl⟩
    · exact hset _

/-- Of what is noted an opening that has been accepted changes the timers only. -/
theorem timed_noting (o : Opening) :
    (∃ f, c.timed o = .error f ∧ (c.noting notes).timed o = .error f) ∨
    ∃ c' notes', c.timed o = .ok c' ∧ (c.noting notes).timed o = .ok (c'.noting notes') ∧
      c'.remoteNodeId = c.remoteNodeId ∧ c'.capabilities = c.capabilities ∧
      notes'.remoteNodeId = notes.remoteNodeId ∧ notes'.capabilities = notes.capabilities := by
  have hversion : (c.noting notes).version = c.version := rfl
  rw [timed, timed, hversion]
  by_cases hlegacy : c.version.isLegacy = true
  · rw [if_pos hlegacy, if_pos hlegacy]
    exact .inr ⟨c, notes, rfl, rfl, rfl, rfl, rfl, rfl⟩
  · rw [if_neg hlegacy, if_neg hlegacy]
    obtain ⟨timers, htimers⟩ := c.negotiate_noting o.holdTime?
    have hself := htimers ⟨c.remoteNodeId, c.capabilities, c.holdTime, c.keepaliveTime,
      c.lastKeepalive⟩
    rw [htimers notes]
    cases timers with
    | error f => exact .inl ⟨f, hself, rfl⟩
    | ok t => exact .inr ⟨_, { notes with holdTime := t.1, keepaliveTime := t.2 }, hself, rfl,
        rfl, rfl, rfl, rfl⟩

end Connection

namespace Node

variable {n n' : Node}

/-- Nodes that are alike stay so with another line to the same peer, and twins with any database. -/
theorem Twin.onLine (h : n.Twin n') (line : Line) :
    Twin { n with conn.line := line } { n' with conn.line := line } := by
  obtain ⟨notes, rfl, hid, hcaps⟩ := h
  exact ⟨notes, rfl, hid, hcaps⟩

theorem Twin.onDatabase (h : n.Twin n') (db : Database) : Twin { n with db } { n' with db } := by
  obtain ⟨notes, rfl, hid, hcaps⟩ := h
  exact ⟨notes, rfl, hid, hcaps⟩

theorem Stranger.onLine (h : n.Stranger n') {line : Line} (hpeer : line.peer = n.conn.line.peer) :
    Stranger { n with conn.line := line } { n' with conn.line := line } := by
  obtain ⟨notes, rfl, hoff, hids⟩ := h
  refine ⟨notes, rfl, hoff, fun hlistener => ?_⟩
  have hid (m : Node) (hm : m.conn.line.peer = n.conn.line.peer) :
      { m.conn with line }.remoteId = m.conn.remoteId := by
    rw [Connection.remoteId, Connection.remoteId, hm, hpeer]
  have hids := hids hlistener
  rw [← hid n rfl, ← hid (n.noting notes) rfl] at hids
  exact hids

end Node

namespace Session

open Node (Twin Stranger Alike)

variable {α : Type} {R : Node → Node → Prop} {n n' : Node}

theorem ofExcept_match (x : Except Fault α) (h : R n n') :
    Match R R (ofExcept x n) (ofExcept x n') := by
  cases x with
  | ok a => exact .ok h
  | error f => exact .error h

/-- A message goes out on either line, or on neither. -/
theorem send_match {m : Message} (h : R n n') (hnotes : ∃ notes, n' = n.noting notes)
    (hline : ∀ line : Line, line.peer = n.conn.line.peer →
      R { n with conn.line := line } { n' with conn.line := line }) :
    Match R R (send m n) (send m n') := by
  obtain ⟨notes, rfl⟩ := hnotes
  have hsame := n.conn.send_noting notes m
  cases hsend : n.conn.send m with
  | error f =>
    rw [hsend] at hsame
    rw [send, onConnection_of_error hsend, onConnection_of_error (n := n.noting notes) hsame]
    exact .error h
  | ok c =>
    rw [hsend] at hsame
    rw [send, onConnection_of_ok hsend, onConnection_of_ok (n := n.noting notes) hsame]
    obtain ⟨frame, line, -, hextends, rfl⟩ := Connection.send_ok hsend
    exact .ok (hline line hextends.peer)

theorem send_twin (m : Message) (h : n.Twin n') : Match Twin Twin (send m n) (send m n') :=
  send_match h h.alike.noting fun line _ => h.onLine line

theorem send_alike (m : Message) (h : n.Alike n') : Match Alike Alike (send m n) (send m n') := by
  refine send_match h h.noting fun line hpeer => ?_
  rcases h with h | h
  · exact .inl (h.onLine line)
  · exact .inr (h.onLine hpeer)

/-- A step that leaves the phase on changes nothing that is noted. -/
theorem setPhase_alike {phase : Phase} (hphase : phase ≠ .on) (h : n.Alike n') :
    Match Alike Alike (setPhase phase n) (setPhase phase n') := by
  rcases h with ⟨notes, rfl, hid, hcaps⟩ | ⟨notes, rfl, -, hids⟩
  · exact .ok (.inl ⟨notes, rfl, hid, hcaps⟩)
  · exact .ok (.inr ⟨notes, rfl, hphase, hids⟩)

theorem activate_alike (v : Version) (h : n.Alike n') :
    Match Alike Alike (activate v n) (activate v n') := by
  rw [activate, bind_of_ok (connection_apply n), bind_of_ok (connection_apply n'), h.opening]
  apply (ofExcept_match _ h).bind
  intro o n₁ n₁' h₁
  exact (send_alike _ h₁).bind fun _ _ _ h₂ => setPhase_alike (by decide) h₂

theorem advertise_twin (v : Version) (h : n.Twin n') :
    Match Twin Twin (advertise v n) (advertise v n') := by
  rw [advertise_eq, advertise_eq, h.alike.phase, h.alike.mode, h.composer, h.exported]
  obtain ⟨notes, rfl, hid, hcaps⟩ := h
  have hadvertised : (n.noting notes).conn.advertised = n.conn.advertised := rfl
  have hsent (frames : List Bytes) : (n.noting notes).conn.sendAll frames = _ :=
    n.conn.sendAll_noting notes frames
  rw [hadvertised]
  by_cases hidle : n.conn.phase ≠ .on ∨ ¬n.conn.mode.isSpeaker = true
  · rw [if_pos hidle, if_pos hidle]
    exact .ok ⟨notes, rfl, hid, hcaps⟩
  · rw [if_neg hidle, if_neg hidle]
    dsimp only
    cases (n.conn.composer v).frames (difference n.conn.advertised (exported n.conn n.db)).1
      (difference n.conn.advertised (exported n.conn n.db)).2 with
    | error f => exact .error ⟨notes, rfl, hid, hcaps⟩
    | ok frames =>
      dsimp only
      obtain ⟨-, -, line, -, -, hline, -⟩ := Connection.sendAll_extends frames n.conn
      rw [hsent, hline]
      generalize n.conn.sendAll frames = sent at hline ⊢
      obtain ⟨result, c⟩ := sent
      obtain rfl : c = { n.conn with line } := hline
      cases result with
      | error f => exact .error ⟨notes, rfl, hid, hcaps⟩
      | ok _ => exact .ok ⟨notes, rfl, hid, hcaps⟩

/-- An export does nothing unless the connection is on. -/
theorem advertise_alike (v : Version) (h : n.Alike n') :
    Match Alike Alike (advertise v n) (advertise v n') := by
  rcases h with h | ⟨notes, rfl, hoff, hids⟩
  · exact (advertise_twin v h).mono Twin.alike Twin.alike
  · rw [advertise_eq, advertise_eq, if_pos (.inl hoff), if_pos (.inl hoff)]
    exact .ok (.inr ⟨notes, rfl, hoff, hids⟩)

theorem turnOn_twin (h : n.Twin n') : Match Twin Twin (turnOn n) (turnOn n') := by
  have hon : Twin { n with conn.phase := .on } { n' with conn.phase := .on } := by
    obtain ⟨notes, rfl, hid, hcaps⟩ := h
    exact ⟨notes, rfl, hid, hcaps⟩
  rw [turnOn_eq, turnOn_eq, h.alike.mode, h.alike.version]
  by_cases hspeaker : n.conn.mode.isSpeaker = true
  · rw [if_pos hspeaker, if_pos hspeaker, discard_eq]
    exact (advertise_twin n.conn.version hon).bind fun _ _ _ h => .ok h
  · rw [if_neg hspeaker, if_neg hspeaker]
    exact .ok hon

/-- Once an opening has been accepted it does not matter what was noted before. -/
theorem accept_alike (o : Opening) (h : n.Alike n') :
    Match Twin Alike (accept o n) (accept o n') := by
  rw [accept_eq, accept_eq, h.mode, h.version]
  split
  · exact .error h
  · cases o.granted (min n.conn.version o.version) with
    | error f =>
      dsimp only
      rcases h with ⟨notes, rfl, hid, hcaps⟩ | ⟨notes, rfl, hoff, hids⟩
      · exact .error (.inl ⟨notes, rfl, hid, hcaps⟩)
      · exact .error (.inr ⟨notes, rfl, hoff, hids⟩)
    | ok list =>
      dsimp only
      obtain ⟨notes, rfl⟩ := h.noting
      have hmet : (n.noting notes).conn.met o list = (n.conn.met o list).noting
          { notes with
            remoteNodeId := o.nodeId? <|> n.conn.line.peer.addr4?, capabilities := list } := rfl
      rw [hmet]
      rcases (n.conn.met o list).timed_noting _ o with ⟨f, hf, hf'⟩ | ⟨c', notes', hc, hc', hid,
        hcaps, hid', hcaps'⟩
      · rw [hf, hf']
        exact .error (.inl ⟨_, rfl, rfl, rfl⟩)
      · rw [hc, hc']
        exact .ok ⟨notes', rfl, hid'.trans hid.symm, hcaps'.trans hcaps.symm⟩

/-- Nodes that take updates are on. -/
theorem checkListening_alike (h : n.Alike n') :
    Match Twin Alike (checkListening n) (checkListening n') := by
  rw [checkListening_eq, checkListening_eq, h.phase, h.mode]
  split
  · exact .error h
  · next hlistening => exact .ok (h.twin (by simpa using (not_or.1 hlistening).1))

theorem learn_twin (c : Changes) (h : n.Twin n') :
    Match Twin Twin (learn c n) (learn c n') := by
  rw [learn_eq, learn_eq, h.remoteId, h.alike.db, h.alike.localId]
  cases n.db.deleteFrom n.conn.remoteId c.delete with
  | error cause => exact .error h
  | ok r =>
    dsimp only
    cases r.2.add (c.add.filter fun b => !b.path.contains n.conn.localId) with
    | error cause => exact .error (h.onDatabase r.2)
    | ok r' => exact .ok (h.onDatabase r'.2)

end Session

/-- Nothing is deleted of a peer from which nothing was learned. -/
theorem Database.purge_of_none {db : Database} {peer : NodeId}
    (h : ∀ b ∈ db.bindings, b.learnedFrom ≠ some peer) : db.purge peer = .ok ([], db) := by
  have hnone : db.learnedFrom peer = [] := by
    rw [learnedFrom, List.filter_eq_nil_iff.2 fun b hb => by simpa using h b hb]
    rfl
  rw [purge, hnone]
  rfl

namespace Session

open Node (Twin Stranger Alike)

variable {n n' : Node}

/-- A listener that is not on confuses the ids whenever it could purge. -/
theorem purge_alike (h : n.Alike n') (hlistener : n.conn.mode.isListener = true) :
    Match Alike Alike (purge n) (purge n') := by
  rw [purge_eq, purge_eq, h.db]
  rcases h with h | ⟨notes, rfl, hoff, hids⟩
  · rw [h.remoteId]
    cases n.db.purge n.conn.remoteId with
    | error cause => exact .error h.alike
    | ok r => exact .ok (h.onDatabase r.2).alike
  · rcases hids hlistener with hsame | ⟨hnone, hnone'⟩
    · rw [← hsame]
      cases n.db.purge n.conn.remoteId with
      | error cause => exact .error (.inr ⟨notes, rfl, hoff, hids⟩)
      | ok r => exact .ok (.inr ⟨notes, rfl, hoff, fun _ => .inl hsame⟩)
    · rw [Database.purge_of_none fun b hb heq => hnone ⟨b, hb, heq⟩,
        Database.purge_of_none fun b hb heq => hnone' ⟨b, hb, heq⟩]
      exact .ok (.inr ⟨notes, rfl, hoff, hids⟩)

theorem deactivate_alike (h : n.Alike n') :
    Match Alike Alike (deactivate n) (deactivate n') := by
  rw [deactivate_eq, deactivate_eq, h.db, h.phase, h.mode]
  rcases h with h | ⟨notes, rfl, hoff, hids⟩
  · rw [h.remoteId]
    obtain ⟨notes, rfl, hid, hcaps⟩ := h
    dsimp only
    split
    · cases n.db.purge n.conn.remoteId with
      | error cause => exact .error (.inl ⟨notes, rfl, hid, hcaps⟩)
      | ok r => exact .ok (.inl ⟨notes, rfl, hid, hcaps⟩)
    · exact .ok (.inl ⟨notes, rfl, hid, hcaps⟩)
  · dsimp only
    rw [if_neg fun hon => hoff hon.1, if_neg fun hon => hoff hon.1]
    exact .ok (.inr ⟨notes, rfl, nofun, hids⟩)

/-- The reply to an opening that has been accepted. -/
theorem reply_twin (h : n.Twin n') :
    Match Twin Twin ((connection >>= fun conn => ofExcept (conn.opening conn.version) >>=
      fun o => send (.reply o)) n) ((connection >>= fun conn =>
        ofExcept (conn.opening conn.version) >>= fun o => send (.reply o)) n') := by
  rw [bind_of_ok (connection_apply n), bind_of_ok (connection_apply n'), h.alike.version,
    h.alike.opening]
  exact (ofExcept_match _ h).bind fun o _ _ h => send_twin _ h

/-- What is read of an update depends on no notes but the id of the peer. -/
theorem listening_alike {reading : Session Changes} (h : n.Alike n')
    (hreading : ∀ n n', Node.Twin n n' → Match Twin Twin (reading n) (reading n')) :
    Match Alike Alike ((checkListening >>= fun _ => reading >>= learn) n)
      ((checkListening >>= fun _ => reading >>= learn) n') := by
  apply (checkListening_alike h).bind
  intro _ n₁ n₁' h₁
  refine Match.mono ((hreading n₁ n₁' h₁).bind fun c _ _ h₂ => learn_twin c h₂) Twin.alike
    Twin.alike

theorem receive_alike (now : Instant) (m : Message) (h : n.Alike n') :
    Match Alike Alike (receive now m n) (receive now m n') := by
  cases m with
  | opening o =>
    rw [receive_opening]
    have hreplied := (accept_alike o h).bind fun _ _ _ h₁ => (reply_twin h₁).mono id Twin.alike
    exact hreplied.bind fun _ _ _ h₂ => (turnOn_twin h₂).mono Twin.alike Twin.alike
  | reply o =>
    exact (accept_alike o h).bind fun _ _ _ h => (turnOn_twin h).mono Twin.alike Twin.alike
  | update attributes =>
    exact listening_alike h fun n n' h => ofExcept_match _ h
  | legacyUpdate v records =>
    rw [receive_legacyUpdate]
    refine listening_alike h fun n n' h => ?_
    rw [legacyChanges, bind_of_ok (connection_apply n), bind_of_ok (connection_apply n'),
      h.remoteId]
    exact .ok h
  | error notice => exact .error h
  | purgeAll =>
    rw [receive_purgeAll_eq, receive_purgeAll_eq, h.mode]
    split
    · next hlistener => exact purge_alike h hlistener
    · exact .ok h
  | keepalive =>
    rcases h with ⟨notes, rfl, hid, hcaps⟩ | ⟨notes, rfl, hoff, hids⟩
    · exact .ok (.inl ⟨{ notes with lastKeepalive := some now }, rfl, hid, hcaps⟩)
    · exact .ok (.inr ⟨{ notes with lastKeepalive := some now }, rfl, hoff, hids⟩)

theorem shutDown_alike (v : Version) (f : Fault) (h : n.Alike n') :
    Node.Alike { n with conn := n.conn.shutDown v f } { n' with conn := n'.conn.shutDown v f } := by
  have hremote (m : Node) := (shutDown_keeps v f m.conn).2
  obtain ⟨frames, line, -, hshut, -⟩ := Connection.shutDown_extends v f n.conn
  rcases h with ⟨notes, rfl, hid, hcaps⟩ | ⟨notes, rfl, -, hids⟩
  · refine .inl ⟨notes, ?_, ?_, ?_⟩
    · exact congrArg (fun conn => (⟨conn, n.db⟩ : Node)) (n.conn.shutDown_noting notes v f)
    · rw [hshut]
      exact hid
    · rw [hshut]
      exact hcaps
  · refine .inr ⟨notes, ?_, ?_, fun hlistener => ?_⟩
    · exact congrArg (fun conn => (⟨conn, n.db⟩ : Node)) (n.conn.shutDown_noting notes v f)
    · rw [hshut]
      nofun
    · have hmode : n.conn.mode.isListener = true := by
        rw [← (shutDown_keeps v f n.conn).1]
        exact hlistener
      have hids := hids hmode
      rw [← hremote n, ← hremote (n.noting notes)] at hids
      exact hids

theorem hear_alike (now : Instant) (frame : Bytes) (h : n.Alike n') :
    Match Alike Alike (hear now frame n) (hear now frame n') := by
  have hversion := h.version
  cases hread : Message.ofFrame n.conn.version frame with
  | error f =>
    rw [hear_of_unread hread, hear_of_unread (hversion ▸ hread), hversion]
    exact .error (shutDown_alike _ f h)
  | ok m =>
    rw [hear_of_read hread, hear_of_read (hversion ▸ hread)]
    have hreceive := receive_alike now m h
    generalize receive now m n = x at hreceive
    generalize receive now m n' = x' at hreceive
    cases hreceive with
    | ok h₁ => exact .ok h₁
    | @error f n₁ n₁' h₁ =>
      dsimp only
      rw [h₁.version]
      exact .error (shutDown_alike _ f h₁)

end Session

end TagExchange
