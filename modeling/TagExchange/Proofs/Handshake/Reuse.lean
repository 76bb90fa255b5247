import TagExchange.Proofs.Handshake.Joining
import TagExchange.Proofs.Session.Reviving
import TagExchange.Proofs.Session.Twins

/-!
# Using a connection again

When the transport has gone away without a fault, a connection can be used again on another line. It
still has the mode, the id and the settings that it was made with, and it has forgotten what it
advertised. But it keeps the version that it agreed on with the peer, and the id that the peer gave.
So it behaves like a connection made afresh exactly when that version is the one that it offered at
first, and a listener cannot purge the wrong bindings (`Node.reuse_iff`).
-/

namespace TagExchange

/-- What can be done with a connection, under the version in effect, and what its store may
decide. -/
inductive Connection.Use where
  | activate
  | frame (now : Instant) (bs : Bytes)
  | advertise
  | exception (f : Fault)
  | deactivate
  | refuse (writes reads : Bool)

namespace Connection.Use

/-- The number is that of the frames of an export. -/
def session : Use → Session Nat
  | activate => do
    Session.activate (← Session.connection).version
    return 0
  | frame now bs => do
    Session.hear now bs
    return 0
  | advertise => do Session.advertise (← Session.connection).version
  | exception f => do
    Session.shutDown (← Session.connection).version f
    return 0
  | deactivate => do
    Session.deactivate
    return 0
  | refuse writes reads => do
    modify fun n => { n with db := { n.db with store := n.db.store.refuse writes reads } }
    return 0

end Connection.Use

/-- What can be seen of a use: its result, the line and the database. -/
structure Sight where
  result : Except Fault Nat
  line : Line
  db : Database

def Session.sight (s : Session Nat) (n : Node) : Sight :=
  match s n with
  | .ok k n' => ⟨.ok k, n'.conn.line, n'.db⟩
  | .error f n' => ⟨.error f, n'.conn.line, n'.db⟩

open Connection (Use)

namespace Node

/-- What is seen of one use after the other. -/
def sights (n : Node) : List Use → List Sight
  | [] => []
  | u :: uses => u.session.sight n :: (u.session.outcome n).sights uses

variable {n n' : Node}

open Session in
theorem Alike.use (h : n.Alike n') (u : Use) :
    Match Alike Alike (u.session n) (u.session n') := by
  have hpure {α : Type} (x : α) (n n' : Node) (h : n.Alike n') :
      Match Alike Alike (.ok x n) (.ok x n') := .ok h
  cases u with
  | activate =>
    show Match Alike Alike ((activate n.conn.version >>= fun _ => pure 0) n)
      ((activate n'.conn.version >>= fun _ => pure 0) n')
    rw [h.version]
    exact (activate_alike _ h).bind fun _ => hpure 0
  | frame now bs => exact (hear_alike now bs h).bind fun _ => hpure 0
  | advertise =>
    show Match Alike Alike (advertise n.conn.version n) (advertise n'.conn.version n')
    rw [h.version]
    exact advertise_alike _ h
  | exception f =>
    have hshut := shutDown_alike n.conn.version f h
    show Match Alike Alike (.ok 0 { n with conn := n.conn.shutDown n.conn.version f })
      (.ok 0 { n' with conn := n'.conn.shutDown n'.conn.version f })
    rw [h.version]
    exact .ok hshut
  | deactivate => exact (deactivate_alike h).bind fun _ => hpure 0
  | refuse writes reads =>
    rcases h with ⟨notes, rfl, hid, hcaps⟩ | ⟨notes, rfl, hoff, hids⟩
    · exact .ok (.inl ⟨notes, rfl, hid, hcaps⟩)
    · exact .ok (.inr ⟨notes, rfl, hoff, hids⟩)

theorem Alike.sights (h : n.Alike n') (uses : List Use) : n.sights uses = n'.sights uses := by
  induction uses generalizing n n' with
  | nil => rfl
  | cons u uses ih =>
    have hmatch := h.use u
    have hstep : u.session.sight n = u.session.sight n' ∧
        (u.session.outcome n).Alike (u.session.outcome n') := by
      rw [Session.sight, Session.sight, Session.outcome, Session.outcome]
      generalize u.session n = x at hmatch
      generalize u.session n' = x' at hmatch
      cases hmatch with
      | ok h => exact ⟨by simp only [h.line, h.db], h⟩
      | error h => exact ⟨by simp only [h.line, h.db], h⟩
    rw [Node.sights, Node.sights, hstep.1, ih hstep.2]

end Node

namespace Connection

theorem eq_v4_of_opening_error {c : Connection} {v : Version} {f : Fault}
    (h : c.opening v = .error f) : v = .v4 := by
  cases v with
  | v1 | v2 | v3 => cases h
  | v4 => rfl

end Connection

namespace Node

variable {n n' : Node}

open Session in
/-- The opening goes out, or what is the matter with the settings comes back. -/
theorem sights_activate (hfree : n.conn.line.Free) :
    (∃ o frame, n.conn.opening n.conn.version = .ok o ∧ (Message.opening o).frame = .ok frame ∧
      n.sights [.activate] =
        [⟨.ok 0, { n.conn.line with sent := n.conn.line.sent ++ [frame] }, n.db⟩]) ∨
    ∃ f, n.conn.opening n.conn.version = .error f ∧
      n.sights [.activate] = [⟨.error f, n.conn.line, n.db⟩] := by
  have huse : Use.activate.session n =
      (Session.activate n.conn.version >>= fun _ => pure 0) n := rfl
  cases ho : n.conn.opening n.conn.version with
  | ok o =>
    obtain ⟨frame, hframe, hrun⟩ := activate_of_opening hfree ho
    refine .inl ⟨o, frame, rfl, hframe, ?_⟩
    rw [sights, sights, sight, huse, bind_of_ok hrun]
    rfl
  | error f =>
    have hrun : Session.activate n.conn.version n = .error f n := by
      rw [Session.activate, bind_of_ok (connection_apply n), ho]
      rfl
    refine .inr ⟨f, rfl, ?_⟩
    rw [sights, sights, sight, huse, bind_of_error hrun]

/-- Nodes whose openings are seen alike are of one version. -/
theorem version_of_sights (h : n.sights [.activate] = n'.sights [.activate])
    (hline : n'.conn.line = n.conn.line) (hfree : n.conn.line.Free) :
    n.conn.version = n'.conn.version := by
  rcases sights_activate hfree with ⟨o, frame, ho, hframe, hseen⟩ | ⟨f, hf, hseen⟩ <;>
    rcases sights_activate (hline ▸ hfree : n'.conn.line.Free) with
      ⟨o', frame', ho', hframe', hseen'⟩ | ⟨f', hf', hseen'⟩ <;>
    rw [hseen, hseen', hline] at h
  · obtain ⟨rfl, -⟩ : frame = frame' ∧ n.db = n'.db := by simpa using h
    have hread (v : Version) : Message.ofFrame v frame = .ok (.opening o) :=
      Message.ofFrame_of_frame (m := .opening o) (Connection.opening_wellFormed ho) hframe
    have hread' : Message.ofFrame n.conn.version frame = .ok (.opening o') :=
      Message.ofFrame_of_frame (m := .opening o') (Connection.opening_wellFormed ho') hframe'
    rw [hread] at hread'
    cases hread'
    rw [← Connection.opening_version ho, ← Connection.opening_version ho']
  · simp at h
  · simp at h
  · rw [Connection.eq_v4_of_opening_error hf, Connection.eq_v4_of_opening_error hf']

/-- The node when its store refuses nothing any more. -/
def accepting (n : Node) : Node :=
  { n with db := { n.db with store := n.db.store.refuse false false } }

theorem accepts_accepting (n : Node) : n.accepting.db.store.Accepts := by
  rw [accepting]
  cases n.db.store <;> trivial

/-- A purge that the store does not refuse. -/
def purging : List Use := [.refuse false false, .frame ⟨0, 0⟩ purgeFrame]

open Session in
/-- The purge takes away what was learned from the peer. -/
theorem sights_purging (hlistener : n.conn.mode.isListener = true) (hfiled : n.db.table.Filed) :
    ∃ first last, n.sights purging = [first, last] ∧
      ∀ b, b ∈ last.db.bindings ↔ b ∈ n.db.bindings ∧ b.learnedFrom ≠ some n.conn.remoteId := by
  obtain ⟨purged, db, hdelete, -⟩ := Database.deleteWhere_of_accepts n.accepts_accepting
    (fun b => b.learnedFrom == some n.conn.remoteId) (n.db.learnedFrom n.conn.remoteId)
  have hpurge : n.accepting.db.purge n.accepting.conn.remoteId = .ok (purged, db) := hdelete
  have hhear : hear ⟨0, 0⟩ purgeFrame n.accepting = .ok () { n.accepting with db } := by
    rw [hear_of_read (purgeFrame_read _), receive_purgeAll (n := n.accepting) _ hlistener,
      purge_eq, hpurge]
  have hfirst : (Use.refuse false false).session n = .ok 0 n.accepting := rfl
  have hlast : (Use.frame ⟨0, 0⟩ purgeFrame).session n.accepting =
      .ok 0 { n.accepting with db } := bind_of_ok hhear
  refine ⟨⟨.ok 0, n.conn.line, n.accepting.db⟩, ⟨.ok 0, n.conn.line, db⟩, ?_,
    fun b => Database.mem_purge hpurge hfiled⟩
  rw [purging, sights, sights, sights, outcome_of_ok hfirst, sight, sight, hlast]
  rfl

/-- A listener whose purge is seen alike confuses the ids. -/
theorem confuses_of_sights (h : n.sights purging = n'.sights purging)
    (hmode : n'.conn.mode = n.conn.mode) (hdb : n'.db = n.db)
    (hlistener : n.conn.mode.isListener = true) (hfiled : n.db.table.Filed) :
    n.Confuses n.conn.remoteId n'.conn.remoteId := by
  obtain ⟨_, last, hseen, hleft⟩ := sights_purging hlistener hfiled
  obtain ⟨_, last', hseen', hleft'⟩ :=
    sights_purging (n := n') (hmode ▸ hlistener) (hdb ▸ hfiled)
  rw [hseen, hseen'] at h
  rw [hdb] at hleft'
  obtain ⟨-, rfl⟩ : _ ∧ last = last' := by simpa using h
  have hboth (b : Binding) (hb : b ∈ n.db.bindings) :
      b.learnedFrom ≠ some n.conn.remoteId ↔ b.learnedFrom ≠ some n'.conn.remoteId := by
    have hiff := (hleft b).symm.trans (hleft' b)
    simpa [hb] using hiff
  by_cases hsame : n.conn.remoteId = n'.conn.remoteId
  · exact .inl hsame
  · refine .inr ⟨?_, ?_⟩
    · rintro ⟨b, hb, hpeer⟩
      exact (hboth b hb).2 (by simp [hpeer, hsame]) hpeer
    · rintro ⟨b, hb, hpeer⟩
      exact (hboth b hb).1 (by simpa [hpeer] using Ne.symm hsame) hpeer

end Node

/-- Whatever happens, a connection stays between the same two nodes. -/
theorem Event.outcome_same (e : Event) (n : Node) : n.conn.Same (e.session.outcome n).conn := by
  have hupholds : n.Upholds (fun _ => True) (fun _ => True) (e.session.outcome n) := by
    cases e with
    | activate v => exact Session.activate_upholds trivial n
    | frame now bs =>
      refine Session.hear_upholds fun m _ => ?_
      cases m <;> simp [Message.Credible]
    | exception v f => exact Session.shutDown_upholds v f n
    | deactivate => exact Session.deactivate_upholds n
    | advertise v => exact (Session.advertise_upholds v).discard n
    | refuse writes reads => exact ⟨.refl _, fun h => ⟨h.version, h.bindings, h.sent⟩⟩
  exact hupholds.same

namespace Node

variable {n n' : Node}

theorem after_same (n : Node) (es : List Event) : n.conn.Same (n.after es).conn := by
  induction es using List.reverseRecOn with
  | nil => exact .refl _
  | append_singleton es e ih =>
    rw [after_concat]
    exact ih.trans (e.outcome_same _)

/-- What the end of the transport leaves of a connection. -/
theorem conn_of_deactivate (h : Session.deactivate n = .ok () n') :
    n'.conn = { n.conn with advertised := ∅, phase := .off } := by
  rw [Session.deactivate_eq] at h
  dsimp only at h
  split at h
  · split at h
    · cases h
      rfl
    · cases h
  · cases h
    rfl

/-- The node with its connection on another line. -/
def onLine (n : Node) (line : Line) : Node := { n with conn := { n.conn with line } }

/-- The node after its connection has been on one line after the other, with some events on each. -/
def afterLines (n : Node) (lines : List (Line × List Event)) : Node :=
  lines.foldl (fun n l => (n.onLine l.1).after l.2) n

theorem afterLines_concat (n : Node) (lines : List (Line × List Event)) (line : Line)
    (es : List Event) :
    n.afterLines (lines ++ [(line, es)]) = ((n.afterLines lines).onLine line).after es := by
  rw [afterLines, List.foldl_append]
  rfl

theorem afterLines_same (n : Node) (lines : List (Line × List Event)) :
    n.conn.Same (n.afterLines lines).conn := by
  induction lines using List.reverseRecOn with
  | nil => exact .refl _
  | append_singleton lines l ih =>
    rw [afterLines_concat]
    have hevents := after_same ((n.afterLines lines).onLine l.1) l.2
    exact ih.trans ⟨hevents.localId, hevents.mode, hevents.config⟩

theorem afterLines_filed (hfiled : n.db.table.Filed) (lines : List (Line × List Event)) :
    (n.afterLines lines).db.table.Filed := by
  induction lines using List.reverseRecOn with
  | nil => exact hfiled
  | append_singleton lines l ih =>
    rw [afterLines_concat]
    exact (after_steady ((n.afterLines lines).onLine l.1) l.2).filed ih

/-- The node with a connection made afresh. -/
def renewed (n : Node) (line : Line) (id : NodeId) (peer : PeerConfig) (config : NodeConfig) :
    Node :=
  { n with conn := .of line id peer config }

variable {line line' : Line} {id : NodeId} {peer : PeerConfig} {config : NodeConfig}
  {db : Database} {lines : List (Line × List Event)}

/-- A connection of the first version is a fresh one but for what it notes. -/
theorem exists_noting
    (hend : Session.deactivate (afterLines ⟨.of line id peer config, db⟩ lines) = .ok () n')
    (hversion : n'.conn.version = min peer.version config.version) :
    ∃ notes, n'.onLine line' = (n'.renewed line' id peer config).noting notes := by
  have hsame := afterLines_same ⟨.of line id peer config, db⟩ lines
  have hconn := conn_of_deactivate hend
  refine ⟨⟨n'.conn.remoteNodeId, n'.conn.capabilities, n'.conn.holdTime, n'.conn.keepaliveTime,
    n'.conn.lastKeepalive⟩, ?_⟩
  have hmode : n'.conn.mode = peer.mode := by rw [hconn]; exact hsame.mode
  have hid : n'.conn.localId = id := by rw [hconn]; exact hsame.localId
  have hconfig : n'.conn.config = config := by rw [hconn]; exact hsame.config
  have hphase : n'.conn.phase = .off := by rw [hconn]
  have hadvertised : n'.conn.advertised = ∅ := by rw [hconn]
  rw [onLine, renewed, noting, Connection.noting, Connection.of]
  simp only [hversion, hmode, hid, hconfig, hphase, hadvertised]

/-- A connection that is used again is seen like one made afresh, whatever is done with it, exactly
when the version that it agreed on is the one that it offered, and a listener confuses the id that
it noted with the one it would take from the address: they are the same, or nothing has been learned
from either. -/
theorem reuse_iff (hfiled : db.table.Filed)
    (hend : Session.deactivate (afterLines ⟨.of line id peer config, db⟩ lines) = .ok () n')
    (hfree : line'.Free) :
    (∀ uses, (n'.onLine line').sights uses = (n'.renewed line' id peer config).sights uses) ↔
      n'.conn.version = min peer.version config.version ∧
      (peer.mode.isListener = true → n'.Confuses (n'.renewed line' id peer config).conn.remoteId
        (n'.onLine line').conn.remoteId) := by
  have hmode : n'.conn.mode = peer.mode := by
    rw [conn_of_deactivate hend]
    exact (afterLines_same ⟨.of line id peer config, db⟩ lines).mode
  have hfiled' : n'.db.table.Filed :=
    (Session.deactivate_narrows.of_ok hend).filed (afterLines_filed hfiled lines)
  constructor
  · intro h
    refine ⟨version_of_sights (h [.activate]) rfl hfree, fun hlistener => ?_⟩
    exact confuses_of_sights (h purging).symm hmode rfl hlistener hfiled'
  · rintro ⟨hversion, hids⟩ uses
    obtain ⟨notes, hnotes⟩ : ∃ notes, n'.onLine line' =
        (n'.renewed line' id peer config).noting notes := exists_noting hend hversion
    have halike : (n'.renewed line' id peer config).Alike (n'.onLine line') :=
      .inr ⟨notes, hnotes, nofun, hids⟩
    exact (halike.sights uses).symm

/-- A session in which the speaker replies under version 1. -/
def answered (v : Version) : List (Line × List Event) :=
  [(speakerLine, [.activate v, .frame ⟨10, 0⟩ replyFrame])]

/-- The reply is accepted, whatever was offered. -/
theorem answered_met (v : Version) : ((offering v).afterLines (answered v)).conn.version = .v1 ∧
    ((offering v).afterLines (answered v)).conn.remoteNodeId = some 0x0A000002 ∧
    ((offering v).afterLines (answered v)).db = {} := by
  obtain ⟨n, hreceive, hversion, hid, hdb⟩ : ∃ n, Session.receive ⟨10, 0⟩ speakerReply
      ((offering v).after [.activate v]) = .ok () n ∧ n.conn.version = .v1 ∧
      n.conn.remoteNodeId = some 0x0A000002 ∧ n.db = {} := by
    cases v <;> exact ⟨_, rfl, rfl, rfl, rfl⟩
  have hhear : Session.hear ⟨10, 0⟩ replyFrame ((offering v).after [.activate v]) = .ok () n := by
    rw [Session.hear_of_read (replyFrame_read _), hreceive]
  have hafter : (offering v).afterLines (answered v) = n := Session.outcome_of_ok hhear
  rw [hafter]
  exact ⟨hversion, hid, hdb⟩

/-- Nothing has been learned, so the end of the transport is no fault. -/
theorem answered_end (v : Version) : ∃ n',
    Session.deactivate ((offering v).afterLines (answered v)) = .ok () n' ∧ n'.conn.version = .v1 ∧
      n'.conn.remoteNodeId = some 0x0A000002 ∧ n'.db = {} := by
  obtain ⟨hversion, hid, hdb⟩ := answered_met v
  have hpurge (peer : NodeId) : ({} : Database).purge peer = .ok ([], {}) :=
    Database.purge_of_none fun b hb => by cases hb
  rw [Session.deactivate_eq, hdb]
  dsimp only
  split
  · rw [hpurge]
    exact ⟨_, rfl, hversion, hid, rfl⟩
  · exact ⟨_, rfl, hversion, hid, rfl⟩

/-- When version 1 was offered at first, nothing of the session is left. -/
theorem reuse_iff_answered : ({} : Database).table.Filed ∧ speakerLine.Free ∧
    ∃ n', Session.deactivate ((offering .v1).afterLines (answered .v1)) = .ok () n' ∧
      ∀ uses, (n'.onLine speakerLine).sights uses =
        (n'.renewed speakerLine 1 (speakerPeer .v1) {}).sights uses := by
  obtain ⟨n', hend, hversion, hid, -⟩ := answered_end .v1
  refine ⟨Table.Filed.empty, ⟨rfl, rfl⟩, n', hend, ?_⟩
  refine (reuse_iff Table.Filed.empty hend ⟨rfl, rfl⟩).2 ⟨hversion, fun _ => .inl ?_⟩
  show _ = (n'.conn.remoteNodeId <|> some 0x0A000002).getD 0
  rw [hid]
  rfl

/-- When version 4 was offered, the connection opens under version 1 the next time. -/
theorem answered_outlives : speakerLine.Free ∧
    ∃ n', Session.deactivate ((offering .v4).afterLines (answered .v4)) = .ok () n' ∧
      (n'.onLine speakerLine).sights [.activate] ≠
        (n'.renewed speakerLine 1 (speakerPeer .v4) {}).sights [.activate] := by
  obtain ⟨n', hend, hversion, -⟩ := answered_end .v4
  refine ⟨⟨rfl, rfl⟩, n', hend, fun h => ?_⟩
  have hsame := version_of_sights h rfl ⟨rfl, rfl⟩
  have hversion' : (n'.onLine speakerLine).conn.version = .v1 := hversion
  rw [hversion'] at hsame
  cases hsame

end Node

end TagExchange
