import TagExchange.Proofs.Session.Attribution
import TagExchange.Proofs.Session.Exports

/-!
# What a connection that was shut down still takes

A fault takes a connection off and closes its line. Frames that are already behind the one at fault
are handled all the same, and two kinds of them make a difference: a reply to an opening turns the
connection on again, unless it is a speaker that has something to tell, and a purge takes away what
was learned from the peer (`Message.Rouses`). Everything else leaves the phase and the database as
they are, so that both stay as the fault left them exactly as long as none of the two kinds comes
(`Node.rests_iff_not_roused`).
-/

namespace TagExchange

theorem Line.send_closed {l : Line} (h : l.closed = true) (frame : Bytes) :
    l.send frame = .error .channelClosed := by
  rw [Line.send, if_pos h]

theorem Connection.send_closed {c : Connection} (h : c.line.closed = true) (m : Message) :
    ∃ f, c.send m = .error f := by
  rw [send]
  cases m.frame with
  | error f => exact ⟨f, rfl⟩
  | ok frame =>
    refine ⟨.channelClosed, ?_⟩
    show (do return { c with line := ← c.line.send frame } : Except Fault Connection) = _
    rw [Line.send_closed h]
    rfl

theorem Composer.frames_eq_nil {compose : Composer} {delete add : List Binding}
    (h : compose.frames delete add = .ok []) : delete = [] ∧ add = [] := by
  obtain ⟨parts, rfl, rfl, hcarries⟩ := frames_parts h
  cases hcarries
  exact ⟨rfl, rfl⟩

namespace Session

/-- A speaker that has something to tell fails on a closed line. -/
theorem advertise_closed {v : Version} {n : Node} (hphase : n.conn.phase = .on)
    (hmode : n.conn.mode.isSpeaker = true) (hclosed : n.conn.line.closed = true)
    (hnews : difference n.conn.advertised (exported n.conn n.db) ≠ ([], [])) :
    ∃ f, advertise v n = .error f n := by
  rw [advertise_eq, if_neg (by simp [hphase, hmode])]
  dsimp only
  split
  · next f _ => exact ⟨f, rfl⟩
  · next frames hframes =>
    cases frames with
    | nil =>
      obtain ⟨hdelete, hadd⟩ := Composer.frames_eq_nil hframes
      exact absurd (Prod.ext hdelete hadd) hnews
    | cons frame rest =>
      have hsent : n.conn.sendAll (frame :: rest) = (.error .channelClosed, n.conn) := by
        rw [Connection.sendAll, Line.send_closed hclosed]
      rw [hsent]
      exact ⟨_, rfl⟩

end Session

/-- The connection is off and sends nothing. -/
structure Connection.Down (c : Connection) : Prop where
  phase : c.phase = .off
  closed : c.line.closed = true

/-- The messages that make a difference to a node whose connection is down: a reply that is
accepted, by a speaker only when it has nothing to tell, and a purge of something that the store
lets go. -/
def Message.Rouses (n : Node) : Message → Prop
  | reply o => ∃ n', Session.accept o n = .ok () n' ∧ (n.conn.mode.isSpeaker = true →
      Session.difference n'.conn.advertised (Session.exported n'.conn n'.db) = ([], []))
  | purgeAll => n.conn.mode.isListener = true ∧
      ∃ b purged db, n.db.purge n.conn.remoteId = .ok (b :: purged, db)
  | _ => False

namespace Node

/-- A frame is read as a message that makes a difference. -/
def RousedBy (n : Node) (frame : Bytes) : Prop :=
  ∃ m, Message.ofFrame n.conn.version frame = .ok m ∧ m.Rouses n

/-- The connection is off and the database is as it was. -/
structure Rests (n n' : Node) : Prop where
  phase : n'.conn.phase = .off
  db : n'.db = n.db

end Node

namespace Session

variable {now : Instant} {n : Node}

/-- A step that is a fault and has not touched the database. -/
def Fails (s : Session Unit) (n : Node) : Prop := ∃ f n', s n = .error f n' ∧ n'.db = n.db

/-- A step that is none and leaves an off connection behind a closed line. -/
def Passes (s : Session Unit) (n : Node) : Prop :=
  ∃ n', s n = .ok () n' ∧ n'.conn.line.closed = true ∧ n.Rests n'

/-- A step that is no fault and makes a difference. -/
def Wakes (s : Session Unit) (n : Node) : Prop :=
  ∃ n', s n = .ok () n' ∧ n'.conn.line.closed = true ∧ ¬ n.Rests n'

/-- The line is closed, so that the reply cannot be sent. -/
theorem receive_opening_down (hdown : n.conn.Down) (o : Opening) :
    (receive now (.opening o)).Fails n := by
  have haccept := accept_outcome o n
  obtain ⟨version, capabilities, remoteNodeId, holdTime, keepaliveTime, houtcome, -⟩ := haccept
  cases h : accept o n with
  | error f n₁ =>
    rw [outcome_of_error h] at houtcome
    exact ⟨f, n₁, bind_of_error h, houtcome ▸ rfl⟩
  | ok u n₁ =>
    rw [outcome_of_ok h] at houtcome
    have hclosed : n₁.conn.line.closed = true := houtcome ▸ hdown.closed
    have hdb : n₁.db = n.db := houtcome ▸ rfl
    have hrest : receive now (.opening o) n = (do
        send (.reply (← ofExcept (n₁.conn.opening n₁.conn.version)))
        turnOn : Session Unit) n₁ := by
      rw [receive, bind_of_ok h, bind_of_ok (connection_apply n₁)]
    cases hopening : n₁.conn.opening n₁.conn.version with
    | error f =>
      rw [hopening] at hrest
      exact ⟨f, n₁, hrest, hdb⟩
    | ok reply =>
      obtain ⟨f, hrefused⟩ := Connection.send_closed hclosed (.reply reply)
      have hsend : send (.reply reply) n₁ = .error f n₁ := onConnection_of_error hrefused
      rw [hopening, bind_of_ok (ofExcept_ok reply n₁), bind_of_error hsend] at hrest
      exact ⟨f, n₁, hrest, hdb⟩

/-- A reply that is accepted turns the connection on, and a speaker then has to be able to do
without its line. -/
theorem receive_reply_down (hdown : n.conn.Down) (o : Opening) :
    (Message.Rouses n (.reply o) → (receive now (.reply o)).Wakes n) ∧
      (¬ Message.Rouses n (.reply o) → (receive now (.reply o)).Fails n) := by
  obtain ⟨version, capabilities, remoteNodeId, holdTime, keepaliveTime, houtcome, -⟩ :=
    accept_outcome o n
  cases h : accept o n with
  | error f n₁ =>
    rw [outcome_of_error h] at houtcome
    refine ⟨?_, fun _ => ⟨f, n₁, bind_of_error h, houtcome ▸ rfl⟩⟩
    rintro ⟨n', haccept, -⟩
    rw [h] at haccept
    cases haccept
  | ok u n₁ =>
    rw [outcome_of_ok h] at houtcome
    have hclosed : n₁.conn.line.closed = true := houtcome ▸ hdown.closed
    have hdb : n₁.db = n.db := houtcome ▸ rfl
    have hmode : n₁.conn.mode = n.conn.mode := houtcome ▸ rfl
    have hrest : receive now (.reply o) n = turnOn n₁ := bind_of_ok h
    rw [turnOn_eq, hmode] at hrest
    have hquiet : Message.Rouses n (.reply o) ↔ (n.conn.mode.isSpeaker = true →
        difference n₁.conn.advertised (exported n₁.conn n₁.db) = ([], [])) := by
      constructor
      · rintro ⟨n', haccept, hquiet⟩
        rw [h] at haccept
        cases haccept
        exact hquiet
      · exact fun hquiet => ⟨n₁, h, hquiet⟩
    have hon {n' : Node} (hn' : n'.conn.phase = .on) : ¬ n.Rests n' := by
      intro hrests
      rw [hrests.phase] at hn'
      cases hn'
    by_cases hspeaker : n.conn.mode.isSpeaker = true
    · rw [if_pos hspeaker, discard_eq] at hrest
      by_cases hnone : difference n₁.conn.advertised (exported n₁.conn n₁.db) = ([], [])
      · have hidle := advertise_idle (v := n₁.conn.version) (n := { n₁ with conn.phase := .on }) rfl
          (hmode ▸ hspeaker) hnone
        rw [bind_of_ok hidle] at hrest
        exact ⟨fun _ => ⟨_, hrest, hclosed, hon rfl⟩,
          fun hnot => absurd (hquiet.2 fun _ => hnone) hnot⟩
      · obtain ⟨f, hfails⟩ := advertise_closed (v := n₁.conn.version)
          (n := { n₁ with conn.phase := .on }) rfl (hmode ▸ hspeaker) hclosed hnone
        rw [bind_of_error hfails] at hrest
        exact ⟨fun hrouses => absurd (hquiet.1 hrouses hspeaker) hnone,
          fun _ => ⟨f, _, hrest, hdb⟩⟩
    · rw [if_neg hspeaker] at hrest
      exact ⟨fun _ => ⟨_, hrest, hclosed, hon rfl⟩,
        fun hnot => absurd (hquiet.2 fun h => absurd h hspeaker) hnot⟩

theorem receive_purgeAll_down (hdown : n.conn.Down) :
    (Message.Rouses n .purgeAll → (receive now .purgeAll).Wakes n) ∧
      (¬ Message.Rouses n .purgeAll →
        (receive now .purgeAll).Fails n ∨ (receive now .purgeAll).Passes n) := by
  have hreceive := receive_purgeAll_eq now n
  by_cases hlistener : n.conn.mode.isListener = true
  · rw [if_pos hlistener, purge_eq] at hreceive
    cases hpurge : n.db.purge n.conn.remoteId with
    | error cause =>
      rw [hpurge] at hreceive
      refine ⟨?_, fun _ => .inl ⟨_, n, hreceive, rfl⟩⟩
      rintro ⟨-, b, purged, db, htaken⟩
      rw [hpurge] at htaken
      cases htaken
    | ok r =>
      obtain ⟨purged, db⟩ := r
      rw [hpurge] at hreceive
      obtain ⟨hsame, hraised⟩ := Database.deleteWhere_changes hpurge
      cases purged with
      | nil =>
        refine ⟨?_, fun _ => .inr ⟨_, hreceive, hdown.closed, hdown.phase, hsame rfl⟩⟩
        rintro ⟨-, b, purged, db, htaken⟩
        rw [hpurge] at htaken
        cases htaken
      | cons b purged =>
        refine ⟨fun _ => ⟨_, hreceive, hdown.closed, ?_⟩, fun hnot => ?_⟩
        · intro hrests
          have hgeneration := congrArg Database.generation hrests.db
          rw [hraised (List.cons_ne_nil b purged)] at hgeneration
          exact absurd (UInt64.add_eq_left.1 hgeneration) (by decide)
        · exact absurd ⟨hlistener, b, purged, db, hpurge⟩ hnot
  · rw [if_neg hlistener] at hreceive
    exact ⟨fun hrouses => absurd hrouses.1 hlistener,
      fun _ => .inr ⟨n, hreceive, hdown.closed, hdown.phase, rfl⟩⟩

/-- A message makes a difference to a connection that is down exactly when it rouses the node. -/
theorem receive_down (hdown : n.conn.Down) (now : Instant) (m : Message) :
    (m.Rouses n → (receive now m).Wakes n) ∧
      (¬ m.Rouses n → (receive now m).Fails n ∨ (receive now m).Passes n) := by
  have hcheck := checkListening_eq n
  rw [if_pos (.inl (by simp [hdown.phase]))] at hcheck
  cases m with
  | opening o => exact ⟨nofun, fun _ => .inl (receive_opening_down hdown o)⟩
  | reply o =>
    obtain ⟨hwakes, hfails⟩ := receive_reply_down hdown o
    exact ⟨hwakes, fun h => .inl (hfails h)⟩
  | update attributes => exact ⟨nofun, fun _ => .inl ⟨_, n, bind_of_error hcheck, rfl⟩⟩
  | legacyUpdate version records =>
    exact ⟨nofun, fun _ => .inl ⟨_, n, bind_of_error hcheck, rfl⟩⟩
  | error notice => exact ⟨nofun, fun _ => .inl ⟨_, n, rfl, rfl⟩⟩
  | purgeAll => exact receive_purgeAll_down hdown
  | keepalive => exact ⟨nofun, fun _ => .inr ⟨_, rfl, hdown.closed, hdown.phase, rfl⟩⟩

/-- The line stays closed, and the node is at rest after a frame unless that roused it. -/
theorem hear_down (hdown : n.conn.Down) (now : Instant) (frame : Bytes) :
    ((hear now frame).outcome n).conn.line.closed = true ∧
      (n.Rests ((hear now frame).outcome n) ↔ ¬ n.RousedBy frame) := by
  cases hread : Message.ofFrame n.conn.version frame with
  | error f =>
    have hnot : ¬ n.RousedBy frame := by
      rintro ⟨m, hm, -⟩
      rw [hread] at hm
      cases hm
    rw [outcome_of_error (hear_of_unread hread)]
    exact ⟨rfl, iff_of_true ⟨rfl, rfl⟩ hnot⟩
  | ok m =>
    have hhear : hear now frame n = _ := hear_of_read hread
    have hroused : n.RousedBy frame ↔ m.Rouses n := by
      constructor
      · rintro ⟨m', hm', hrouses⟩
        rw [hread] at hm'
        cases hm'
        exact hrouses
      · exact fun hrouses => ⟨m, hread, hrouses⟩
    obtain ⟨hwakes, hrests⟩ := receive_down hdown now m
    rw [hroused]
    by_cases hm : m.Rouses n
    · obtain ⟨n', hreceive, hclosed, hnot⟩ := hwakes hm
      rw [hreceive] at hhear
      rw [outcome_of_ok hhear]
      exact ⟨hclosed, iff_of_false hnot (not_not.2 hm)⟩
    · rcases hrests hm with ⟨f, n', hreceive, hdb⟩ | ⟨n', hreceive, hclosed, hn'⟩
      · rw [hreceive] at hhear
        rw [outcome_of_error hhear]
        exact ⟨rfl, iff_of_true ⟨rfl, hdb⟩ hm⟩
      · rw [hreceive] at hhear
        rw [outcome_of_ok hhear]
        exact ⟨hclosed, iff_of_true hn' hm⟩

/-- A fault shuts the connection down. -/
theorem hear_error_down {frame : Bytes} {n' : Node} {f : Fault}
    (h : hear now frame n = .error f n') : n'.conn.Down := by
  rw [hear] at h
  split at h
  · cases h
  · cases h
    exact ⟨rfl, rfl⟩

end Session

namespace Node

/-- The node after some frames, each handled at its time. -/
def hears (n : Node) (readings : List (Instant × Bytes)) : Node :=
  n.after (readings.map fun r => .frame r.1 r.2)

theorem hears_concat (n : Node) (readings : List (Instant × Bytes)) (r : Instant × Bytes) :
    n.hears (readings ++ [r]) = (Session.hear r.1 r.2).outcome (n.hears readings) := by
  rw [hears, List.map_append, List.map_singleton, after_concat]
  rfl

theorem Rests.trans {n₁ n₂ n₃ : Node} (h : n₁.Rests n₂) (h' : n₂.Rests n₃) : n₁.Rests n₃ :=
  ⟨h'.phase, h'.db.trans h.db⟩

/-- Some frame rouses the node when it is handled. -/
def Roused (n : Node) (readings : List (Instant × Bytes)) : Prop :=
  ∃ front r back, readings = front ++ r :: back ∧ (n.hears front).RousedBy r.2

theorem not_roused_nil (n : Node) : ¬ n.Roused [] := by
  rintro ⟨front, r, back, hsplit, -⟩
  simp at hsplit

theorem roused_concat (n : Node) (readings : List (Instant × Bytes)) (r : Instant × Bytes) :
    n.Roused (readings ++ [r]) ↔ (n.hears readings).RousedBy r.2 ∨ n.Roused readings :=
  exists_split_concat

theorem down_of_rests {n : Node} (hdown : n.conn.Down) (readings : List (Instant × Bytes))
    (h : ∀ front, front <+: readings → n.Rests (n.hears front)) :
    (n.hears readings).conn.Down := by
  induction readings using List.reverseRecOn with
  | nil => exact hdown
  | append_singleton readings r ih =>
    have hbefore := ih fun front hfront => h front (hfront.trans (List.prefix_append _ _))
    refine ⟨(h _ (List.prefix_refl _)).phase, ?_⟩
    rw [hears_concat]
    exact (Session.hear_down hbefore r.1 r.2).1

/-- From a node that is down. -/
theorem rests_iff_of_down {n : Node} (hdown : n.conn.Down) (readings : List (Instant × Bytes)) :
    (∀ front, front <+: readings → n.Rests (n.hears front)) ↔ ¬ n.Roused readings := by
  induction readings using List.reverseRecOn with
  | nil =>
    refine iff_of_true (fun front hfront => ?_) (not_roused_nil n)
    rw [List.prefix_nil.1 hfront]
    exact ⟨hdown.phase, rfl⟩
  | append_singleton readings r ih =>
    have hstep (hbefore : ∀ front, front <+: readings → n.Rests (n.hears front)) :
        n.Rests (n.hears (readings ++ [r])) ↔ ¬ (n.hears readings).RousedBy r.2 := by
      rw [hears_concat, ← (Session.hear_down (down_of_rests hdown readings hbefore) r.1 r.2).2]
      have hnow := hbefore readings (List.prefix_refl _)
      exact ⟨fun h => ⟨h.phase, h.db.trans hnow.db.symm⟩, hnow.trans⟩
    rw [roused_concat, not_or, ← ih]
    constructor
    · intro h
      have hbefore (front) (hfront : front <+: readings) : n.Rests (n.hears front) :=
        h front (hfront.trans (List.prefix_append _ _))
      exact ⟨(hstep hbefore).1 (h _ (List.prefix_refl _)), hbefore⟩
    · rintro ⟨hlast, hbefore⟩ front hfront
      rcases List.prefix_concat_iff.1 hfront with rfl | hfront
      · exact (hstep hbefore).2 hlast
      · exact hbefore front hfront

/-- When a frame was a fault, the connection stays off and the database as the fault left it, over
any further frames, exactly as long as none of them is, at its turn, a reply that is accepted (by a
speaker: with nothing to tell) or a purge of something learned from the peer. -/
theorem rests_iff_not_roused {n₀ n : Node} {now : Instant} {frame : Bytes} {f : Fault}
    (hfault : Session.hear now frame n₀ = .error f n) (readings : List (Instant × Bytes)) :
    (∀ front, front <+: readings → n.Rests (n.hears front)) ↔ ¬ n.Roused readings :=
  rests_iff_of_down (Session.hear_error_down hfault) readings

/-- The listener has been opened and has then heard something that is no frame. -/
def broken : Node :=
  let n := listener.after [.activate .v1]
  { n with conn := n.conn.shutDown n.conn.version (.headerCut 1) }

theorem broken_of_fault :
    Session.hear ⟨10, 0⟩ [0] (listener.after [.activate .v1]) = .error (.headerCut 1) broken :=
  Session.hear_of_unread rfl

/-- An update leaves the node at rest. -/
theorem rests_iff_not_roused_update :
    Session.hear ⟨10, 0⟩ [0] (listener.after [.activate .v1]) = .error (.headerCut 1) broken ∧
      ∀ front, front <+: [(⟨20, 0⟩, updateFrame)] → broken.Rests (broken.hears front) := by
  refine ⟨broken_of_fault, (rests_iff_not_roused broken_of_fault _).2 fun hroused => ?_⟩
  rcases (roused_concat _ [] _).1 hroused with ⟨m, hread, hrouses⟩ | hroused
  · have hupdate : Message.ofFrame (broken.hears []).conn.version updateFrame =
        .ok speakerUpdate := updateFrame_read
    rw [hupdate] at hread
    cases hread
    exact hrouses
  · exact not_roused_nil _ hroused

/-- The reply is accepted and the update learned. -/
theorem broken_learns : ∃ n₁ n₂, Session.receive ⟨20, 0⟩ speakerReply broken = .ok () n₁ ∧
    Session.receive ⟨30, 0⟩ speakerUpdate n₁ = .ok () n₂ ∧ n₁.conn.version = .v1 ∧
    n₁.conn.phase = .on ∧ n₂.db.generation = broken.db.generation + 1 := by
  refine ⟨_, _, rfl, rfl, rfl, rfl, ?_⟩
  decide +kernel

/-- A reply turns the connection on again, and an update behind it changes the database. -/
theorem broken_revives : Session.hear ⟨10, 0⟩ [0] (listener.after [.activate .v1]) =
      .error (.headerCut 1) broken ∧ broken.conn.phase = .off ∧
    (broken.hears [(⟨20, 0⟩, replyFrame)]).conn.phase = .on ∧
    (broken.hears [(⟨20, 0⟩, replyFrame), (⟨30, 0⟩, updateFrame)]).db ≠ broken.db := by
  obtain ⟨n₁, n₂, hreply, hupdate, hversion, hon, hgeneration⟩ := broken_learns
  have hfirst : (Session.hear ⟨20, 0⟩ replyFrame).outcome broken = n₁ := by
    apply Session.outcome_of_ok
    rw [Session.hear_of_read (replyFrame_read _), hreply]
  have hsecond : (Session.hear ⟨30, 0⟩ updateFrame).outcome n₁ = n₂ := by
    apply Session.outcome_of_ok
    rw [Session.hear_of_read (hversion ▸ updateFrame_read), hupdate]
  have h₁ : broken.hears [(⟨20, 0⟩, replyFrame)] = n₁ := hfirst
  have h₂ : broken.hears [(⟨20, 0⟩, replyFrame), (⟨30, 0⟩, updateFrame)] = n₂ := by
    rw [← hsecond, ← hfirst]
    rfl
  rw [h₁, h₂]
  refine ⟨broken_of_fault, rfl, hon, ?_⟩
  intro hsame
  rw [hsame] at hgeneration
  exact absurd (UInt64.left_eq_add.1 hgeneration) (by decide)

end Node

end TagExchange
