import TagExchange.Proofs.Session.Hearing

/-!
# What a listener forgets when the transport goes away

A listener forgets its peer only when the transport goes away while the connection is on. A
connection that has left this phase before, because of a fault, a refused deletion or because it was
opened again, keeps what it learned, and a later end of the transport does not make up for it
(`Node.holds_iff_lapsed`).

Bindings come in only while the connection is on. So what is held while it is off was held when it
was last on, and the event that came next let it lapse.
-/

namespace TagExchange

/-- What can happen on a connection, and what its store may decide. -/
inductive Event where
  | activate (v : Version)
  | frame (now : Instant) (bs : Bytes)
  | exception (v : Version) (f : Fault)
  | deactivate
  | advertise (v : Version)
  | refuse (writes reads : Bool)

namespace Event

def session : Event → Session Unit
  | activate v => Session.activate v
  | frame now bs => Session.hear now bs
  | exception v f => Session.shutDown v f
  | deactivate => Session.deactivate
  | advertise v => discard (Session.advertise v)
  | refuse writes reads =>
    modify fun n => { n with db := { n.db with store := n.db.store.refuse writes reads } }

end Event

namespace Node

/-- The node after some events, each taken as far as it gets. -/
def after (n : Node) (events : List Event) : Node :=
  events.foldl (fun n e => e.session.outcome n) n

/-- Something in the database was learned from the given node. -/
def Holds (n : Node) (peer : NodeId) : Prop := ∃ b ∈ n.db.bindings, b.learnedFrom = some peer

theorem after_append (n : Node) (es es' : List Event) :
    n.after (es ++ es') = (n.after es).after es' := by
  rw [after, after, after, List.foldl_append]

theorem after_concat (n : Node) (es : List Event) (e : Event) :
    n.after (es ++ [e]) = e.session.outcome (n.after es) := by
  rw [after_append]
  rfl

theorem Narrows.holds {n n' : Node} (h : n.Narrows n') {peer : NodeId} (hheld : n'.Holds peer) :
    n.Holds peer := by
  obtain ⟨b, hb, hpeer⟩ := hheld
  exact ⟨b, h.bindings b hb, hpeer⟩

end Node

/-- An event takes a connection that is on out of this phase and leaves what was learned from the
peer: a frame that is a fault, an exception, a new opening, or an end of the transport in which the
deletion is refused or that is taken for the end of another peer. -/
def Event.Lapses (peer : NodeId) (n : Node) : Event → Prop
  | frame now bs => ∃ f n', Session.hear now bs n = .error f n'
  | exception _ _ => True
  | activate v => ∃ n', Session.activate v n = .ok () n'
  | deactivate => (∃ f n', Session.deactivate n = .error f n') ∨ n.conn.remoteId ≠ peer
  | advertise _ | refuse _ _ => False

namespace Session

/-- The connection is off afterwards. A listener that was on purges. -/
theorem deactivate_eq (n : Node) : deactivate n =
    let quiet : Node := { n with conn := { n.conn with advertised := ∅, phase := .off } }
    if n.conn.phase = .on ∧ n.conn.mode.isListener then
      match n.db.purge n.conn.remoteId with
      | .ok (_, db) => .ok () { quiet with db }
      | .error cause => .error (.store cause) quiet
    else .ok () quiet := by
  rw [deactivate, bind_of_ok (connection_apply n), bind_of_ok (modifyConnection_apply _ n)]
  dsimp only
  split
  · exact purge_eq _
  · rfl

theorem deactivate_narrows : Keeps Node.Narrows deactivate := by
  apply (Keeps.connection Node.Narrows.refl).narrows_bind
  intro conn
  have hquiet : Keeps Node.Narrows
      (modifyConnection fun c => { c with advertised := ∅, phase := .off }) :=
    Keeps.modifyConnection fun n => ⟨rfl, id, fun _ => id⟩
  apply hquiet.narrows_bind
  intro _
  split
  · exact purge_narrows
  · exact Keeps.pure Node.Narrows.refl ()

theorem deactivate_off {n n' : Node} (h : deactivate n = .ok () n') (hoff : n.conn.phase ≠ .on) :
    n'.db = n.db ∧ n'.conn.remoteId = n.conn.remoteId := by
  rw [deactivate_eq] at h
  dsimp only at h
  rw [if_neg fun hon => hoff hon.1] at h
  cases h
  exact ⟨rfl, rfl⟩

theorem deactivate_on {n n' : Node} (h : deactivate n = .ok () n') (hon : n.conn.phase = .on)
    (hlistener : n.conn.mode.isListener = true) (hfiled : n.db.table.Filed) :
    ¬ n'.Holds n.conn.remoteId ∧ n'.conn.remoteId = n.conn.remoteId := by
  rw [deactivate_eq] at h
  dsimp only at h
  rw [if_pos ⟨hon, hlistener⟩] at h
  split at h
  · next purged db hpurge =>
    cases h
    refine ⟨?_, rfl⟩
    rintro ⟨b, hb, hpeer⟩
    exact ((Database.mem_purge hpurge hfiled).1 hb).2 hpeer
  · cases h

/-- Opening says something first and changes the phase only when that went out. -/
theorem activate_error {v : Version} {n n' : Node} {f : Fault}
    (h : activate v n = .error f n') : n.Stays n' := by
  have hsaid : Keeps Node.Stays (do
      let opening ← ofExcept ((← connection).opening v)
      send (.opening opening)) := by
    apply (Keeps.connection Node.Stays.refl).stays_bind
    intro conn
    apply (Keeps.ofExcept Node.Stays.refl _).stays_bind
    intro opening
    exact send_stays _
  have hsplit : activate v = (do
      let opening ← ofExcept ((← connection).opening v)
      send (.opening opening)) >>= fun _ => setPhase .pendingOn := by
    simp only [activate, bind_assoc]
  rw [hsplit] at h
  cases hs : (do
      let opening ← ofExcept ((← connection).opening v)
      send (.opening opening) : Session Unit) n with
  | ok a n₁ =>
    rw [bind_of_ok hs] at h
    cases h
  | error e n₁ =>
    rw [bind_of_error hs] at h
    cases h
    exact hsaid.of_error hs

theorem activate_narrows (v : Version) : Keeps Node.Narrows (activate v) := by
  apply (Keeps.connection Node.Narrows.refl).narrows_bind
  intro conn
  apply (Keeps.ofExcept Node.Narrows.refl _).narrows_bind
  intro opening
  apply ((send_stays _).mono Node.Stays.narrows).narrows_bind
  intro _
  exact Keeps.modifyConnection fun n => ⟨rfl, id, fun _ => id⟩

end Session

namespace Event

open Session

/-- Bindings come in only while the connection is on, and it is on afterwards. -/
theorem outcome_narrows_or (e : Event) (n : Node) :
    n.Narrows (e.session.outcome n) ∨ (n.Steady (e.session.outcome n) ∧
      n.conn.phase = .on ∧ (e.session.outcome n).conn.phase = .on) := by
  cases e with
  | activate v => exact .inl (activate_narrows v n)
  | frame now bs =>
    show n.Narrows ((hear now bs).outcome n) ∨ (n.Steady ((hear now bs).outcome n) ∧
      n.conn.phase = .on ∧ ((hear now bs).outcome n).conn.phase = .on)
    cases h : hear now bs n with
    | ok _ n' =>
      rw [outcome_of_ok h]
      rcases hear_ok h with ⟨hnarrows, -⟩ | hlearned
      · exact .inl hnarrows
      · exact .inr hlearned
    | error f n' =>
      rw [outcome_of_error h]
      exact .inl (hear_error h).1
  | exception v f => exact .inl (shutDown_narrows v f n)
  | deactivate => exact .inl (deactivate_narrows n)
  | advertise v => exact .inl (((advertise_stays v).mono Node.Stays.narrows).discard n)
  | refuse writes reads => exact .inl ⟨rfl, id, fun _ => id⟩

/-- A connection that leaves its phase with something learned from the peer has let it lapse. -/
theorem lapses_of_leaves {e : Event} {n : Node} {peer : NodeId}
    (hlistener : n.conn.mode.isListener = true) (hfiled : n.db.table.Filed)
    (hon : n.conn.phase = .on) (hoff : (e.session.outcome n).conn.phase ≠ .on)
    (hheld : (e.session.outcome n).Holds peer) : e.Lapses peer n := by
  cases e with
  | activate v =>
    cases h : Session.activate v n with
    | ok _ n' => exact ⟨n', h⟩
    | error f n' =>
      have hphase := (activate_error h).phase
      rw [session, outcome_of_error h, hphase] at hoff
      exact absurd hon hoff
  | frame now bs =>
    cases h : hear now bs n with
    | ok _ n' =>
      rw [session, outcome_of_ok h] at hoff
      rcases hear_ok h with ⟨-, hstays⟩ | ⟨-, -, hstays⟩
      · exact absurd (hstays hon) hoff
      · exact absurd hstays hoff
    | error f n' => exact ⟨f, n', h⟩
  | exception v f => trivial
  | deactivate =>
    cases h : Session.deactivate n with
    | ok _ n' =>
      rw [session, outcome_of_ok h] at hheld
      obtain ⟨hgone, -⟩ := deactivate_on h hon hlistener hfiled
      refine .inr fun hpeer => ?_
      rw [hpeer] at hgone
      exact hgone hheld
    | error f n' => exact .inl ⟨f, n', h⟩
  | advertise v =>
    have hphase := ((advertise_stays v).discard n).phase
    exact hoff (hphase.trans hon)
  | refuse writes reads => exact hoff hon

end Event

namespace Node

theorem after_steady (n : Node) (es : List Event) : n.Steady (n.after es) := by
  induction es using List.reverseRecOn with
  | nil => exact Steady.refl n
  | append_singleton es e ih =>
    rw [after_concat]
    apply ih.trans
    rcases e.outcome_narrows_or (n.after es) with h | ⟨h, -, -⟩
    · exact h.steady
    · exact h

/-- What is held while the connection is off has lapsed since it was last on. -/
theorem lapsed_of_holds {n : Node} {peer : NodeId} (hlistener : n.conn.mode.isListener = true)
    (hfiled : n.db.table.Filed) (hnone : ¬ n.Holds peer) (es : List Event)
    (hoff : (n.after es).conn.phase ≠ .on) (hheld : (n.after es).Holds peer) :
    ∃ es₁ e es₂, es = es₁ ++ e :: es₂ ∧ (n.after es₁).conn.phase = .on ∧
      e.Lapses peer (n.after es₁) ∧
      ∀ es₃, es₃ <+: es₂ → (n.after (es₁ ++ e :: es₃)).conn.phase ≠ .on := by
  induction es using List.reverseRecOn with
  | nil => exact absurd hheld hnone
  | append_singleton es e ih =>
    rw [after_concat] at hoff hheld
    have hsteady := after_steady n es
    by_cases hon : (n.after es).conn.phase = .on
    · refine ⟨es, e, [], rfl, hon, ?_, ?_⟩
      · exact Event.lapses_of_leaves (hsteady.mode ▸ hlistener) (hsteady.filed hfiled) hon hoff
          hheld
      · intro es₃ hprefix
        rw [List.prefix_nil.1 hprefix, after_concat]
        exact hoff
    · have hnarrows : (n.after es).Narrows (e.session.outcome (n.after es)) := by
        rcases e.outcome_narrows_or (n.after es) with h | ⟨-, h, -⟩
        · exact h
        · exact absurd h hon
      obtain ⟨es₁, e₁, es₂, hes, hon₁, hlapses, hsince⟩ := ih hon (hnarrows.holds hheld)
      refine ⟨es₁, e₁, es₂ ++ [e], by rw [hes]; simp, hon₁, hlapses, ?_⟩
      intro es₃ hprefix
      rcases List.prefix_concat_iff.1 hprefix with rfl | hprefix
      · have hlast : es₁ ++ e₁ :: (es₂ ++ [e]) = es ++ [e] := by rw [hes]; simp
        rw [hlast, after_concat]
        exact hoff
      · exact hsince es₃ hprefix

/-- When the transport goes away in the end and this is no fault, something learned from the peer
remains exactly when it was held up to then and had lapsed: at some point the connection was on, the
next event let it lapse, and it has not been on since. -/
theorem holds_iff_lapsed {n n' : Node} (hlistener : n.conn.mode.isListener = true)
    (hfiled : n.db.table.Filed) (es : List Event)
    (hend : Session.deactivate (n.after es) = .ok () n') (hnone : ¬ n.Holds n'.conn.remoteId) :
    n'.Holds n'.conn.remoteId ↔ (n.after es).Holds n'.conn.remoteId ∧
      ∃ es₁ e es₂, es = es₁ ++ e :: es₂ ∧ (n.after es₁).conn.phase = .on ∧
        e.Lapses n'.conn.remoteId (n.after es₁) ∧
        ∀ es₃, es₃ <+: es₂ → (n.after (es₁ ++ e :: es₃)).conn.phase ≠ .on := by
  have hsteady := after_steady n es
  constructor
  · intro hheld
    have hoff : (n.after es).conn.phase ≠ .on := by
      intro hon
      obtain ⟨hgone, hpeer⟩ := Session.deactivate_on hend hon (hsteady.mode ▸ hlistener)
        (hsteady.filed hfiled)
      exact hgone (hpeer ▸ hheld)
    have hbefore := (Session.deactivate_narrows.of_ok hend).holds hheld
    exact ⟨hbefore, lapsed_of_holds hlistener hfiled hnone es hoff hbefore⟩
  · rintro ⟨hheld, es₁, e, es₂, rfl, -, -, hsince⟩
    have hoff := hsince es₂ (List.prefix_refl es₂)
    obtain ⟨hdb, -⟩ := Session.deactivate_off hend hoff
    obtain ⟨b, hb, hpeer⟩ := hheld
    exact ⟨b, hdb ▸ hb, hpeer⟩

/-- The settings of a listener for a speaker, with the version to offer. -/
def speakerPeer (v : Version) : PeerConfig :=
  ⟨"speaker", ⟨.v4 0x0A000002, 64999, 0⟩, .listener, v⟩

/-- An empty line to the speaker. -/
def speakerLine : Line := { peer := ⟨.v4 0x0A000002, 64999, 0⟩ }

/-- A listener that has just been given its connection. -/
def offering (v : Version) : Node := ⟨.of speakerLine 1 (speakerPeer v) {}, {}⟩

def listener : Node := offering .v1

def speakerReply : Message := .reply ⟨.v1, .speaker, []⟩

def speakerUpdate : Message :=
  .legacyUpdate .v1 [⟨.addIpv4, .v4 ⟨0x0A000005, 32⟩, some Message.plainTag⟩]

def replyFrame : Bytes := [0, 0, 0, 16, 0, 0, 0, 2, 0, 0, 0, 1, 0, 0, 0, 1]

def updateFrame : Bytes :=
  [0, 0, 0, 30, 0, 0, 0, 3, 0, 0, 0, 1, 0, 0, 0, 14, 10, 0, 0, 5, 0, 0, 0, 1, 0, 0, 0, 2, 0, 100]

def purgeFrame : Bytes := [0, 0, 0, 8, 0, 0, 0, 5]

/-- A session in which the peer announces one binding and then sends something that is no frame. -/
def brokenOff : List Event :=
  [.activate .v1, .frame ⟨10, 0⟩ replyFrame, .frame ⟨20, 0⟩ updateFrame, .frame ⟨30, 0⟩ [0]]

theorem replyFrame_read (v : Version) : Message.ofFrame v replyFrame = .ok speakerReply :=
  Message.ofFrame_of_frame (m := speakerReply) ⟨fun _ => rfl, by simp⟩ rfl

theorem updateFrame_read : Message.ofFrame .v1 updateFrame = .ok speakerUpdate := by
  have hwell : speakerUpdate.WellFormed .v1 := by
    refine ⟨rfl, rfl, ?_⟩
    intro r hr
    obtain rfl := List.mem_singleton.1 hr
    exact ⟨.inl rfl, by simp, fun _ => rfl⟩
  exact Message.ofFrame_of_frame hwell rfl

theorem purgeFrame_read (v : Version) : Message.ofFrame v purgeFrame = .ok .purgeAll :=
  Message.ofFrame_of_frame (m := .purgeAll) trivial rfl

/-- The first two frames are acted on, and the binding is filed. -/
theorem listener_learns : ∃ n₁, Session.receive ⟨10, 0⟩ speakerReply
      (listener.after [.activate .v1]) = .ok () n₁ ∧ n₁.conn.version = .v1 ∧
    ∃ n₂, Session.receive ⟨20, 0⟩ speakerUpdate n₁ = .ok () n₂ ∧
      n₂.Holds n₂.conn.remoteId := by
  refine ⟨_, rfl, rfl, _, rfl, ?_⟩
  unfold Holds
  decide +kernel

/-- The last frame shuts the connection down, and the binding stays. -/
theorem brokenOff_leaves : (listener.after brokenOff).conn.phase = .off ∧
    (listener.after brokenOff).Holds (listener.after brokenOff).conn.remoteId := by
  obtain ⟨n₁, h₁, hversion, n₂, h₂, hheld⟩ := listener_learns
  have hreply :
      (Session.hear ⟨10, 0⟩ replyFrame).outcome (listener.after [.activate .v1]) = n₁ := by
    apply Session.outcome_of_ok
    rw [Session.hear_of_read (replyFrame_read _), h₁]
  have hupdate : (Session.hear ⟨20, 0⟩ updateFrame).outcome n₁ = n₂ := by
    apply Session.outcome_of_ok
    rw [Session.hear_of_read (hversion ▸ updateFrame_read), h₂]
  have hcut : (Session.hear ⟨30, 0⟩ [0]).outcome n₂ =
      { n₂ with conn := n₂.conn.shutDown n₂.conn.version (.headerCut 1) } := by
    apply Session.outcome_of_error
    rw [Session.hear, Session.understand_eq]
    rfl
  have hafter : listener.after brokenOff =
      { n₂ with conn := n₂.conn.shutDown n₂.conn.version (.headerCut 1) } := by
    rw [← hcut, ← hupdate, ← hreply]
    rfl
  have hremote := (Session.shutDown_keeps n₂.conn.version (.headerCut 1) n₂.conn).2
  rw [hafter]
  refine ⟨rfl, ?_⟩
  dsimp only
  rw [hremote]
  exact hheld

theorem listener_end : ∃ n', Session.deactivate (listener.after brokenOff) = .ok () n' ∧
    n'.db = (listener.after brokenOff).db ∧
    n'.conn.remoteId = (listener.after brokenOff).conn.remoteId := by
  have hoff : (listener.after brokenOff).conn.phase ≠ .on := by
    rw [brokenOff_leaves.1]
    decide
  have hend := Session.deactivate_eq (listener.after brokenOff)
  dsimp only at hend
  rw [if_neg fun hon => hoff hon.1] at hend
  exact ⟨_, hend, rfl, rfl⟩

theorem listener_holds_nothing (peer : NodeId) : ¬ listener.Holds peer := by
  rintro ⟨b, hb, -⟩
  have hnone : listener.db.bindings = [] := rfl
  rw [hnone] at hb
  cases hb

theorem holds_iff_lapsed_brokenOff : listener.conn.mode.isListener = true ∧
    listener.db.table.Filed ∧ ∃ n', Session.deactivate (listener.after brokenOff) = .ok () n' ∧
      ¬ listener.Holds n'.conn.remoteId ∧
      ∃ es₁ e es₂, brokenOff = es₁ ++ e :: es₂ ∧ (listener.after es₁).conn.phase = .on ∧
        e.Lapses n'.conn.remoteId (listener.after es₁) := by
  obtain ⟨n', hend, hdb, hremote⟩ := listener_end
  have hheld : n'.Holds n'.conn.remoteId := by
    obtain ⟨b, hb, hpeer⟩ := brokenOff_leaves.2
    exact ⟨b, hdb ▸ hb, hremote ▸ hpeer⟩
  have hnone := listener_holds_nothing n'.conn.remoteId
  have hiff := holds_iff_lapsed (n := listener) rfl Table.Filed.empty brokenOff hend hnone
  obtain ⟨-, es₁, e, es₂, hes, hon, hlapses, -⟩ := hiff.1 hheld
  exact ⟨rfl, Table.Filed.empty, n', hend, hnone, es₁, e, es₂, hes, hon, hlapses⟩

/-- The transport goes away without a fault, and the peer is not forgotten. -/
theorem brokenOff_not_forgotten : listener.conn.mode.isListener = true ∧
    ∃ n', Session.deactivate (listener.after brokenOff) = .ok () n' ∧
      ¬ listener.Holds n'.conn.remoteId ∧ n'.Holds n'.conn.remoteId := by
  obtain ⟨n', hend, hdb, hremote⟩ := listener_end
  obtain ⟨b, hb, hpeer⟩ := brokenOff_leaves.2
  exact ⟨rfl, n', hend, listener_holds_nothing _, b, hdb ▸ hb, hremote ▸ hpeer⟩

end Node

end TagExchange
