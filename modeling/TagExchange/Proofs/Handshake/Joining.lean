import TagExchange.Proofs.Session.Exports
import TagExchange.Proofs.Session.Utterances

/-!
# When a session joins

What the steps of a handshake do when nothing is in their way: the line takes every frame, the store
every write, and the next export encodes. An opening, or a reply to one, then turns the connection
on under the smaller of the two versions (`Session.hear_opening`, `Session.hear_reply`), and an
update for that version is learned (`Session.hear_update`).
-/

namespace TagExchange

namespace Version

theorem min_comm (a b : Version) : min a b = min b a := by
  cases a <;> cases b <;> rfl

theorem min_left_min (a b : Version) : min a (min a b) = min a b := by
  cases a <;> cases b <;> rfl

theorem min_min_right (a b : Version) : min (min a b) b = min a b := by
  cases a <;> cases b <;> rfl

@[simp] theorem min_self (a : Version) : min a a = a := by
  cases a <;> rfl

theorem right_of_min_eq_v4 {a b : Version} (h : min a b = .v4) : b = .v4 := by
  cases a <;> cases b <;> first | rfl | cases h

theorem eq_v4_of_not_isLegacy {v : Version} (h : ¬v.isLegacy = true) : v = .v4 := by
  cases v <;> first | rfl | exact absurd rfl h

end Version

/-- Speakers are paired with listeners. -/
theorem Mode.isListener_of_complements {m m' : Mode} (h : m.complements m' = true)
    (hm : m.isSpeaker = true) : m'.isListener = true := by
  revert h hm
  cases m <;> cases m' <;> decide

theorem Mode.complements_comm (m m' : Mode) : m.complements m' = m'.complements m := by
  cases m <;> cases m' <;> rfl

/-- A connection that nothing has happened on. -/
structure Connection.Fresh (c : Connection) : Prop where
  phase : c.phase = .off
  line : c.line = { peer := c.line.peer }

theorem Connection.fresh_of (endpoint : Endpoint) (id : NodeId) (peer : PeerConfig)
    (config : NodeConfig) : (Connection.of { peer := endpoint } id peer config).Fresh := ⟨rfl, rfl⟩

/-- A node that has just been given a connection to the peer with an id. -/
def Node.newcomer (id peer : NodeId) (mode : Mode) (config : NodeConfig) (db : Database) :
    Node where
  conn :=
    let endpoint : Endpoint := { address := .v4 peer, port := config.port }
    .of { peer := endpoint } id ⟨"", endpoint, mode, config.version⟩ config
  db

namespace Connection

/-- The hold time and the keepalive time. -/
def timers (c : Connection) : Nat × Nat := (c.holdTime, c.keepaliveTime)

/-- What a connection settles on depends on its mode and its settings only. -/
theorem timers_negotiate {c c' : Connection} (hmode : c'.mode = c.mode)
    (hconfig : c'.config = c.config) (offer : Option HoldTime) :
    (c'.negotiate offer).map timers = (c.negotiate offer).map timers := by
  cases offer with
  | none => rfl
  | some h =>
    rw [negotiate, negotiate, hmode, hconfig]
    split
    · rfl
    · split
      · dsimp only
        split
        · rfl
        · simp [Except.map, timers, setTimers, hconfig]
      · split
        · rfl
        · simp [Except.map, timers, setTimers, hconfig]

/-- The hold time that the other connection gives is valid, and this one can live with it. -/
def Accommodates (c d : Connection) : Prop :=
  ∃ range c', d.config.holdTime d.mode = .ok range ∧ c.negotiate (some range) = .ok c'

theorem Accommodates.same {c c' d : Connection} (h : c.Accommodates d) (hsame : c.Same c') :
    c'.Accommodates d := by
  obtain ⟨range, settled, hrange, hsettled⟩ := h
  have htimers := timers_negotiate hsame.mode hsame.config (some range)
  rw [hsettled] at htimers
  obtain ⟨settled', hsettled', -⟩ := Except.map_eq_ok.1 htimers
  exact ⟨range, settled', hrange, hsettled'⟩

theorem opening_of_holdTime {c : Connection} {range : HoldTime}
    (h : c.config.holdTime c.mode = .ok range) (v : Version) : ∃ o, c.opening v = .ok o := by
  cases v with
  | v1 | v2 | v3 => exact ⟨_, rfl⟩
  | v4 => exact ⟨.of .v4 c.mode c.localId (some range), by simp [opening, Version.isLegacy, h]; rfl⟩

end Connection

/-- A speaker's next export under a version encodes, once the peer is known by its id or its
address. -/
def Node.Encodes (v : Version) (peer : NodeId) (n : Node) : Prop :=
  n.conn.mode.isSpeaker = true →
    ∀ name, name = some peer ∨ name = n.conn.line.peer.addr4? →
      ∃ frames, Node.Exports v
        { n with conn.capabilities := Capability.ofVersion v, conn.remoteNodeId := name } frames

/-- The frame is an update of a connection between the same nodes, made for a version. -/
def Connection.Tells (v : Version) (c : Connection) (frame : Bytes) : Prop :=
  ∃ d part, c.Same d ∧ Composer.Carries (d.composer v) part frame

/-- The frame is the reply that a connection gives under a version. -/
def Connection.Replies (v : Version) (c : Connection) (frame : Bytes) : Prop :=
  ∃ o, c.opening v = .ok o ∧ (Message.reply o).frame = .ok frame

theorem Node.Exports.tells {v : Version} {n : Node} {frames : List Bytes}
    (h : n.Exports v frames) : ∀ frame ∈ frames, n.conn.Tells v frame := by
  intro frame hframe
  obtain ⟨part, hcarries, -⟩ := Composer.carries_of_mem_frames h hframe
  exact ⟨n.conn, part, .refl _, hcarries⟩

theorem Node.Exports.congr {v : Version} {n n' : Node} {frames : List Bytes}
    (h : n.Exports v frames) (hsame : n.conn.Same n'.conn)
    (hpeer : n'.conn.line.peer = n.conn.line.peer)
    (hname : n'.conn.remoteNodeId = n.conn.remoteNodeId)
    (hcapabilities : n'.conn.capabilities = n.conn.capabilities)
    (hadvertised : n'.conn.advertised = n.conn.advertised) (hdb : n'.db = n.db) :
    n'.Exports v frames := by
  have hback : n'.conn.holdsBack = n.conn.holdsBack := by
    funext b
    simp only [Connection.holdsBack, Connection.remoteId, hname, hpeer]
  rw [Node.Exports] at h ⊢
  simp only [Connection.composer, Session.exported, hback, hsame.localId, hsame.config,
    hcapabilities, hadvertised, hdb] at h ⊢
  exact h

namespace Session

variable {n : Node}

/-- A connection that turns on sends its first export, if it is a speaker. -/
theorem turnOn_of_exports (hfree : n.conn.line.Free)
    (h : n.conn.mode.isSpeaker = true → ∃ frames, n.Exports n.conn.version frames) :
    ∃ frames advertised, turnOn n = .ok () { n with
        conn.phase := .on
        conn.line.sent := n.conn.line.sent ++ frames
        conn.advertised := advertised } ∧
      ∀ frame ∈ frames, n.conn.mode.isSpeaker = true ∧ n.conn.Tells n.conn.version frame := by
  by_cases hmode : n.conn.mode.isSpeaker = true
  · obtain ⟨frames, hframes⟩ := h hmode
    have hrun := advertise_of_exports (n := { n with conn.phase := .on }) rfl hmode hfree hframes
    refine ⟨frames, exported n.conn n.db, ?_,
      fun frame hframe => ⟨hmode, hframes.tells frame hframe⟩⟩
    rw [turnOn_eq, if_pos hmode, discard_eq, bind_of_ok hrun]
    rfl
  · refine ⟨[], n.conn.advertised, ?_, by simp⟩
    rw [turnOn_eq, if_neg hmode, List.append_nil]

end Session

/-- A connection after it has accepted an opening of its peer for a version, and has sent some
frames. -/
structure Node.Met (v : Version) (peer : Connection) (frames : List Bytes) (n n' : Node) :
    Prop where
  same : n.conn.Same n'.conn
  line : n'.conn.line = { n.conn.line with sent := n.conn.line.sent ++ frames }
  version : n'.conn.version = v
  capabilities : n.conn.mode.isSpeaker = true → n'.conn.capabilities = Capability.ofVersion v
  name : n'.conn.remoteNodeId = some peer.localId ∨
    n'.conn.remoteNodeId = n.conn.line.peer.addr4?
  db : n'.db = n.db

/-- And has turned on. -/
structure Node.Joined (v : Version) (peer : Connection) (frames : List Bytes) (n n' : Node) :
    Prop extends n.Met v peer frames n' where
  phase : n'.conn.phase = .on

/-- The opening of a peer can be accepted, and it leads to the version. -/
structure Connection.Meets (v : Version) (c peer : Connection) (o : Opening) : Prop where
  complements : c.mode.complements peer.mode = true
  opening : ∃ v', peer.opening v' = .ok o ∧ min c.version v' = v
  holdTime : v = .v4 → c.Accommodates peer

theorem Node.Met.free {v : Version} {peer : Connection} {frames : List Bytes} {n n' : Node}
    (h : n.Met v peer frames n') (hfree : n.conn.line.Free) : n'.conn.line.Free := by
  rw [h.line]
  exact ⟨hfree.closed, hfree.credit⟩

theorem Node.Met.send {v : Version} {peer : Connection} {frames : List Bytes} {n n' : Node}
    (h : n.Met v peer frames n') (frame : Bytes) : n.Met v peer (frames ++ [frame])
      { n' with conn.line.sent := n'.conn.line.sent ++ [frame] } :=
  { h with
    same := ⟨h.same.localId, h.same.mode, h.same.config⟩
    line := by simp [h.line] }

namespace Session

variable {n : Node} {v : Version} {peer : Connection} {o : Opening} {now : Instant} {frame : Bytes}

/-- The capabilities that an opening grants are those of the version, if its sender can listen. -/
theorem granted_of_opening {v' : Version} (ho : peer.opening v' = .ok o) (hv : v = .v4 → v' = .v4) :
    ∃ list, o.granted v = .ok list ∧
      (peer.mode.isListener = true → list = Capability.ofVersion v) := by
  by_cases hlegacy : v.isLegacy = true
  · exact ⟨_, if_pos hlegacy, fun _ => rfl⟩
  · obtain rfl := Version.eq_v4_of_not_isLegacy hlegacy
    obtain rfl := hv rfl
    obtain ⟨holdTime, rfl, -⟩ := Connection.opening_eq_ok ho
    rw [Opening.granted, if_neg hlegacy]
    by_cases hmode : peer.mode.isListener = true
    · rw [Opening.declared_of hmode]
      exact ⟨_, rfl, fun _ => rfl⟩
    · obtain ⟨f, hf⟩ : ∃ f, (Opening.of .v4 peer.mode peer.localId holdTime).declared = .error f :=
        Opening.declared_of_speaker hmode
      rw [hf]
      exact ⟨[], if_neg hmode, fun h => absurd h hmode⟩

/-- The timers of the version can be agreed on. -/
theorem timed_of_meets (h : n.conn.Meets v peer o) (list : List Capability) :
    ∃ holdTime keepaliveTime, (n.conn.met o list).timed o =
      .ok { n.conn.met o list with holdTime, keepaliveTime } := by
  obtain ⟨v', ho, hmin⟩ := h.opening
  have hversion : (n.conn.met o list).version = v := by
    rw [Connection.met, Connection.opening_version ho, hmin]
  rw [Connection.timed, hversion]
  by_cases hlegacy : v.isLegacy = true
  · exact ⟨_, _, if_pos hlegacy⟩
  · obtain rfl := Version.eq_v4_of_not_isLegacy hlegacy
    obtain rfl := Version.right_of_min_eq_v4 hmin
    have hsuits : (n.conn.met o list).Accommodates peer := (h.holdTime rfl).same ⟨rfl, rfl, rfl⟩
    obtain ⟨range, settled, hrange, hsettled⟩ := hsuits
    obtain ⟨range', hrange', hoffer⟩ := Connection.opening_holdTime? ho
    rw [hrange] at hrange'
    cases hrange'
    obtain ⟨holdTime, keepaliveTime, rfl⟩ := Connection.negotiate_ok hsettled
    rw [if_neg hlegacy, hoffer, hsettled]
    exact ⟨holdTime, keepaliveTime, rfl⟩

theorem accept_of_meets (h : n.conn.Meets v peer o) : ∃ n', accept o n = .ok () n' ∧
    n.Met v peer [] n' ∧ n'.conn.advertised = n.conn.advertised := by
  obtain ⟨v', ho, hmin⟩ := h.opening
  have hversion : min n.conn.version o.version = v := by
    rw [Connection.opening_version ho, hmin]
  have hmode : n.conn.mode.complements o.mode = true := by
    rw [Connection.opening_mode ho, h.complements]
  obtain ⟨list, hlist, hall⟩ := granted_of_opening (v := v) ho fun hv =>
    Version.right_of_min_eq_v4 (hmin.trans hv)
  obtain ⟨holdTime, keepaliveTime, htimed⟩ := timed_of_meets h list
  have haccept := accept_eq o n
  rw [hmode, hversion, hlist] at haccept
  dsimp only at haccept
  rw [htimed] at haccept
  refine ⟨_, haccept, ?_, rfl⟩
  refine ⟨⟨rfl, rfl, rfl⟩, by simp [Connection.met], hversion, ?_, ?_, rfl⟩
  · exact fun hspeaker => hall (Mode.isListener_of_complements h.complements hspeaker)
  · rcases Connection.opening_nodeId? ho with hid | hid <;> simp [Connection.met, hid]

/-- A connection that has met its peer turns on and makes its first export. -/
theorem turnOn_of_met {n' : Node} {front : List Bytes} (hmet : n.Met v peer front n')
    (hadvertised : n'.conn.advertised = n.conn.advertised) (hfree : n.conn.line.Free)
    (hencodes : n.Encodes v peer.localId) :
    ∃ frames n'', turnOn n' = .ok () n'' ∧ n.Joined v peer (front ++ frames) n'' ∧
      ∀ frame ∈ frames, n.conn.mode.isSpeaker = true ∧ n.conn.Tells v frame := by
  have hexports : n'.conn.mode.isSpeaker = true →
      ∃ frames, n'.Exports n'.conn.version frames := by
    intro hspeaker
    rw [hmet.same.mode] at hspeaker
    obtain ⟨frames, hframes⟩ := hencodes hspeaker _ hmet.name
    rw [hmet.version]
    refine ⟨frames, hframes.congr ?_ ?_ rfl (hmet.capabilities hspeaker) hadvertised hmet.db⟩
    · exact ⟨hmet.same.localId, hmet.same.mode, hmet.same.config⟩
    · rw [hmet.line]
  obtain ⟨frames, advertised, hrun, htells⟩ := turnOn_of_exports (hmet.free hfree) hexports
  refine ⟨frames, _, hrun, ?_, ?_⟩
  · exact {
      same := ⟨hmet.same.localId, hmet.same.mode, hmet.same.config⟩
      line := by simp [hmet.line]
      version := hmet.version
      capabilities := hmet.capabilities
      name := hmet.name
      db := hmet.db
      phase := rfl }
  · intro frame hframe
    obtain ⟨hspeaker, d, part, hsame, hcarries⟩ := htells frame hframe
    rw [hmet.version] at hcarries
    rw [hmet.same.mode] at hspeaker
    exact ⟨hspeaker, d, part, hmet.same.trans hsame, hcarries⟩

theorem send_of_free {m : Message} {frame : Bytes} (hfree : n.conn.line.Free)
    (hm : m.frame = .ok frame) :
    send m n = .ok () { n with conn.line.sent := n.conn.line.sent ++ [frame] } := by
  apply onConnection_of_ok
  rw [Connection.send, hm]
  show (n.conn.line.send frame >>= _) = _
  rw [hfree.send]
  rfl

theorem activate_of_opening (hfree : n.conn.line.Free) (ho : n.conn.opening v = .ok o) :
    ∃ frame, (Message.opening o).frame = .ok frame ∧ activate v n = .ok () { n with
      conn.line.sent := n.conn.line.sent ++ [frame]
      conn.phase := .pendingOn } := by
  obtain ⟨frame, hframe⟩ := Connection.opening_frame ho (.inl rfl)
  refine ⟨frame, hframe, ?_⟩
  rw [activate, bind_of_ok (connection_apply n), ho, bind_of_ok (ofExcept_ok o n),
    bind_of_ok (send_of_free hfree hframe)]
  rfl

theorem hear_reply (h : n.conn.Meets v peer o) (hframe : (Message.reply o).frame = .ok frame)
    (hfree : n.conn.line.Free) (hencodes : n.Encodes v peer.localId) (now : Instant) :
    ∃ frames n', hear now frame n = .ok () n' ∧ n.Joined v peer frames n' ∧
      ∀ frame ∈ frames, n.conn.mode.isSpeaker = true ∧ n.conn.Tells v frame := by
  obtain ⟨v', ho, -⟩ := h.opening
  obtain ⟨n₁, haccept, hmet, hadvertised⟩ := accept_of_meets h
  obtain ⟨frames, n', hrun, hjoined, htells⟩ := turnOn_of_met hmet hadvertised hfree hencodes
  refine ⟨frames, n', ?_, hjoined, htells⟩
  have hwell : (Message.reply o).WellFormed n.conn.version := Connection.opening_wellFormed ho
  have hreceive : receive now (Message.reply o).canonical n = .ok () n' := by
    show (accept o >>= fun _ => turnOn) n = _
    rw [bind_of_ok haccept, hrun]
  rw [hear_of_frame hwell hframe, hreceive]

theorem hear_opening (h : n.conn.Meets v peer o) (hframe : (Message.opening o).frame = .ok frame)
    (hfree : n.conn.line.Free) (hencodes : n.Encodes v peer.localId) {own : Opening}
    (hown : n.conn.opening v = .ok own) (now : Instant) :
    ∃ reply frames n', hear now frame n = .ok () n' ∧ n.conn.Replies v reply ∧
      n.Joined v peer (reply :: frames) n' ∧
      ∀ frame ∈ frames, n.conn.mode.isSpeaker = true ∧ n.conn.Tells v frame := by
  obtain ⟨v', ho, -⟩ := h.opening
  obtain ⟨reply, hreply⟩ := Connection.opening_frame hown (.inr rfl)
  obtain ⟨n₁, haccept, hmet, hadvertised⟩ := accept_of_meets h
  have hown₁ : n₁.conn.opening n₁.conn.version = .ok own := by
    rw [hmet.version, hmet.same.opening, hown]
  have hsend := send_of_free (hmet.free hfree) hreply
  obtain ⟨frames, n', hrun, hjoined, htells⟩ :=
    turnOn_of_met (hmet.send reply) hadvertised hfree hencodes
  refine ⟨reply, frames, n', ?_, ⟨own, hown, hreply⟩, hjoined, htells⟩
  have hwell : (Message.opening o).WellFormed n.conn.version := Connection.opening_wellFormed ho
  have hreceive : receive now (Message.opening o).canonical n = .ok () n' := by
    show (accept o >>= fun _ => connection >>= fun conn => ofExcept (conn.opening conn.version) >>=
      fun own => send (.reply own) >>= fun _ => turnOn) n = _
    rw [bind_of_ok haccept, bind_of_ok (connection_apply n₁), hown₁,
      bind_of_ok (ofExcept_ok own n₁), bind_of_ok hsend, hrun]
  rw [hear_of_frame hwell hframe, hreceive]

/-- A listener that is on learns an update that was made for its version. -/
theorem hear_update (hphase : n.conn.phase = .on) (hmode : n.conn.mode.isListener = true)
    (haccepts : n.db.store.Accepts) (h : peer.Tells n.conn.version frame) (now : Instant) :
    ∃ db, hear now frame n = .ok () { n with db } ∧ db.store.Accepts := by
  obtain ⟨d, part, -, hcarries⟩ := h
  rw [Connection.composer] at hcarries
  split at hcarries
  · next hlegacy =>
    obtain ⟨composed, -, hread⟩ := hcarries.legacy hlegacy
    generalize composed.map MappingRecord.canonical = records at hread
    obtain ⟨db, hlearn, haccepts'⟩ :=
      learn_of_accepts haccepts (LegacyUpdate.changes n.conn.remoteId now records)
    have hreads : legacyChanges now records n =
        .ok (LegacyUpdate.changes n.conn.remoteId now records) n := rfl
    have hrun := listening_ok hphase hmode hreads hlearn
    refine ⟨db, ?_, haccepts'⟩
    rw [hear_of_read hread, receive_legacyUpdate, hrun]
  · next hlegacy =>
    obtain ⟨attrs, hread, hall⟩ := hcarries.current
    obtain ⟨changes, hchanges, -⟩ := hall now
    rw [← Version.eq_v4_of_not_isLegacy hlegacy] at hread
    obtain ⟨db, hlearn, haccepts'⟩ := learn_of_accepts haccepts changes
    have hrun : receive now (.update attrs) n = .ok () { n with db } := by
      apply listening_ok hphase hmode _ hlearn
      rw [hchanges]
      rfl
    refine ⟨db, ?_, haccepts'⟩
    rw [hear_of_read hread, hrun]

end Session

end TagExchange
