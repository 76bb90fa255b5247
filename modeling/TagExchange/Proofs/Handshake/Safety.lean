import TagExchange.Proofs.Exchange.Convergence
import TagExchange.Proofs.Handshake.Ends
import TagExchange.Proofs.Handshake.Moves

/-!
# A handshake is safe

Two fresh connections at the ends of a line, of any two versions. Either or both of them open it,
and from then on their nodes hear what is on its way, make exports and have their databases changed,
in any order. Whatever the order, no move is a fault, a connection that is on has the smaller of the
two versions, and an update is heard by a connection that is on under the version it was made for
(`Exchange.reached_safe`). One opening and the hearing of it and of its reply turn both on
(`Exchange.play_handshake`).
-/

namespace TagExchange

/-- A node that is on has the version. What its peer has on the way to it in updates was made for
that version, and the node is on by the time an update is the next frame. -/
structure Node.Safe (v : Version) (n peer : Node) : Prop where
  version : n.conn.phase = .on → n.conn.version = v
  updates : ∀ frame ∈ peer.conn.line.pending, IsUpdate frame → peer.conn.Tells v frame
  listens : ∀ frame, peer.conn.line.pending.head? = some frame → IsUpdate frame →
    n.conn.phase = .on ∧ n.conn.version = v

namespace Exchange

/-- The smaller of the two versions. -/
def agreed (x : Exchange) : Version := min x.left.conn.version x.right.conn.version

/-- Two fresh connections that can come to terms, at nodes whose stores take every write. -/
structure Ready (x : Exchange) : Prop where
  left : x.left.conn.Fresh
  right : x.right.conn.Fresh
  accepts : x.left.db.store.Accepts ∧ x.right.db.store.Accepts
  terms : x.left.conn.Terms x.agreed x.right.conn
  termsBack : x.right.conn.Terms x.agreed x.left.conn

/-- The next exports encode. -/
def Encodes (v : Version) (x : Exchange) : Prop :=
  x.left.Encodes v x.right.conn.localId ∧ x.right.Encodes v x.left.conn.localId

/-- A connection is opened once, and before it has heard anything; a database is not exchanged for
one whose store refuses writes. -/
def AllowedLeft (m : Move) (x : Exchange) : Prop :=
  match m with
  | .activate => x.left.conn.phase = .off ∧ x.right.conn.line.taken = 0
  | .change db => db.store.Accepts
  | .hear _ | .advertise => True

def Allowed (s : Side) (m : Move) (x : Exchange) : Prop :=
  match s with
  | .first => x.AllowedLeft m
  | .second => x.swap.AllowedLeft m

/-- The states that allowed moves lead to while exports encode. -/
inductive Reached (x₀ : Exchange) : Exchange → Prop
  | start (hencodes : x₀.Encodes x₀.agreed) : Reached x₀ x₀
  | move {x : Exchange} {s : Side} {m : Move} (h : Reached x₀ x) (hallowed : x.Allowed s m)
      (hencodes : (x.move s m).2.Encodes x₀.agreed) : Reached x₀ (x.move s m).2

/-- No move is a fault, and both nodes are safe. -/
structure Safe (v : Version) (x : Exchange) : Prop where
  faultless : ∀ s m, x.Allowed s m → (x.move s m).1 = .ok ()
  left : x.left.Safe v x.right
  right : x.right.Safe v x.left

/-- What holds of both nodes all along. -/
structure Shakes (v : Version) (x₀ x : Exchange) : Prop where
  left : x.left.Shakes v x₀.left.conn x₀.right.conn x.right.conn.line.taken
  right : x.right.Shakes v x₀.right.conn x₀.left.conn x.left.conn.line.taken

variable {v : Version} {x₀ x : Exchange}

theorem Shakes.swap (h : x₀.Shakes v x) : x₀.swap.Shakes v x.swap := ⟨h.right, h.left⟩

theorem Shakes.moveLeft (h : x₀.Shakes v x) (hterms : x₀.left.conn.Terms v x₀.right.conn)
    {m : Move} (hallowed : x.AllowedLeft m) (hencodes : x.left.Encodes v x.right.conn.localId) :
    (x.moveLeft m).1 = .ok () ∧ x₀.Shakes v (x.moveLeft m).2 := by
  rw [h.right.same.localId] at hencodes
  cases m with
  | activate =>
    have hleft := h.left
    rw [hallowed.2] at hleft
    obtain ⟨n', hrun, hn', htaken⟩ := hleft.activate hterms
    rw [Exchange.moveLeft, onLeft_of_ok hrun]
    refine ⟨rfl, ?_, ?_⟩
    · rw [← hallowed.2] at hn'
      exact hn'
    · exact htaken ▸ h.right
  | hear now =>
    cases hnext : x.next? with
    | none =>
      rw [Exchange.moveLeft, hnext]
      exact ⟨rfl, h⟩
    | some frame =>
      obtain ⟨n', hrun, hn', htaken⟩ := h.left.hear h.right hterms rfl hencodes hnext now
      rw [Exchange.moveLeft, hnext]
      dsimp only
      rw [onLeft_of_ok (x := x.taken) hrun]
      refine ⟨rfl, hn', ?_⟩
      have hright := h.right.succ hnext
      rw [← htaken] at hright
      exact hright
  | advertise =>
    obtain ⟨k, n', hrun, hn', htaken⟩ := h.left.advertise hencodes
    rw [Exchange.moveLeft, onLeft_of_ok hrun]
    exact ⟨rfl, hn', htaken ▸ h.right⟩
  | change db => exact ⟨rfl, h.left.change hallowed, h.right⟩

theorem Shakes.move (h : x₀.Shakes v x) (hterms : x₀.left.conn.Terms v x₀.right.conn)
    (htermsBack : x₀.right.conn.Terms v x₀.left.conn) {s : Side} {m : Move}
    (hallowed : x.Allowed s m) (hencodes : x.Encodes v) :
    (x.move s m).1 = .ok () ∧ x₀.Shakes v (x.move s m).2 := by
  cases s with
  | first => exact h.moveLeft hterms hallowed hencodes.1
  | second =>
    obtain ⟨hok, hshakes⟩ := h.swap.moveLeft htermsBack hallowed hencodes.2
    exact ⟨hok, hshakes.swap⟩

theorem Ready.shakes (h : x₀.Ready) : x₀.Shakes x₀.agreed x₀ := by
  have hleft := Node.Shakes.of_fresh (v := x₀.agreed) h.left h.accepts.1 x₀.right.conn
  have hright := Node.Shakes.of_fresh (v := x₀.agreed) h.right h.accepts.2 x₀.left.conn
  have htaken {c : Connection} (hc : c.Fresh) : c.line.taken = 0 := by rw [hc.line]
  exact ⟨htaken h.right ▸ hleft, htaken h.left ▸ hright⟩

theorem Reached.shakes (hready : x₀.Ready) (h : x₀.Reached x) :
    x₀.Shakes x₀.agreed x ∧ x.Encodes x₀.agreed := by
  induction h with
  | start hencodes => exact ⟨hready.shakes, hencodes⟩
  | move _ hallowed hencodes ih =>
    exact ⟨(ih.1.move hready.terms hready.termsBack hallowed ih.2).2, hencodes⟩

/-- What a node is sent, as long as both shake hands. -/
theorem Shakes.safe_left (h : x₀.Shakes v x) : x.left.Safe v x.right where
  version := h.left.after
  updates := by
    intro frame hframe hupdate
    rcases h.right.line.sent frame (List.mem_of_mem_drop hframe) with
      hopens | ⟨-, hreplies | ⟨-, htells⟩⟩
    · exact absurd hupdate hopens.not_isUpdate
    · exact absurd hupdate hreplies.not_isUpdate
    · obtain ⟨d, part, hsame, hcarries⟩ := htells
      exact ⟨d, part, h.right.same.symm.trans hsame, hcarries⟩
  listens := by
    intro frame hnext hupdate
    have hphase := h.left.phase_of_heard h.right rfl hnext hupdate
    exact ⟨hphase, h.left.after hphase⟩

/-- Whatever state a handshake reaches: no move is a fault, connections that are on have the smaller
version, and updates are heard by a connection that is on under the version they were made for. -/
theorem reached_safe (hready : x₀.Ready) (h : x₀.Reached x) : x.Safe x₀.agreed := by
  obtain ⟨hshakes, hencodes⟩ := h.shakes hready
  exact {
    faultless := fun s m hallowed =>
      (hshakes.move hready.terms hready.termsBack hallowed hencodes).1
    left := hshakes.safe_left
    right := hshakes.swap.safe_left }

/-- A frame that is heard is off the line, its hearer is on, and its sender is as before. -/
theorem Shakes.hear (h : x₀.Shakes v x) (hterms : x₀.left.conn.Terms v x₀.right.conn)
    (hencodes : x.left.Encodes v x.right.conn.localId) {frame : Bytes}
    (hnext : x.next? = some frame) (now : Instant) :
    ∃ left, (x.moveLeft (.hear now)).2 = { x.taken with left } ∧
      x₀.Shakes v { x.taken with left } ∧ left.conn.phase = .on := by
  have hmove : (x.moveLeft (.hear now)).2 =
      { x.taken with left := (Session.hear now frame).outcome x.left } := by
    rw [Exchange.moveLeft, hnext]
    dsimp only
    rw [onLeft_snd]
    rfl
  have hshakes := (h.moveLeft hterms (m := .hear now) trivial hencodes).2
  rw [hmove] at hshakes
  exact ⟨_, hmove, hshakes, hshakes.left.heard.2 (Nat.succ_pos _)⟩

/-- The left node has sent an opening. -/
def opening (frame : Bytes) (x : Exchange) : Exchange :=
  { x with left := { x.left with
      conn.line.sent := x.left.conn.line.sent ++ [frame]
      conn.phase := .pendingOn } }

/-- The opening of a fresh connection is on its way. -/
theorem Ready.opening (hready : x₀.Ready) (hencodes : x₀.Encodes x₀.agreed) :
    ∃ frame, (x₀.move .first .activate).2 = x₀.opening frame ∧
      x₀.Shakes x₀.agreed (x₀.opening frame) ∧ (x₀.opening frame).swap.next? = some frame := by
  have hline {c : Connection} (hc : c.Fresh) : c.line.taken = 0 ∧ c.line.sent = [] := by
    rw [hc.line]
    exact ⟨rfl, rfl⟩
  obtain ⟨range, hrange⟩ := hready.terms.holdTime
  obtain ⟨o, ho⟩ := Connection.opening_of_holdTime hrange x₀.left.conn.version
  obtain ⟨frame, -, hrun⟩ :=
    Session.activate_of_opening (n := x₀.left) hready.shakes.left.line.free ho
  have hallowed : x₀.Allowed .first .activate := ⟨hready.left.phase, (hline hready.right).1⟩
  have hshakes := (hready.shakes.move hready.terms hready.termsBack hallowed hencodes).2
  have hmove : (x₀.move .first .activate).2 = x₀.opening frame := by
    show (x₀.onLeft _).2 = _
    rw [onLeft_of_ok hrun]
    rfl
  rw [hmove] at hshakes
  refine ⟨frame, hmove, hshakes, ?_⟩
  simp [Exchange.opening, next?, Exchange.swap, Line.pending, hline hready.left]

/-- A node that is on has a reply on its way to a peer that has heard nothing. -/
theorem Shakes.replied (h : x₀.Shakes v x) (hleft : x.left.conn.phase ≠ .on)
    (hright : x.right.conn.phase = .on) : ∃ reply, x.next? = some reply := by
  have htaken : x.right.conn.line.taken = 0 := by
    have hheard := mt h.left.heard.2 hleft
    omega
  obtain ⟨reply, rest, hsent⟩ := List.exists_cons_of_ne_nil (h.right.line.spoken hright)
  refine ⟨reply, ?_⟩
  rw [next?, Line.pending, htaken, hsent]
  rfl

/-- One node opens, the other replies, and both are on. -/
theorem play_handshake (hready : x₀.Ready) (hencodes : x₀.Encodes x₀.agreed)
    (now later : Instant) :
    let x := x₀.play [(.first, .activate), (.second, .hear now), (.first, .hear later)]
    x.left.conn.phase = .on ∧ x.right.conn.phase = .on := by
  obtain ⟨frame, hmove₁, hshakes₁, hnext₁⟩ := hready.opening hencodes
  obtain ⟨right, hmove₂, hshakes₂, hright⟩ :=
    hshakes₁.swap.hear hready.termsBack hencodes.2 hnext₁ now
  let x₂ : Exchange := { x₀.opening frame with left := (x₀.opening frame).swap.taken.right, right }
  have hshakes₂' : x₀.Shakes x₀.agreed x₂ := hshakes₂.swap
  have hpending : x₂.left.conn.phase = .pendingOn := rfl
  obtain ⟨reply, hnext₂⟩ := hshakes₂'.replied (by simp [hpending]) hright
  have hencodes₂ : x₂.left.Encodes x₀.agreed x₂.right.conn.localId := by
    rw [hshakes₂'.right.same.localId]
    exact hencodes.1
  obtain ⟨left, hmove₃, -, hleft⟩ := hshakes₂'.hear hready.terms hencodes₂ hnext₂ later
  have hmove₂' : ((x₀.opening frame).move .second (.hear now)).2 = x₂ :=
    congrArg Exchange.swap hmove₂
  have hmove₃' : (x₂.move .first (.hear later)).2 = { x₂.taken with left } := hmove₃
  simp only [play_cons, play_nil, hmove₁, hmove₂', hmove₃']
  exact ⟨hleft, hright⟩

/-- A listener of version 3 and a speaker of version 4 that has something to tell. -/
def mixed : Exchange where
  left := .newcomer 0x0a000002 0x0a000001 .listener { version := .v3 } {}
  right := .newcomer 0x0a000001 0x0a000002 .speaker {} { table := .ofBindings [Feed.near] }
  clock := ⟨⟨0, 0⟩⟩

def openingFrame : Bytes := [0, 0, 0, 16, 0, 0, 0, 1, 0, 0, 0, 3, 0, 0, 0, 2]

def replyFrame : Bytes := [0, 0, 0, 16, 0, 0, 0, 2, 0, 0, 0, 3, 0, 0, 0, 1]

def nearRecord : MappingRecord :=
  { type := .addIpv4, net := Feed.near.net, tag := some Message.plainTag }

def updateFrame : Bytes :=
  [0, 0, 0, 39, 0, 0, 0, 3, 0, 0, 0, 1, 0, 0, 0, 23, 10, 5, 0, 0, 0, 0, 0, 1, 0, 0, 0, 2, 0, 100,
    0, 0, 0, 2, 0, 0, 0, 1, 16]

/-- The listener has opened. -/
def opened : Exchange :=
  { mixed with
    left.conn.line.sent := [openingFrame]
    left.conn.phase := .pendingOn }

/-- The speaker has replied and told what it has, all of which is still on its way. -/
def halfway : Exchange :=
  { opened with
    left.conn.line.taken := 1
    right.conn.version := .v3
    right.conn.capabilities := Capability.ofVersion .v3
    right.conn.remoteNodeId := some 0x0a000002
    right.conn.line.sent := [replyFrame, updateFrame]
    right.conn.phase := .on
    right.conn.advertised := .ofBindings [Feed.near] }

theorem exports_mixed (name : Option NodeId) : Node.Exports .v3
    { mixed.right with
      conn.capabilities := Capability.ofVersion .v3
      conn.remoteNodeId := name } [updateFrame] := by
  have hcompose : Connection.composer .v3 { mixed.right.conn with
      capabilities := Capability.ofVersion .v3, remoteNodeId := name } [] [Feed.near] =
        .ok (.legacyUpdate .v3 [nearRecord]) := rfl
  have hframe : (Message.legacyUpdate .v3 [nearRecord]).frame = .ok updateFrame := rfl
  exact Node.exports_single rfl rfl hcompose hframe

/-- A listener exports nothing, so all depends on the speaker. -/
theorem encodes_of_listener {x : Exchange} (hleft : x.left.conn.mode = .listener)
    (hright : ∀ name, ∃ frames, Node.Exports .v3
      { x.right with
        conn.capabilities := Capability.ofVersion .v3
        conn.remoteNodeId := name } frames) : x.Encodes .v3 := by
  have hlistener : ¬x.left.conn.mode.isSpeaker = true := by
    rw [hleft]
    decide
  exact ⟨fun hspeaker => absurd hspeaker hlistener, fun _ name _ => hright name⟩

theorem hear_mixed (now : Instant) :
    (opened.move .second (.hear now)) = (.ok (), halfway) := by
  let met : Node := { halfway.right with
    conn.phase := .off
    conn.line.sent := [replyFrame]
    conn.advertised := ∅ }
  have hexports : Node.Exports .v3 { met with conn.phase := .on } [updateFrame] :=
    exports_mixed (some 0x0a000002)
  have hturn : Session.turnOn met = .ok () halfway.right := by
    have hrun : Session.turnOn met =
        (discard (Session.advertise .v3) : Session Unit) { met with conn.phase := .on } := by
      rw [Session.turnOn_eq]
      rfl
    have hadvertise := Session.advertise_of_exports rfl rfl ⟨rfl, rfl⟩ hexports
    rw [hrun, Session.discard_eq, Session.bind_of_ok hadvertise]
    rfl
  have hunderstand : Session.understand now openingFrame mixed.right = Session.turnOn met := rfl
  have hhear : Session.hear now openingFrame mixed.right = .ok () halfway.right := by
    rw [Session.hear, hunderstand, hturn]
  have hmove : opened.swap.moveLeft (.hear now) =
      opened.swap.taken.onLeft (Session.hear now openingFrame) := rfl
  rw [move, hmove, onLeft_of_ok (x := opened.swap.taken) hhear]
  rfl

theorem reached_halfway : mixed.Reached halfway := by
  have hopened : (mixed.move .first .activate) = (.ok (), opened) := rfl
  have hmixed : mixed.Encodes .v3 := encodes_of_listener rfl fun name => ⟨_, exports_mixed name⟩
  have hstart : mixed.Reached opened := by
    have h := Reached.move (.start hmixed) (s := .first) (m := .activate) ⟨rfl, rfl⟩
    rw [hopened] at h
    exact h (encodes_of_listener rfl fun name => ⟨_, exports_mixed name⟩)
  have h := Reached.move hstart (s := .second) (m := .hear ⟨0, 0⟩) trivial
  rw [hear_mixed] at h
  apply h
  apply encodes_of_listener rfl
  intro name
  exact ⟨[], Node.exports_nil (Exports.difference_self (Table.Filed.ofBindings [Feed.near]))⟩

theorem reached_safe_halfway : mixed.Ready ∧ mixed.Reached halfway ∧
    halfway.left.conn.phase = .pendingOn ∧
    halfway.right.conn.line.pending = [replyFrame, updateFrame] ∧ halfway.Safe .v3 := by
  have hready : mixed.Ready := {
    left := Connection.fresh_of _ _ _ _
    right := Connection.fresh_of _ _ _ _
    accepts := ⟨trivial, trivial⟩
    terms := ⟨rfl, rfl, ⟨_, rfl⟩, nofun⟩
    termsBack := ⟨rfl, rfl, ⟨_, rfl⟩, nofun⟩ }
  exact ⟨hready, reached_halfway, rfl, rfl, reached_safe hready reached_halfway⟩

end Exchange

end TagExchange
