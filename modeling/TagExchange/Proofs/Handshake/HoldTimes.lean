import TagExchange.Proofs.Handshake.Safety

/-!
# What two nodes make of their hold times

Under version 4 each node gives a hold time when it opens and settles on one of its own account from
what the other gave. Both numbers are the larger of the two minima, so the nodes agree, except that
a node whose peer's minimum is zero turns its timers off. A node whose own minimum is zero does not,
and so the two agree exactly when both minima are zero or neither is
(`Exchange.holdTimes_agree_iff`, `Exchange.disabled_disagree`).

Whatever happens, faults and repeated openings included, a connection that is on has settled on what
its peer's settings give (`Node.Settled`): all openings of a node of version 4 give the same, and
nothing but an opening turns a connection on.
-/

namespace TagExchange

theorem HoldTime.isDisabled_eq_iff {h h' : HoldTime} :
    h.isDisabled = h'.isDisabled ↔ (h.min = 0 ↔ h'.min = 0) := by
  rw [Bool.eq_iff_iff, isDisabled, isDisabled, beq_iff_eq, beq_iff_eq]

namespace NodeConfig

/-- A hold time that the settings allow: for a speaker from what it accepts at least, for the others
within their range. -/
def Allows (config : NodeConfig) (mode : Mode) (seconds : Nat) : Prop :=
  match mode with
  | .speaker => config.holdTimeMinAcceptable ≤ seconds
  | .listener | .both => config.holdTimeMin ≤ seconds ∧ seconds ≤ config.holdTimeMax

/-- What a hold time says about the settings that it was made from. -/
theorem holdTime_eq_ok {config : NodeConfig} {mode : Mode} {range : HoldTime}
    (h : config.holdTime mode = .ok range) :
    range.min = (if mode = .speaker then config.holdTimeMinAcceptable else config.holdTimeMin) ∧
      (mode ≠ .speaker → range.min ≠ 0 →
        range.max = config.holdTimeMax ∧ range.min ≤ range.max) := by
  cases mode with
  | speaker =>
    rw [holdTime, HoldTime.ofMin] at h
    split at h <;> cases h
    exact ⟨rfl, fun hmode => absurd rfl hmode⟩
  | listener | both =>
    rw [holdTime, HoldTime.ofRange] at h
    split at h
    · cases h
    · split at h
      · next hzero =>
        cases h
        exact ⟨hzero.symm, fun _ hne => absurd rfl hne⟩
      · split at h
        · next hle =>
          cases h
          exact ⟨rfl, fun _ _ => ⟨rfl, hle.1⟩⟩
        · cases h

end NodeConfig

namespace Connection

variable {c : Connection} {own offer : HoldTime} {seconds keepalive : Nat}

/-- The timers after a negotiation: the larger of the two minima, unless the peer's is zero. -/
theorem negotiate_timers (hown : c.config.holdTime c.mode = .ok own)
    (h : (c.negotiate (some offer)).map timers = .ok (seconds, keepalive)) :
    seconds = (if offer.min = 0 then 0 else max offer.min own.min) ∧
      keepalive = min (seconds / 3) c.config.keepaliveTime := by
  obtain ⟨hmin, -⟩ := NodeConfig.holdTime_eq_ok hown
  rw [negotiate] at h
  split at h
  · next hzero =>
    have hzero : offer.min = 0 := by simpa [HoldTime.isDisabled] using hzero
    cases h
    simp [timersOff, hzero]
  · next hne =>
    have hne : offer.min ≠ 0 := by simpa [HoldTime.isDisabled] using hne
    split at h
    · next hmode =>
      dsimp only at h
      split at h <;> cases h
      rw [hmin, if_neg hne, if_pos hmode]
      exact ⟨rfl, rfl⟩
    · next hmode =>
      split at h <;> cases h
      rw [hmin, if_neg hne, if_neg hmode]
      exact ⟨rfl, rfl⟩

/-- What any node but a speaker has checked of its peer's minimum. -/
theorem le_of_negotiate (h : (c.negotiate (some offer)).map timers = .ok (seconds, keepalive))
    (hmode : c.mode ≠ .speaker) : offer.min ≤ c.config.holdTimeMax := by
  rw [negotiate] at h
  split at h
  · next hzero =>
    have hzero : offer.min = 0 := by simpa [HoldTime.isDisabled] using hzero
    omega
  · split at h
    · cases h
    · next hfits => exact Nat.not_lt.1 hfits

/-- The larger of the two minima is allowed by a node that has settled. -/
theorem allows_max (hown : c.config.holdTime c.mode = .ok own)
    (h : (c.negotiate (some offer)).map timers = .ok (seconds, keepalive)) :
    c.config.Allows c.mode (max offer.min own.min) := by
  obtain ⟨hmin, hrange⟩ := NodeConfig.holdTime_eq_ok hown
  by_cases hmode : c.mode = .speaker
  · rw [if_pos hmode] at hmin
    rw [hmode]
    exact hmin ▸ Nat.le_max_right _ _
  · have hoffer := le_of_negotiate h hmode
    have hmax : own.min ≤ c.config.holdTimeMax := by
      by_cases hzero : own.min = 0
      · omega
      · obtain ⟨heq, hle⟩ := hrange hmode hzero
        omega
    rw [if_neg hmode] at hmin
    cases hc : c.mode with
    | speaker => exact absurd hc hmode
    | listener | both => exact ⟨hmin ▸ Nat.le_max_right _ _, Nat.max_le.2 ⟨hoffer, hmax⟩⟩

/-- A third of the hold time at most. -/
theorem keepalive_le (hown : c.config.holdTime c.mode = .ok own)
    (h : (c.negotiate (some offer)).map timers = .ok (seconds, keepalive)) :
    keepalive * 3 ≤ seconds := by
  obtain ⟨-, rfl⟩ := negotiate_timers hown h
  omega

/-- Without a hold time there is no keepalive time. -/
theorem timers_eq_zero_iff (hown : c.config.holdTime c.mode = .ok own)
    (h : (c.negotiate (some offer)).map timers = .ok (seconds, keepalive)) :
    (seconds, keepalive) = (0, 0) ↔ seconds = 0 := by
  obtain ⟨-, rfl⟩ := negotiate_timers hown h
  simp only [Prod.mk.injEq]
  omega

section Both

variable {d : Connection} {seconds' keepalive' : Nat}

/-- Each looks at the other's minimum for a zero, and at both for the rest. -/
theorem holdTimes_eq_iff (hown : c.config.holdTime c.mode = .ok own)
    (hoffer : d.config.holdTime d.mode = .ok offer)
    (hc : (c.negotiate (some offer)).map timers = .ok (seconds, keepalive))
    (hd : (d.negotiate (some own)).map timers = .ok (seconds', keepalive')) :
    (seconds = seconds' ↔ own.isDisabled = offer.isDisabled) ∧
      ((seconds = 0 ↔ seconds' = 0) ↔ own.isDisabled = offer.isDisabled) := by
  obtain ⟨hseconds, -⟩ := negotiate_timers hown hc
  obtain ⟨hseconds', -⟩ := negotiate_timers hoffer hd
  rw [HoldTime.isDisabled_eq_iff, hseconds, hseconds']
  constructor
  · split <;> split <;> omega
  · split <;> split <;> omega

/-- A hold time that is not zero is allowed by both. -/
theorem allows_of_ne_zero (hown : c.config.holdTime c.mode = .ok own)
    (hoffer : d.config.holdTime d.mode = .ok offer)
    (hc : (c.negotiate (some offer)).map timers = .ok (seconds, keepalive))
    (hd : (d.negotiate (some own)).map timers = .ok (seconds', keepalive'))
    (hne : seconds ≠ 0) : c.config.Allows c.mode seconds ∧ d.config.Allows d.mode seconds := by
  obtain ⟨hseconds, -⟩ := negotiate_timers hown hc
  have hmax : seconds = max offer.min own.min := by
    rw [hseconds]
    apply if_neg
    intro hzero
    exact hne (hseconds.trans (if_pos hzero))
  have hallows := allows_max hown hc
  have hallows' := allows_max hoffer hd
  rw [Nat.max_comm] at hallows'
  exact hmax ▸ ⟨hallows, hallows'⟩

end Both

end Connection

/-- The connection does not turn on, and while it is on its timers stay. -/
def Node.Quiet (n n' : Node) : Prop :=
  n'.conn.phase = .on → n.conn.phase = .on ∧ n'.conn.timers = n.conn.timers

namespace Node

theorem Quiet.refl (n : Node) : n.Quiet n := fun hon => ⟨hon, rfl⟩

theorem Quiet.trans {n₁ n₂ n₃ : Node} (h : n₁.Quiet n₂) (h' : n₂.Quiet n₃) : n₁.Quiet n₃ := by
  intro hon
  obtain ⟨hon₂, htimers₂⟩ := h' hon
  obtain ⟨hon₁, htimers₁⟩ := h hon₂
  exact ⟨hon₁, htimers₂.trans htimers₁⟩

end Node

namespace Session

variable {n n' : Node} {now : Instant}

theorem Keeps.quiet_bind {α β : Type} {s : Session α} {f : α → Session β}
    (hs : Keeps Node.Quiet s) (hf : ∀ a, Keeps Node.Quiet (f a)) : Keeps Node.Quiet (s >>= f) :=
  Keeps.bind (R := Node.Quiet) (fun _ _ _ => Node.Quiet.trans) hs hf

theorem send_quiet (m : Message) : Keeps Node.Quiet (send m) := by
  intro n
  obtain ⟨line, h⟩ := send_outcome m n
  rw [h]
  exact fun hon => ⟨hon, rfl⟩

theorem activate_quiet (v : Version) : Keeps Node.Quiet (activate v) := by
  apply (Keeps.connection Node.Quiet.refl).quiet_bind
  intro conn
  apply (Keeps.ofExcept Node.Quiet.refl _).quiet_bind
  intro o
  apply (send_quiet _).quiet_bind
  intro _ n hon
  cases hon

theorem advertise_quiet (v : Version) : Keeps Node.Quiet (advertise v) := by
  intro n
  obtain ⟨front, line, advertised, h, -⟩ := advertise_outcome v n
  rw [h]
  exact fun hon => ⟨hon, rfl⟩

theorem learn_quiet (changes : Changes) : Keeps Node.Quiet (learn changes) := by
  intro n
  obtain ⟨db, h⟩ := learn_outcome changes n
  rw [h]
  exact .refl n

theorem purge_quiet : Keeps Node.Quiet purge := by
  intro n
  obtain ⟨db, h⟩ := purge_outcome n
  rw [h]
  exact .refl n

theorem checkListening_quiet : Keeps Node.Quiet checkListening := by
  intro n
  rw [outcome_checkListening]
  exact .refl n

/-- Only an opening or a reply is more than quiet. -/
theorem receive_quiet {m : Message} (hopening : m.type ≠ .opening) (hreply : m.type ≠ .reply) :
    Keeps Node.Quiet (receive now m) := by
  cases m with
  | opening o => exact absurd rfl hopening
  | reply o => exact absurd rfl hreply
  | update attributes =>
    apply checkListening_quiet.quiet_bind
    intro _
    apply (Keeps.ofExcept Node.Quiet.refl _).quiet_bind
    exact fun changes => learn_quiet changes
  | legacyUpdate version records =>
    apply checkListening_quiet.quiet_bind
    intro _
    apply (Keeps.connection Node.Quiet.refl).quiet_bind
    exact fun conn => learn_quiet _
  | error notice => exact fun n => .refl n
  | purgeAll =>
    apply (Keeps.connection Node.Quiet.refl).quiet_bind
    intro conn
    split
    · exact purge_quiet
    · exact Keeps.pure Node.Quiet.refl ()
  | keepalive => exact fun n hon => ⟨hon, rfl⟩

/-- An opening or a reply that is taken sets the timers. -/
theorem receive_timed {m : Message} {o : Opening} (hm : m = .opening o ∨ m = .reply o)
    (h : receive now m n = .ok () n') :
    ∃ list c, (n.conn.met o list).timed o = .ok c ∧ n'.conn.timers = c.timers := by
  have hturn {n₁ : Node} (h : turnOn n₁ = .ok () n') : n'.conn.timers = n₁.conn.timers := by
    obtain ⟨line, advertised, hturn⟩ := turnOn_changes n₁
    rw [outcome_of_ok h] at hturn
    rw [hturn]
    rfl
  rcases hm with rfl | rfl
  · obtain ⟨_, n₁, haccept, h⟩ := bind_eq_ok h
    obtain ⟨list, c, htimed, rfl⟩ := accept_ok haccept
    refine ⟨list, c, htimed, ?_⟩
    rw [bind_of_ok (connection_apply _)] at h
    obtain ⟨reply, n₂, hopening, h⟩ := bind_eq_ok h
    obtain ⟨-, rfl⟩ := ofExcept_eq_ok hopening
    obtain ⟨_, n₃, hsend, h⟩ := bind_eq_ok h
    obtain ⟨line, hline⟩ := send_outcome (.reply reply) { n with conn := c }
    rw [outcome_of_ok hsend] at hline
    rw [hturn h, hline]
    rfl
  · obtain ⟨_, n₁, haccept, h⟩ := bind_eq_ok h
    obtain ⟨list, c, htimed, rfl⟩ := accept_ok haccept
    exact ⟨list, c, htimed, hturn h⟩

end Session

/-- A connection that is on has settled on the hold time that its peer's settings give. -/
structure Node.Settled (c d : Connection) (n : Node) : Prop where
  same : c.Same n.conn
  timers : n.conn.phase = .on → ∃ range, d.config.holdTime d.mode = .ok range ∧
    (c.negotiate (some range)).map Connection.timers = .ok n.conn.timers

/-- A node that has only ever spoken version 4. -/
abbrev Node.Current (n : Node) : Prop := n.Candid (· = .v4) fun _ => True

theorem Node.Settled.quiet {c d : Connection} {n n' : Node} (h : n.Settled c d)
    (hsame : n.conn.Same n'.conn) (hquiet : n.Quiet n') : n'.Settled c d where
  same := h.same.trans hsame
  timers := by
    intro hon
    obtain ⟨hon', htimers⟩ := hquiet hon
    rw [htimers]
    exact h.timers hon'

/-- An opening of a node of version 4 gives the hold time of its settings. -/
theorem Node.Current.holdTime? {p : Node} (hp : p.Current) {frame : Bytes}
    (hframe : frame ∈ p.conn.line.sent) {v : Version} {m : Message} {o : Opening}
    (hread : Message.ofFrame v frame = .ok m) (hm : m = .opening o ∨ m = .reply o) :
    o.version = .v4 ∧ ∃ range, p.conn.config.holdTime p.conn.mode = .ok range ∧
      o.holdTime? = some range := by
  obtain ⟨v', rfl, ho⟩ := (hp.sent frame hframe).opening_of_read hread hm
  exact ⟨Connection.opening_version ho, Connection.opening_holdTime? ho⟩

/-- Hearing a node of version 4, whether or not it is a fault. -/
theorem Node.Settled.hear {c d : Connection} {n p : Node} (h : n.Settled c d) (hn : n.Current)
    (hp : p.Current) (hd : d.Same p.conn) {frame : Bytes} (hframe : frame ∈ p.conn.line.sent)
    (now : Instant) {n' : Node} (hsame : n.conn.Same n'.conn)
    (hrun : (Session.hear now frame).outcome n = n') : n'.Settled c d := by
  cases hhear : Session.hear now frame n with
  | error f n₁ =>
    rw [Session.outcome_of_error hhear] at hrun
    subst hrun
    refine ⟨h.same.trans hsame, fun hon => ?_⟩
    rw [(Session.hear_error hhear).2] at hon
    cases hon
  | ok u n₁ =>
    rw [Session.outcome_of_ok hhear] at hrun
    subst hrun
    obtain ⟨m, hread, hreceive⟩ := Session.hear_eq_ok hhear
    by_cases hopening : ∃ o, m = .opening o ∨ m = .reply o
    · obtain ⟨o, hm⟩ := hopening
      obtain ⟨hversion, range, hrange, hoffer⟩ := hp.holdTime? hframe hread hm
      obtain ⟨list, c', htimed, htimers⟩ := Session.receive_timed hm hreceive
      refine ⟨h.same.trans hsame, fun _ => ⟨range, ?_, ?_⟩⟩
      · rw [← hd.config, ← hd.mode, hrange]
      · have hmet : (n.conn.met o list).version = .v4 := by
          rw [Connection.met, hversion, hn.version]
          rfl
        rw [Connection.timed, hmet, if_neg (by decide), hoffer] at htimed
        have hsame' : c.Same (n.conn.met o list) := h.same.trans ⟨rfl, rfl, rfl⟩
        have hsettled := Connection.timers_negotiate hsame'.mode hsame'.config (some range)
        rw [← hsettled, htimed, htimers]
        rfl
    · have hquiet : n.Quiet n₁ := by
        apply (Session.receive_quiet ?_ ?_).of_ok hreceive
        all_goals
          intro htype
          apply hopening
          cases m <;> cases htype
        · exact ⟨_, .inl rfl⟩
        · exact ⟨_, .inr rfl⟩
      exact h.quiet hsame hquiet

namespace Exchange

/-- What holds of two nodes of version 4 all along. -/
structure Bargains (x₀ x : Exchange) : Prop where
  left : x.left.Settled x₀.left.conn x₀.right.conn
  right : x.right.Settled x₀.right.conn x₀.left.conn
  leftCurrent : x.left.Current
  rightCurrent : x.right.Current

variable {x₀ x : Exchange}

theorem Bargains.swap (h : x₀.Bargains x) : x₀.swap.Bargains x.swap :=
  ⟨h.right, h.left, h.rightCurrent, h.leftCurrent⟩

/-- A step of the left node that is quiet. -/
theorem Bargains.onLeft (h : x₀.Bargains x) {α : Type} {s : Session α}
    (hupholds : Session.Keeps (Node.Upholds (· = .v4) fun _ => True) s)
    (hquiet : Session.Keeps Node.Quiet s) : x₀.Bargains (x.onLeft s).2 := by
  have hstep := hupholds x.left
  rw [onLeft_snd]
  exact {
    left := h.left.quiet hstep.same (hquiet x.left)
    right := h.right
    leftCurrent := hstep.candid h.leftCurrent
    rightCurrent := h.rightCurrent }

theorem Bargains.hear (h : x₀.Bargains x) {frame : Bytes} (hnext : x.next? = some frame)
    (now : Instant) : x₀.Bargains (x.taken.onLeft (Session.hear now frame)).2 := by
  have hframe : frame ∈ x.right.conn.line.sent := List.mem_of_mem_drop (List.mem_of_mem_head? hnext)
  have hstep : x.left.Upholds (· = .v4) (fun _ => True)
      ((Session.hear now frame).outcome x.left) := by
    apply Session.hear_upholds
    intro m hread
    refine (h.rightCurrent.sent frame hframe).credible ?_ (fun _ _ => trivial)
      (fun _ _ _ => trivial) hread
    rintro v v' rfl rfl
    rfl
  rw [onLeft_snd]
  exact {
    left := h.left.hear h.leftCurrent h.rightCurrent h.right.same hframe now hstep.same rfl
    right := ⟨h.right.same.trans ⟨rfl, rfl, rfl⟩, h.right.timers⟩
    leftCurrent := hstep.candid h.leftCurrent
    rightCurrent := {
      version := h.rightCurrent.version
      bindings := h.rightCurrent.bindings
      sent := fun frame hframe => (h.rightCurrent.sent frame hframe).same ⟨rfl, rfl, rfl⟩ } }

theorem Bargains.moveLeft (h : x₀.Bargains x) (m : Move) : x₀.Bargains (x.moveLeft m).2 := by
  cases m with
  | activate =>
    exact h.onLeft (Session.activate_upholds h.leftCurrent.version) (Session.activate_quiet _)
  | hear now =>
    rw [Exchange.moveLeft]
    split
    · exact h
    · next frame hnext => exact h.hear hnext now
  | advertise => exact h.onLeft (Session.advertise_upholds _) (Session.advertise_quiet _)
  | change db =>
    exact {
      left := ⟨h.left.same, h.left.timers⟩
      right := h.right
      leftCurrent := ⟨h.leftCurrent.version, fun _ _ => trivial, h.leftCurrent.sent⟩
      rightCurrent := h.rightCurrent }

theorem Bargains.play (h : x₀.Bargains x) (moves : List (Side × Move)) :
    x₀.Bargains (x.play moves) :=
  play_induction (I := Bargains) (fun _ _ => Bargains.swap) (fun _ _ m h => h.moveLeft m) h moves

theorem bargains_of_fresh (hleft : x.left.conn.Fresh) (hright : x.right.conn.Fresh)
    (hversion : x.left.conn.version = .v4 ∧ x.right.conn.version = .v4) : x.Bargains x := by
  have hsettled {n : Node} (h : n.conn.Fresh) (d : Connection) : n.Settled n.conn d := by
    refine ⟨.refl _, fun hon => ?_⟩
    rw [h.phase] at hon
    cases hon
  have hcurrent {n : Node} (h : n.conn.Fresh) (hv : n.conn.version = .v4) : n.Current := by
    refine ⟨hv, fun _ _ => trivial, ?_⟩
    rw [h.line]
    exact fun frame hframe => by cases hframe
  exact ⟨hsettled hleft _, hsettled hright _, hcurrent hleft hversion.1,
    hcurrent hright hversion.2⟩

/-- Two nodes of version 4 that are both on have the same hold time, and their timers are off
together, exactly when both give a minimum of zero or neither does. In any case a hold time that is
not zero is allowed by both, and the keepalive time is a third of the hold time at most. -/
theorem holdTimes_agree_iff (hleft : x₀.left.conn.Fresh) (hright : x₀.right.conn.Fresh)
    (hversion : x₀.left.conn.version = .v4 ∧ x₀.right.conn.version = .v4) {own offer : HoldTime}
    (hown : x₀.left.conn.config.holdTime x₀.left.conn.mode = .ok own)
    (hoffer : x₀.right.conn.config.holdTime x₀.right.conn.mode = .ok offer)
    (moves : List (Side × Move)) (hleftOn : (x₀.play moves).left.conn.phase = .on)
    (hrightOn : (x₀.play moves).right.conn.phase = .on) :
    let c := (x₀.play moves).left.conn
    let d := (x₀.play moves).right.conn
    (c.holdTime = d.holdTime ↔ own.isDisabled = offer.isDisabled) ∧
      ((c.timers = (0, 0) ↔ d.timers = (0, 0)) ↔ own.isDisabled = offer.isDisabled) ∧
      (∀ seconds, seconds ≠ 0 → seconds = c.holdTime ∨ seconds = d.holdTime →
        x₀.left.conn.config.Allows x₀.left.conn.mode seconds ∧
          x₀.right.conn.config.Allows x₀.right.conn.mode seconds) ∧
      c.keepaliveTime * 3 ≤ c.holdTime ∧ d.keepaliveTime * 3 ≤ d.holdTime := by
  intro c d
  have hbargains := (bargains_of_fresh hleft hright hversion).play moves
  obtain ⟨range, hrange, hc⟩ := hbargains.left.timers hleftOn
  obtain ⟨range', hrange', hd⟩ := hbargains.right.timers hrightOn
  rw [hoffer] at hrange
  rw [hown] at hrange'
  cases hrange
  cases hrange'
  obtain ⟨hagree, hzero⟩ := Connection.holdTimes_eq_iff hown hoffer hc hd
  refine ⟨hagree, ?_, ?_, Connection.keepalive_le hown hc, Connection.keepalive_le hoffer hd⟩
  · rw [← hzero]
    exact iff_congr (Connection.timers_eq_zero_iff hown hc)
      (Connection.timers_eq_zero_iff hoffer hd)
  · intro seconds hne hseconds
    rcases hseconds with rfl | rfl
    · exact Connection.allows_of_ne_zero hown hoffer hc hd hne
    · exact (Connection.allows_of_ne_zero hoffer hown hd hc hne).symm

/-- A speaker with the usual settings and a listener, both new and with nothing to tell. -/
def meeting (config : NodeConfig) : Exchange where
  left := .newcomer 0x0a000001 0x0a000002 .speaker {} {}
  right := .newcomer 0x0a000002 0x0a000001 .listener config {}
  clock := ⟨⟨0, 0⟩⟩

def handshake : List (Side × Move) :=
  [(.first, .activate), (.second, .hear ⟨0, 0⟩), (.first, .hear ⟨1, 0⟩)]

theorem play_meeting {config : NodeConfig} (hready : (meeting config).Ready) :
    ((meeting config).play handshake).left.conn.phase = .on ∧
      ((meeting config).play handshake).right.conn.phase = .on := by
  apply play_handshake hready
  have hlistener : ¬Mode.listener.isSpeaker = true := by decide
  refine ⟨fun _ name _ => ⟨[], Node.exports_nil ?_⟩, fun hspeaker => absurd hspeaker hlistener⟩
  exact Exports.difference_self Table.Filed.empty

theorem ready_meeting {config : NodeConfig} {range : HoldTime}
    (hrange : config.holdTime .listener = .ok range)
    (hleft : (meeting config).left.conn.Accommodates (meeting config).right.conn)
    (hright : (meeting config).right.conn.Accommodates (meeting config).left.conn) :
    (meeting config).Ready where
  left := Connection.fresh_of _ _ _ _
  right := Connection.fresh_of _ _ _ _
  accepts := ⟨trivial, trivial⟩
  terms := ⟨rfl, rfl, ⟨_, rfl⟩, fun _ => hleft⟩
  termsBack := ⟨Version.min_comm _ _, rfl, ⟨range, hrange⟩, fun _ => hright⟩

theorem holdTimes_agree_iff_meeting :
    let x := (meeting {}).play handshake
    (meeting {}).left.conn.Fresh ∧ (meeting {}).right.conn.Fresh ∧
      x.left.conn.phase = .on ∧ x.right.conn.phase = .on ∧
      x.left.conn.holdTime = x.right.conn.holdTime := by
  have hready : (meeting {}).Ready := ready_meeting rfl ⟨_, _, rfl, rfl⟩ ⟨_, _, rfl, rfl⟩
  obtain ⟨hleft, hright⟩ := play_meeting hready
  obtain ⟨hagree, -⟩ := holdTimes_agree_iff hready.left hready.right ⟨rfl, rfl⟩ rfl rfl
    handshake hleft hright
  exact ⟨hready.left, hready.right, hleft, hright, hagree.2 rfl⟩

/-- A listener with a minimum of zero gives a valid hold time, which turns the timers of the speaker
off. Its own stay on. -/
theorem disabled_disagree :
    let config : NodeConfig := { holdTimeMin := 0 }
    let x := (meeting config).play handshake
    (meeting config).left.conn.version = .v4 ∧ (meeting config).right.conn.version = .v4 ∧
      NodeConfig.holdTime {} .speaker = .ok { min := 120 } ∧
      config.holdTime .listener = .ok { min := 0 } ∧
      x.left.conn.phase = .on ∧ x.right.conn.phase = .on ∧
      x.left.conn.timers = (0, 0) ∧ x.right.conn.timers = (120, 30) ∧
      x.left.conn.holdTime ≠ x.right.conn.holdTime := by
  intro config
  have hready : (meeting config).Ready := ready_meeting rfl ⟨_, _, rfl, rfl⟩ ⟨_, _, rfl, rfl⟩
  have hon := play_meeting hready
  have hbargains := (bargains_of_fresh hready.left hready.right ⟨rfl, rfl⟩).play handshake
  generalize (meeting config).play handshake = x at hon hbargains ⊢
  obtain ⟨hleft, hright⟩ := hon
  obtain ⟨range, hrange, hc⟩ := hbargains.left.timers hleft
  obtain ⟨range', hrange', hd⟩ := hbargains.right.timers hright
  cases hrange
  cases hrange'
  have hoff : ((meeting config).left.conn.negotiate (some { min := 0 })).map Connection.timers =
      .ok (0, 0) := rfl
  have hstays : ((meeting config).right.conn.negotiate (some { min := 120 })).map
      Connection.timers = .ok (120, 30) := by decide
  have htimers : x.left.conn.timers = (0, 0) := Except.ok.inj (hc.symm.trans hoff)
  have htimers' : x.right.conn.timers = (120, 30) := Except.ok.inj (hd.symm.trans hstays)
  have hne : x.left.conn.timers.1 ≠ x.right.conn.timers.1 := by
    rw [htimers, htimers']
    decide
  exact ⟨rfl, rfl, rfl, rfl, hleft, hright, htimers, htimers', hne⟩

end Exchange

end TagExchange
