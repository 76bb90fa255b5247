import TagExchange.Proofs.Handshake.Joining

/-!
# One end of a handshake

What holds of a node while it shakes hands, whatever its peer does. Until it is on, a connection has
its own version and has sent nothing but its opening; the first frame that it hears is an opening or
a reply and turns it on; and everything that it sends afterwards is for the smaller version
(`Node.Shakes`). The two ends turn on at different moments, so what one end has heard counts for the
other: a connection is on exactly when it has heard something.
-/

namespace TagExchange

/-- The frame is the opening of a connection under its own version. -/
def Connection.Opens (c : Connection) (frame : Bytes) : Prop :=
  ∃ o, c.opening c.version = .ok o ∧ (Message.opening o).frame = .ok frame

/-- What two connections bring along, as the first of them sees it. -/
structure Connection.Terms (v : Version) (c d : Connection) : Prop where
  version : min c.version d.version = v
  complements : c.mode.complements d.mode = true
  holdTime : ∃ range, c.config.holdTime c.mode = .ok range
  suits : v = .v4 → c.Accommodates d

/-- What a line that was fresh at a connection `c` has carried: an opening or a reply first, and
only openings until the connection is on. -/
structure Line.Carried (v : Version) (c : Connection) (on : Prop) (l : Line) : Prop where
  free : l.Free
  taken : l.taken ≤ l.sent.length
  spoken : on → l.sent ≠ []
  sent : ∀ frame ∈ l.sent, c.Opens frame ∨
    (on ∧ (c.Replies v frame ∨ (c.mode.isSpeaker = true ∧ c.Tells v frame)))
  first : ∀ frame, l.sent.head? = some frame → c.Opens frame ∨ c.Replies v frame

/-- What holds of a node all along. Its connection was `c` when it was fresh, that of its peer was
`d`, and it has heard a number of frames. -/
structure Node.Shakes (v : Version) (c d : Connection) (heard : Nat) (n : Node) : Prop where
  same : c.Same n.conn
  line : n.conn.line.Carried v c (n.conn.phase = .on)
  accepts : n.db.store.Accepts
  before : n.conn.phase ≠ .on → n.conn.version = c.version
  after : n.conn.phase = .on → n.conn.version = v
  capabilities : n.conn.phase = .on → c.mode.isSpeaker = true →
    n.conn.capabilities = Capability.ofVersion v
  name : n.conn.phase = .on →
    n.conn.remoteNodeId = some d.localId ∨ n.conn.remoteNodeId = n.conn.line.peer.addr4?
  heard : n.conn.phase = .on ↔ 0 < heard

/-- The frame of an update. -/
def IsUpdate (frame : Bytes) : Prop := ∃ length, Header.ofFrame frame = .ok ⟨length, .update⟩

theorem isUpdate_iff {m : Message} {frame : Bytes} (h : m.frame = .ok frame) :
    IsUpdate frame ↔ m.type = .update := by
  obtain ⟨payload, -, hheader, -⟩ := Message.frame_eq_ok h
  simp [IsUpdate, hheader]

namespace Connection

variable {v : Version} {c c' d : Connection} {frame : Bytes}

theorem Tells.same (h : c'.Tells v frame) (hsame : c.Same c') : c.Tells v frame := by
  obtain ⟨d, part, hd, hcarries⟩ := h
  exact ⟨d, part, hsame.trans hd, hcarries⟩

theorem Tells.isUpdate (h : c.Tells v frame) : IsUpdate frame := by
  obtain ⟨d, part, -, hcarries⟩ := h
  obtain ⟨m, htype, hframe⟩ := hcarries.type_eq
  exact (isUpdate_iff hframe).2 htype

theorem Replies.same (h : c'.Replies v frame) (hsame : c.Same c') : c.Replies v frame := by
  obtain ⟨o, ho, hframe⟩ := h
  exact ⟨o, (hsame.opening v).symm.trans ho, hframe⟩

theorem Replies.not_isUpdate (h : c.Replies v frame) : ¬IsUpdate frame := by
  obtain ⟨o, -, hframe⟩ := h
  rw [isUpdate_iff hframe]
  exact nofun

theorem Opens.not_isUpdate (h : c.Opens frame) : ¬IsUpdate frame := by
  obtain ⟨o, -, hframe⟩ := h
  rw [isUpdate_iff hframe]
  exact nofun

end Connection

namespace Line.Carried

variable {v : Version} {c : Connection} {on on' : Prop} {l : Line} {frames : List Bytes}

/-- Something was said before, or an opening or a reply comes first. -/
theorem append (h : l.Carried v c on) (hon : on → on')
    (hframes : ∀ frame ∈ frames, c.Opens frame ∨
      (on' ∧ (c.Replies v frame ∨ (c.mode.isSpeaker = true ∧ c.Tells v frame))))
    (hfirst : l.sent ≠ [] ∨
      ∃ frame rest, frames = frame :: rest ∧ (c.Opens frame ∨ c.Replies v frame)) :
    Line.Carried v c on' { l with sent := l.sent ++ frames } where
  free := ⟨h.free.closed, h.free.credit⟩
  taken := by
    have htaken := h.taken
    simp only [List.length_append]
    omega
  spoken := by
    intro _
    rcases hfirst with hsent | ⟨frame, rest, rfl, -⟩
    · exact List.append_ne_nil_of_left_ne_nil hsent _
    · exact List.append_ne_nil_of_right_ne_nil _ (List.cons_ne_nil _ _)
  sent := by
    intro frame hframe
    rcases List.mem_append.1 hframe with hframe | hframe
    · exact (h.sent frame hframe).imp_right fun hsaid => ⟨hon hsaid.1, hsaid.2⟩
    · exact hframes frame hframe
  first := by
    intro frame hframe
    by_cases hnil : l.sent = []
    · obtain ⟨front, rest, rfl, hfront⟩ := hfirst.resolve_left (not_not.2 hnil)
      rw [hnil] at hframe
      cases hframe
      exact hfront
    · rw [List.head?_append_of_ne_nil _ hnil] at hframe
      exact h.first frame hframe

/-- The other side takes a frame. -/
theorem succ (h : l.Carried v c on) {frame : Bytes} (hnext : l.pending.head? = some frame) :
    Line.Carried v c on { l with taken := l.taken + 1 } :=
  { h with
    free := ⟨h.free.closed, h.free.credit⟩
    taken := by
      rw [Line.pending, List.head?_drop] at hnext
      exact (List.getElem?_eq_some_iff.1 hnext).1 }

end Line.Carried

namespace Node.Shakes

variable {v : Version} {c d : Connection} {heard : Nat} {n p : Node}

/-- A fresh connection has said and heard nothing. -/
theorem of_fresh (h : n.conn.Fresh) (haccepts : n.db.store.Accepts) (d : Connection) :
    n.Shakes v n.conn d 0 := by
  have hoff : n.conn.phase ≠ .on := by
    rw [h.phase]
    exact nofun
  exact {
    same := .refl _
    line := by
      rw [h.line]
      exact ⟨⟨rfl, rfl⟩, Nat.le_refl 0, fun hon => absurd hon hoff, nofun, nofun⟩
    accepts := haccepts
    before := fun _ => rfl
    after := fun hon => absurd hon hoff
    capabilities := fun hon => absurd hon hoff
    name := fun hon => absurd hon hoff
    heard := by simp [hoff] }

/-- A connection has its own version, or already the one that was agreed on. -/
theorem version_eq (h : n.Shakes v c d heard) :
    n.conn.version = c.version ∨ n.conn.version = v := by
  by_cases hon : n.conn.phase = .on
  · exact .inr (h.after hon)
  · exact .inl (h.before hon)

/-- An opening of the peer, under its own version or the one agreed on, can be accepted. -/
theorem meets (h : n.Shakes v c d heard) (hterms : c.Terms v d) {v' : Version}
    (hv' : v' = d.version ∨ v' = v) {o : Opening} (ho : d.opening v' = .ok o) :
    n.conn.Meets v d o where
  complements := by rw [h.same.mode, hterms.complements]
  opening := by
    have hmin := hterms.version
    refine ⟨v', ho, ?_⟩
    rcases h.version_eq with hn | hn <;> rcases hv' with rfl | rfl <;> rw [hn]
    · exact hmin
    · rw [← hmin, Version.min_left_min]
    · rw [← hmin, Version.min_min_right]
    · exact Version.min_self _
  holdTime := fun hv => (hterms.suits hv).same h.same

/-- A connection that turns on has said something before, or says a reply first. -/
theorem joined (h : n.Shakes v c d heard) {frames : List Bytes} {n' : Node}
    (hjoined : n.Joined v d frames n')
    (hframes : ∀ frame ∈ frames,
      c.Replies v frame ∨ (c.mode.isSpeaker = true ∧ c.Tells v frame))
    (hfirst : n.conn.line.sent ≠ [] ∨ ∃ reply rest, frames = reply :: rest ∧ c.Replies v reply) :
    n'.Shakes v c d (heard + 1) where
  same := h.same.trans hjoined.same
  line := by
    rw [hjoined.line]
    refine h.line.append (fun _ => hjoined.phase) ?_ (hfirst.imp_right ?_)
    · exact fun frame hframe => .inr ⟨hjoined.phase, hframes frame hframe⟩
    · rintro ⟨reply, rest, rfl, hreply⟩
      exact ⟨reply, rest, rfl, .inr hreply⟩
  accepts := hjoined.db ▸ h.accepts
  before := fun hoff => absurd hjoined.phase hoff
  after := fun _ => hjoined.version
  capabilities := fun _ hspeaker => hjoined.capabilities (h.same.mode ▸ hspeaker)
  name := by
    intro _
    rw [hjoined.line]
    exact hjoined.name
  heard := by simp [hjoined.phase]

/-- The first frame that is heard turns the connection on. -/
theorem phase_of_heard (h : n.Shakes v c d heard) (hp : p.Shakes v d c n.conn.line.taken)
    (hheard : heard = p.conn.line.taken) {frame : Bytes}
    (hnext : p.conn.line.pending.head? = some frame) (hupdate : IsUpdate frame) :
    n.conn.phase = .on := by
  rw [h.heard, hheard]
  by_contra hzero
  have htaken : p.conn.line.taken = 0 := by omega
  rw [Line.pending, htaken, List.drop_zero] at hnext
  rcases hp.line.first frame hnext with hopens | hreplies
  · exact hopens.not_isUpdate hupdate
  · exact hreplies.not_isUpdate hupdate

/-- Whatever is next on the line is heard without a fault. -/
theorem hear (h : n.Shakes v c d heard) (hp : p.Shakes v d c n.conn.line.taken)
    (hterms : c.Terms v d) (hheard : heard = p.conn.line.taken)
    (hencodes : n.Encodes v d.localId) {frame : Bytes}
    (hnext : p.conn.line.pending.head? = some frame) (now : Instant) :
    ∃ n', Session.hear now frame n = .ok () n' ∧ n'.Shakes v c d (heard + 1) ∧
      n'.conn.line.taken = n.conn.line.taken := by
  have hmem : frame ∈ p.conn.line.sent := List.mem_of_mem_drop (List.mem_of_mem_head? hnext)
  have htold {frames : List Bytes}
      (htells : ∀ frame ∈ frames, n.conn.mode.isSpeaker = true ∧ n.conn.Tells v frame) :
      ∀ frame ∈ frames, c.Replies v frame ∨ (c.mode.isSpeaker = true ∧ c.Tells v frame) := by
    intro frame hframe
    obtain ⟨hspeaker, htell⟩ := htells frame hframe
    exact .inr ⟨h.same.mode ▸ hspeaker, htell.same h.same⟩
  rcases hp.line.sent frame hmem with ⟨o, ho, hframe⟩ | ⟨hon, ⟨o, ho, hframe⟩ | ⟨hspeaker, htell⟩⟩
  · have hmeets := h.meets hterms (.inl rfl) ho
    obtain ⟨range, hrange⟩ := hterms.holdTime
    obtain ⟨own, hown⟩ := Connection.opening_of_holdTime hrange v
    obtain ⟨reply, frames, n', hrun, hreply, hjoined, htells⟩ :=
      Session.hear_opening hmeets hframe h.line.free hencodes ((h.same.opening v).trans hown) now
    have hreply' : c.Replies v reply := hreply.same h.same
    refine ⟨n', hrun, h.joined hjoined ?_ ?_, by rw [hjoined.line]⟩
    · intro frame hframe
      rcases List.mem_cons.1 hframe with rfl | hframe
      · exact .inl hreply'
      · exact htold htells frame hframe
    · exact .inr ⟨reply, frames, rfl, hreply'⟩
  · have hmeets := h.meets hterms (.inr rfl) ho
    obtain ⟨frames, n', hrun, hjoined, htells⟩ :=
      Session.hear_reply hmeets hframe h.line.free hencodes now
    refine ⟨n', hrun, h.joined hjoined (htold htells) (.inl ?_), by rw [hjoined.line]⟩
    intro hnil
    have htaken := h.line.taken
    have hpositive := hp.heard.1 hon
    rw [hnil, List.length_nil] at htaken
    omega
  · have hphase := h.phase_of_heard hp hheard hnext htell.isUpdate
    have hmode : n.conn.mode.isListener = true := by
      rw [h.same.mode]
      apply Mode.isListener_of_complements _ hspeaker
      rw [Mode.complements_comm, hterms.complements]
    rw [← h.after hphase] at htell
    obtain ⟨db, hrun, haccepts⟩ := Session.hear_update hphase hmode h.accepts htell now
    refine ⟨_, hrun, ?_, rfl⟩
    exact { h with accepts := haccepts, heard := by simp [hphase] }

/-- The opening of a connection that has heard nothing. -/
theorem activate (h : n.Shakes v c d 0) (hterms : c.Terms v d) :
    ∃ n', Session.activate n.conn.version n = .ok () n' ∧ n'.Shakes v c d 0 ∧
      n'.conn.line.taken = n.conn.line.taken := by
  have hoff : n.conn.phase ≠ .on := fun hon => absurd (h.heard.1 hon) (lt_irrefl 0)
  obtain ⟨range, hrange⟩ := hterms.holdTime
  obtain ⟨o, ho⟩ := Connection.opening_of_holdTime hrange c.version
  have ho' : n.conn.opening n.conn.version = .ok o := by
    rw [h.before hoff, h.same.opening, ho]
  obtain ⟨frame, hframe, hrun⟩ := Session.activate_of_opening h.line.free ho'
  have hopens : c.Opens frame := ⟨o, ho, hframe⟩
  refine ⟨_, hrun, ?_, rfl⟩
  exact {
    same := ⟨h.same.localId, h.same.mode, h.same.config⟩
    line := by
      refine h.line.append (fun hon => absurd hon hoff) ?_ (.inr ⟨frame, [], rfl, .inl hopens⟩)
      intro frame' hframe'
      obtain rfl := List.mem_singleton.1 hframe'
      exact .inl hopens
    accepts := h.accepts
    before := fun _ => h.before hoff
    after := nofun
    capabilities := nofun
    name := nofun
    heard := by simp }

/-- An export under the version in effect. -/
theorem advertise (h : n.Shakes v c d heard) (hencodes : n.Encodes v d.localId) :
    ∃ k n', Session.advertise n.conn.version n = .ok k n' ∧ n'.Shakes v c d heard ∧
      n'.conn.line.taken = n.conn.line.taken := by
  by_cases hidle : n.conn.phase ≠ .on ∨ ¬n.conn.mode.isSpeaker = true
  · exact ⟨0, n, by rw [Session.advertise_eq, if_pos hidle], h, rfl⟩
  · obtain ⟨hon, hspeaker⟩ : n.conn.phase = .on ∧ n.conn.mode.isSpeaker = true := by
      simpa [not_or] using hidle
    have hmode : c.mode.isSpeaker = true := h.same.mode ▸ hspeaker
    obtain ⟨frames, hframes⟩ := hencodes hspeaker _ (h.name hon)
    have hexports : n.Exports v frames :=
      hframes.congr ⟨rfl, rfl, rfl⟩ rfl rfl (h.capabilities hon hmode) rfl rfl
    have hline : Line.Carried v c (n.conn.phase = .on)
        { n.conn.line with sent := n.conn.line.sent ++ frames } := by
      refine h.line.append (fun hon => hon) ?_ (.inl (h.line.spoken hon))
      intro frame hframe
      exact .inr ⟨hon, .inr ⟨hmode, (hexports.tells frame hframe).same h.same⟩⟩
    rw [← h.after hon] at hexports
    refine ⟨_, _, Session.advertise_of_exports hon hspeaker h.line.free hexports, ?_, rfl⟩
    exact { h with same := ⟨h.same.localId, h.same.mode, h.same.config⟩, line := hline }

/-- Another database. -/
theorem change (h : n.Shakes v c d heard) {db : Database} (hdb : db.store.Accepts) :
    Node.Shakes v c d heard { n with db } :=
  { h with accepts := hdb }

/-- The peer has taken a frame off the line. -/
theorem succ (h : n.Shakes v c d heard) {frame : Bytes}
    (hnext : n.conn.line.pending.head? = some frame) : Node.Shakes v c d heard
      { n with conn.line.taken := n.conn.line.taken + 1 } :=
  { h with
    same := ⟨h.same.localId, h.same.mode, h.same.config⟩
    line := h.line.succ hnext }

end Node.Shakes

end TagExchange
