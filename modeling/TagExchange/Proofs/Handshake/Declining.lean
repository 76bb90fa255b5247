import TagExchange.Proofs.Handshake.Joining
import TagExchange.Proofs.Session.Refusals

/-!
# What a declined opening leaves behind

An opening, or a reply, is declined for its mode, for the capabilities it does not list or for its
hold time (`Session.accept_error`). What it says is recorded while it is checked, and the hold time
comes last. So a connection that declines keeps the version, the timers and what the peer has been
told; it keeps the capabilities and the id of the peer as well unless the hold time is the reason,
and then these are what the opening says, as after one that is accepted (`Session.hear_declined`).
-/

namespace TagExchange

variable {f : Fault}

namespace Opening

variable {o : Opening}

theorem declared_error (h : o.declared = .error f) : f.kind = .attributeNotFound := by
  rw [declared, Attribute.find] at h
  cases hfind : o.attributes.find? fun a => a.value.code == AttributeKind.capabilities.code with
  | none =>
    rw [hfind] at h
    cases h
    rfl
  | some a =>
    rw [hfind] at h
    dsimp only at h
    split at h
    · cases h
    · cases h
      rfl
    · next hok => cases hok

/-- Only under version 4 do the capabilities have to be listed. -/
theorem granted_error {v : Version} (h : o.granted v = .error f) :
    v = .v4 ∧ f.kind = .attributeNotFound := by
  rw [granted] at h
  split at h
  · cases h
  · next hlegacy =>
    refine ⟨Version.eq_v4_of_not_isLegacy hlegacy, ?_⟩
    cases hdeclared : o.declared with
    | ok list =>
      rw [hdeclared] at h
      cases h
    | error g =>
      rw [hdeclared] at h
      dsimp only at h
      split at h
      · cases h
        exact declared_error hdeclared
      · cases h

end Opening

namespace Connection

variable {c : Connection}

theorem negotiate_error {offer : Option HoldTime} (h : c.negotiate offer = .error f) :
    f.kind = .unacceptableHoldTime := by
  cases offer with
  | none => cases h
  | some range =>
    rw [negotiate] at h
    split at h
    · cases h
    · split at h
      · dsimp only at h
        split at h <;> cases h
        rfl
      · split at h <;> cases h
        rfl

theorem timed_error {o : Opening} (h : c.timed o = .error f) :
    c.version = .v4 ∧ f.kind = .unacceptableHoldTime := by
  rw [timed] at h
  split at h
  · cases h
  · next hlegacy => exact ⟨Version.eq_v4_of_not_isLegacy hlegacy, negotiate_error h⟩

end Connection

namespace Session

variable {n n₁ : Node} {o : Opening}

/-- The three reasons to decline, and what has been recorded by then. -/
theorem accept_error (h : accept o n = .error f n₁) :
    ((f.kind = .modeMismatch ∨ f.kind = .attributeNotFound) ∧ n₁ = n) ∨
      f.kind = .unacceptableHoldTime ∧ ∃ capabilities,
        o.granted n.conn.version = .ok capabilities ∧
        n₁ = { n with conn := { n.conn with
          capabilities, remoteNodeId := o.nodeId? <|> n.conn.line.peer.addr4? } } := by
  have hversion (hmin : min n.conn.version o.version = .v4) :
      min n.conn.version o.version = n.conn.version := by
    rw [Version.min_comm] at hmin
    rw [Version.min_comm, hmin, Version.right_of_min_eq_v4 hmin]
  rw [accept_eq] at h
  split at h
  · cases h
    exact .inl ⟨.inl rfl, rfl⟩
  · split at h
    · next hgranted =>
      cases h
      obtain ⟨hmin, hkind⟩ := Opening.granted_error hgranted
      rw [hversion hmin]
      exact .inl ⟨.inr hkind, rfl⟩
    · next capabilities hgranted =>
      split at h
      · next htimed =>
        cases h
        obtain ⟨hmin, hkind⟩ := Connection.timed_error htimed
        rw [hversion hmin] at hgranted
        refine .inr ⟨hkind, capabilities, hgranted, ?_⟩
        rw [Connection.met, hversion hmin]
      · cases h

/-- A declined opening or reply ends the handling of its frame. -/
theorem hear_of_accept_error {now : Instant} {frame : Bytes} {m : Message}
    (hread : Message.ofFrame n.conn.version frame = .ok m) (hm : m = .opening o ∨ m = .reply o)
    (h : accept o n = .error f n₁) :
    hear now frame n = .error f { n₁ with conn := n₁.conn.shutDown n₁.conn.version f } := by
  rw [hear_of_read hread]
  rcases hm with rfl | rfl
  · rw [receive_opening, bind_assoc, bind_of_error h]
  · rw [receive, bind_of_error h]

/-- A connection in any state declines an opening or a reply. It is shut down, and neither the
version nor the timers nor what the peer has been told have changed, nor has the database. When the
mode or the missing capabilities are the reason, the capabilities and the id of the peer are the
ones from before; when it is the hold time, they are those of the opening. -/
theorem hear_declined {now : Instant} {frame : Bytes} {m : Message}
    (hread : Message.ofFrame n.conn.version frame = .ok m) (hm : m = .opening o ∨ m = .reply o)
    (h : accept o n = .error f n₁) :
    ∃ n', hear now frame n = .error f n' ∧ n'.conn.phase = .off ∧ n'.db = n.db ∧
      n'.conn.version = n.conn.version ∧ n'.conn.holdTime = n.conn.holdTime ∧
      n'.conn.keepaliveTime = n.conn.keepaliveTime ∧ n'.conn.advertised = n.conn.advertised ∧
      ((f.kind = .modeMismatch ∨ f.kind = .attributeNotFound) ∧
          n'.conn.capabilities = n.conn.capabilities ∧
          n'.conn.remoteNodeId = n.conn.remoteNodeId ∨
        f.kind = .unacceptableHoldTime ∧
          o.granted n.conn.version = .ok n'.conn.capabilities ∧
          n'.conn.remoteNodeId = (o.nodeId? <|> n.conn.line.peer.addr4?)) := by
  refine ⟨_, hear_of_accept_error hread hm h, ?_⟩
  obtain ⟨frames, line, -, hshut, -⟩ := Connection.shutDown_extends n₁.conn.version f n₁.conn
  rw [hshut]
  obtain ⟨hkind, rfl⟩ | ⟨hkind, capabilities, hgranted, rfl⟩ := accept_error h
  · exact ⟨rfl, rfl, rfl, rfl, rfl, rfl, .inl ⟨hkind, rfl, rfl⟩⟩
  · exact ⟨rfl, rfl, rfl, rfl, rfl, rfl, .inr ⟨hkind, hgranted, rfl⟩⟩

/-- A peer that is speaker and listener, calls itself 9.9.9.9 and wants longer hold times than a
node has by default. -/
def patient : Opening :=
  ⟨.v4, .both, [.wellKnown (.nodeId 0x09090909),
    .wellKnown (.capabilities [.subnetBindings, .ipv6Unicast, .ipv4Unicast]),
    .wellKnown (.holdTime ⟨200, 300⟩)]⟩

def patientFrame : Bytes :=
  [0, 0, 0, 39, 0, 0, 0, 1, 0, 0, 0, 4, 0, 0, 0, 3, 0x50, 5, 4, 9, 9, 9, 9,
    0x50, 6, 6, 3, 0, 2, 0, 1, 0, 0x50, 7, 4, 0, 200, 1, 44]

theorem patientFrame_read : Message.ofFrame .v4 patientFrame = .ok (.opening patient) := by
  have hwell : (Message.opening patient).WellFormed .v4 := by
    refine ⟨nofun, fun a ha => ?_⟩
    simp only [patient, List.mem_cons, List.not_mem_nil, or_false] at ha
    rcases ha with rfl | rfl | rfl
    · exact Attribute.wellFormed_of _ trivial
    · exact Attribute.wellFormed_of _ trivial
    · exact Attribute.wellFormed_of _ (.inr ⟨200, 300, rfl⟩)
  exact Message.ofFrame_of_frame hwell rfl

/-- A node that has yet to hear from its peer. -/
def newcomer : Node where
  conn := .of { peer := ⟨.v4 0x0A000002, 64999, 0⟩ } 0x0A000001
    ⟨"peer", ⟨.v4 0x0A000002, 64999, 0⟩, .both, .v4⟩ {}
  db := {}

/-- It declines the opening for its hold time, and has recorded the rest. -/
theorem declined_recorded : ∃ n₁, activate .v4 newcomer = .ok () n₁ ∧
    n₁.conn.capabilities = [] ∧ n₁.conn.remoteNodeId = none ∧
    ∃ n₂, accept patient n₁ = .error (.minimumAboveMaximum 200 180) n₂ ∧
    ∃ n', hear ⟨0, 0⟩ patientFrame n₁ = .error (.minimumAboveMaximum 200 180) n' ∧
      n'.conn.capabilities = [.subnetBindings, .ipv6Unicast, .ipv4Unicast] ∧
      n'.conn.remoteNodeId = some 0x09090909 := by
  refine ⟨_, rfl, rfl, rfl, _, rfl, ?_⟩
  rw [hear_of_read patientFrame_read]
  exact ⟨_, rfl, rfl, rfl⟩

/-- What the node has learned from its peer, known as 10.0.0.2 by then. -/
def peerBinding : Binding := ⟨.v4 ⟨0x0A050000, 16⟩, 100, [0x0A000002], ⟨10, 0⟩⟩

/-- The node once it is on. -/
def established : Node where
  conn :=
    { newcomer.conn with
      phase := .on, remoteNodeId := some 0x0A000002, holdTime := 90, keepaliveTime := 30 }
  db := { table := .ofBindings [peerBinding] }

/-- A repeated opening gives the peer another id, and what was learned under the first one stays. -/
theorem hear_declined_patient :
    Message.ofFrame established.conn.version patientFrame = .ok (.opening patient) ∧
    ∃ f n₁, accept patient established = .error f n₁ ∧
    ∃ n', hear ⟨20, 0⟩ patientFrame established = .error f n' ∧ n'.conn.holdTime = 90 ∧
      n'.conn.remoteNodeId = some 0x09090909 ∧ peerBinding ∈ n'.db.bindings := by
  obtain ⟨n₁, haccept⟩ : ∃ n₁,
      accept patient established = .error (.minimumAboveMaximum 200 180) n₁ := ⟨_, rfl⟩
  have hread : Message.ofFrame established.conn.version patientFrame = .ok (.opening patient) :=
    patientFrame_read
  obtain ⟨n', hhear, -, hdb, -, hhold, -, -, hreason⟩ := hear_declined hread (.inl rfl) haccept
  refine ⟨hread, _, _, haccept, n', hhear, hhold, ?_, ?_⟩
  · obtain ⟨hkind | hkind, -⟩ | ⟨-, -, hid⟩ := hreason
    · cases hkind
    · cases hkind
    · exact hid
  · rw [hdb]
    decide +kernel

end Session

end TagExchange
