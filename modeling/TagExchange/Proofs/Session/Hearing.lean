import TagExchange.Proofs.RoundTrip.Messages
import TagExchange.Proofs.Session.Steps

/-!
# What hearing a frame can do

Bindings come into the database only with an update, which a connection takes while it is on, and
then it is on afterwards. A frame that is not acted on takes the connection off and brings nothing
in (`Session.hear_ok`, `Session.hear_error`).
-/

namespace TagExchange

/-- What a frame that is acted on can do: bindings come in only while the connection is on, and a
connection that is on stays on. -/
def Node.Acted (n n' : Node) : Prop :=
  (n.Narrows n' ∧ (n.conn.phase = .on → n'.conn.phase = .on)) ∨
    (n.Steady n' ∧ n.conn.phase = .on ∧ n'.conn.phase = .on)

namespace Session

theorem checkListening_eq (n : Node) : checkListening n =
    if n.conn.phase ≠ .on ∨ ¬n.conn.mode.isListener = true then
      .error (.updatePhase n.conn.phase) n
    else .ok () n := by
  rw [checkListening, bind_of_ok (connection_apply n)]
  split <;> rfl

@[simp] theorem outcome_checkListening (n : Node) : checkListening.outcome n = n := by
  have h := checkListening_eq n
  split at h
  · exact outcome_of_error h
  · exact outcome_of_ok h

/-- Behind a check that the connection is listening, learning what was read brings bindings in. -/
theorem listening_learn {reading : Session Changes} (hreading : Keeps Eq reading) {n : Node} :
    (∀ f n', (checkListening >>= fun _ => reading >>= learn) n = .error f n' → n.Narrows n') ∧
      ∀ n', (checkListening >>= fun _ => reading >>= learn) n = .ok () n' → n.Acted n' := by
  by_cases hidle : n.conn.phase ≠ .on ∨ ¬n.conn.mode.isListener = true
  · have hcheck := checkListening_eq n
    rw [if_pos hidle] at hcheck
    rw [bind_of_error hcheck]
    refine ⟨?_, ?_⟩
    · intro f n' h
      cases h
      exact Node.Narrows.refl n
    · intro n' h
      cases h
  · have hcheck := checkListening_eq n
    rw [if_neg hidle] at hcheck
    rw [bind_of_ok hcheck]
    cases hread : reading n with
    | error f n₁ =>
      have hsame : n = n₁ := hreading.of_error hread
      subst hsame
      rw [bind_of_error hread]
      refine ⟨?_, ?_⟩
      · intro f n' h
        cases h
        exact Node.Narrows.refl n
      · intro n' h
        cases h
    | ok changes n₁ =>
      have hsame : n = n₁ := hreading.of_ok hread
      subst hsame
      have hon : n.conn.phase = .on := by
        by_contra hoff
        exact hidle (.inl hoff)
      rw [bind_of_ok hread]
      obtain ⟨hsteady, hphase, hfail⟩ := learn_keeps changes n
      refine ⟨hfail, ?_⟩
      intro n' h
      rw [outcome_of_ok h] at hsteady hphase
      exact .inr ⟨hsteady, hon, Eq.trans hphase hon⟩

/-- What a listening connection reads it learns. -/
theorem listening_ok {reading : Session Changes} {n n' : Node} {changes : Changes}
    (hphase : n.conn.phase = .on) (hmode : n.conn.mode.isListener = true)
    (hread : reading n = .ok changes n) (hlearn : learn changes n = .ok () n') :
    (checkListening >>= fun _ => reading >>= learn) n = .ok () n' := by
  have hcheck := checkListening_eq n
  rw [if_neg (by simp [hphase, hmode])] at hcheck
  rw [bind_of_ok hcheck, bind_of_ok hread, hlearn]

theorem turnOn_acted {s : Session Unit} (h : Keeps Node.Narrows s) {n n' : Node}
    (hs : (s >>= fun _ => turnOn) n = .ok () n') : n.Acted n' := by
  obtain ⟨_, n₁, h₁, h₂⟩ := bind_eq_ok hs
  have hon := turnOn_phase n₁
  rw [outcome_of_ok h₂] at hon
  exact .inl ⟨(h.of_ok h₁).trans (turnOn_narrows.of_ok h₂), fun _ => hon⟩

/-- Accepting an opening and replying to it. -/
theorem reply_narrows (o : Opening) : Keeps Node.Narrows (do
    accept o
    let conn ← connection
    send (.reply (← ofExcept (conn.opening conn.version)))) := by
  apply ((accept_stays o).mono Node.Stays.narrows).narrows_bind
  intro _
  apply (Keeps.connection Node.Narrows.refl).narrows_bind
  intro conn
  apply (Keeps.ofExcept Node.Narrows.refl _).narrows_bind
  intro reply
  exact (send_stays _).mono Node.Stays.narrows

theorem receive_opening (now : Instant) (o : Opening) : receive now (.opening o) =
    (do
      accept o
      let conn ← connection
      send (.reply (← ofExcept (conn.opening conn.version)))) >>= fun _ => turnOn := by
  simp only [receive, bind_assoc]

theorem ofExcept_reads (x : Except Fault Changes) : Keeps Eq (ofExcept x) :=
  Keeps.ofExcept (fun _ => rfl) x

/-- The changes of a legacy update, which come from the peer of the connection. -/
def legacyChanges (now : Instant) (records : List MappingRecord) : Session Changes := do
  return LegacyUpdate.changes (← connection).remoteId now records

theorem legacyChanges_reads (now : Instant) (records : List MappingRecord) :
    Keeps Eq (legacyChanges now records) := fun _ => rfl

theorem receive_legacyUpdate (now : Instant) (v : Version) (records : List MappingRecord) :
    receive now (.legacyUpdate v records) =
      (checkListening >>= fun _ => legacyChanges now records >>= learn) := by
  simp only [receive, legacyChanges, bind_assoc, pure_bind]

theorem purgeAll_narrows (now : Instant) : Keeps Node.Narrows (receive now .purgeAll) := by
  apply (Keeps.connection Node.Narrows.refl).narrows_bind
  intro conn
  split
  · exact purge_narrows
  · exact Keeps.pure Node.Narrows.refl ()

theorem purgeAll_samePhase (now : Instant) : Keeps Node.SamePhase (receive now .purgeAll) := by
  apply Keeps.bind (R := Node.SamePhase) (fun _ _ _ => Node.SamePhase.trans)
    (Keeps.connection Node.SamePhase.refl)
  intro conn
  split
  · exact purge_samePhase
  · exact Keeps.pure Node.SamePhase.refl ()

theorem receive_error {now : Instant} {m : Message} {n n' : Node} {f : Fault}
    (h : receive now m n = .error f n') : n.Narrows n' := by
  cases m with
  | opening o =>
    rw [receive_opening] at h
    exact ((reply_narrows o).narrows_bind fun _ => turnOn_narrows).of_error h
  | reply o =>
    have hkeeps := ((accept_stays o).mono Node.Stays.narrows).narrows_bind fun _ => turnOn_narrows
    exact hkeeps.of_error h
  | update attributes => exact (listening_learn (ofExcept_reads _)).1 f n' h
  | legacyUpdate version records =>
    rw [receive_legacyUpdate] at h
    exact (listening_learn (legacyChanges_reads now records)).1 f n' h
  | error notice =>
    cases h
    exact Node.Narrows.refl n
  | purgeAll => exact (purgeAll_narrows now).of_error h
  | keepalive => cases h

theorem receive_ok {now : Instant} {m : Message} {n n' : Node}
    (h : receive now m n = .ok () n') : n.Acted n' := by
  cases m with
  | opening o =>
    rw [receive_opening] at h
    exact turnOn_acted (reply_narrows o) h
  | reply o => exact turnOn_acted ((accept_stays o).mono Node.Stays.narrows) h
  | update attributes => exact (listening_learn (ofExcept_reads _)).2 n' h
  | legacyUpdate version records =>
    rw [receive_legacyUpdate] at h
    exact (listening_learn (legacyChanges_reads now records)).2 n' h
  | error notice => cases h
  | purgeAll =>
    have hphase := (purgeAll_samePhase now).of_ok h
    exact .inl ⟨(purgeAll_narrows now).of_ok h, fun hon => Eq.trans hphase hon⟩
  | keepalive =>
    cases h
    exact .inl ⟨⟨rfl, id, fun _ => id⟩, id⟩

theorem understand_eq (now : Instant) (bs : Bytes) (n : Node) : understand now bs n =
    match Message.ofFrame n.conn.version bs with
    | .ok m => receive now m n
    | .error f => .error f n := by
  rw [understand, bind_of_ok (connection_apply n)]
  cases Message.ofFrame n.conn.version bs <;> rfl

/-- A frame is acted on as the message that it is read as. -/
theorem hear_of_read {now : Instant} {m : Message} {n : Node} {bs : Bytes}
    (h : Message.ofFrame n.conn.version bs = .ok m) : hear now bs n =
      match receive now m n with
      | .ok u n' => .ok u n'
      | .error f n' => .error f { n' with conn := n'.conn.shutDown n'.conn.version f } := by
  have hunderstand := understand_eq now bs n
  rw [h] at hunderstand
  dsimp only at hunderstand
  rw [hear, hunderstand]
  cases receive now m n <;> rfl

/-- What is not read shuts the connection down. -/
theorem hear_of_unread {now : Instant} {n : Node} {bs : Bytes} {f : Fault}
    (h : Message.ofFrame n.conn.version bs = .error f) : hear now bs n =
      .error f { n with conn := n.conn.shutDown n.conn.version f } := by
  rw [hear, understand_eq, h]

/-- The frame of a message that is well formed for the version in effect is taken for that
message. -/
theorem hear_of_frame {now : Instant} {m : Message} {n : Node} {bs : Bytes}
    (h : m.WellFormed n.conn.version) (hb : m.frame = .ok bs) : hear now bs n =
      match receive now m.canonical n with
      | .ok u n' => .ok u n'
      | .error f n' => .error f { n' with conn := n'.conn.shutDown n'.conn.version f } :=
  hear_of_read (Message.ofFrame_of_frame h hb)

theorem hear_eq_ok {now : Instant} {bs : Bytes} {n n' : Node} (h : hear now bs n = .ok () n') :
    ∃ m, Message.ofFrame n.conn.version bs = .ok m ∧ receive now m n = .ok () n' := by
  cases hread : Message.ofFrame n.conn.version bs with
  | error f =>
    rw [hear_of_unread hread] at h
    cases h
  | ok m =>
    rw [hear_of_read hread] at h
    split at h
    · next hreceive =>
      cases h
      exact ⟨m, rfl, hreceive⟩
    · cases h

theorem understand_error {now : Instant} {bs : Bytes} {n n' : Node} {f : Fault}
    (h : understand now bs n = .error f n') : n.Narrows n' := by
  rw [understand_eq] at h
  split at h
  · exact receive_error h
  · cases h
    exact Node.Narrows.refl n

theorem understand_ok {now : Instant} {bs : Bytes} {n n' : Node}
    (h : understand now bs n = .ok () n') : n.Acted n' := by
  rw [understand_eq] at h
  split at h
  · exact receive_ok h
  · cases h

/-- Neither the mode nor the peer changes when a connection is shut down. -/
theorem shutDown_keeps (v : Version) (f : Fault) (c : Connection) :
    (c.shutDown v f).mode = c.mode ∧ (c.shutDown v f).remoteId = c.remoteId := by
  obtain ⟨frames, line, hextends, heq, -⟩ := Connection.shutDown_extends v f c
  rw [heq, Connection.remoteId, Connection.remoteId, hextends.peer]
  exact ⟨rfl, rfl⟩

theorem shutDown_narrows (v : Version) (f : Fault) (n : Node) :
    n.Narrows { n with conn := n.conn.shutDown v f } :=
  ⟨(shutDown_keeps v f n.conn).1, id, fun _ => id⟩

theorem hear_ok {now : Instant} {bs : Bytes} {n n' : Node} (h : hear now bs n = .ok () n') :
    n.Acted n' := by
  rw [hear] at h
  split at h
  · next hunderstand =>
    cases h
    exact understand_ok hunderstand
  · cases h

theorem hear_error {now : Instant} {bs : Bytes} {n n' : Node} {f : Fault}
    (h : hear now bs n = .error f n') : n.Narrows n' ∧ n'.conn.phase = .off := by
  rw [hear] at h
  split at h
  · cases h
  · next hunderstand =>
    cases h
    exact ⟨(understand_error hunderstand).trans (shutDown_narrows _ f _), rfl⟩

end Session

end TagExchange
