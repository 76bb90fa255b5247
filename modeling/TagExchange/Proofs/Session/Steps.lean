import TagExchange.Proofs.Database.Operations
import TagExchange.Proofs.Session.Lines
import TagExchange.Session

/-!
# What the steps of a session keep

A step keeps a relation when it holds between the node before and the node after, also after a
fault. A relation that is reflexive and transitive is kept by steps one after the other
(`Session.Keeps.bind`), so it is enough to look at the steps that change something. A step that does
not learn narrows the database (`Node.Narrows`), and only three kinds of step change the phase.
-/

namespace TagExchange

/-- Nothing but the talk with the peer goes on: mode, phase and database stay. -/
structure Node.Stays (n n' : Node) : Prop where
  mode : n'.conn.mode = n.conn.mode
  phase : n'.conn.phase = n.conn.phase
  db : n'.db = n.db

/-- The mode stays, bindings stay filed under their own networks and none come in. -/
structure Node.Narrows (n n' : Node) : Prop where
  mode : n'.conn.mode = n.conn.mode
  filed : n.db.table.Filed → n'.db.table.Filed
  bindings : ∀ b ∈ n'.db.bindings, b ∈ n.db.bindings

/-- The mode stays and bindings stay filed under their own networks. -/
structure Node.Steady (n n' : Node) : Prop where
  mode : n'.conn.mode = n.conn.mode
  filed : n.db.table.Filed → n'.db.table.Filed

namespace Node

theorem Narrows.refl (n : Node) : n.Narrows n := ⟨rfl, id, fun _ => id⟩

theorem Narrows.trans {n₁ n₂ n₃ : Node} (h : n₁.Narrows n₂) (h' : n₂.Narrows n₃) :
    n₁.Narrows n₃ :=
  ⟨h'.mode.trans h.mode, h'.filed ∘ h.filed, fun b hb => h.bindings b (h'.bindings b hb)⟩

theorem Narrows.steady {n n' : Node} (h : n.Narrows n') : n.Steady n' := ⟨h.mode, h.filed⟩

theorem Steady.refl (n : Node) : n.Steady n := ⟨rfl, id⟩

theorem Steady.trans {n₁ n₂ n₃ : Node} (h : n₁.Steady n₂) (h' : n₂.Steady n₃) : n₁.Steady n₃ :=
  ⟨h'.mode.trans h.mode, h'.filed ∘ h.filed⟩

theorem Stays.refl (n : Node) : n.Stays n := ⟨rfl, rfl, rfl⟩

theorem Stays.trans {n₁ n₂ n₃ : Node} (h : n₁.Stays n₂) (h' : n₂.Stays n₃) : n₁.Stays n₃ :=
  ⟨h'.mode.trans h.mode, h'.phase.trans h.phase, h'.db.trans h.db⟩

theorem Stays.narrows {n n' : Node} (h : n.Stays n') : n.Narrows n' :=
  ⟨h.mode, fun hf => h.db ▸ hf, fun _ hb => h.db ▸ hb⟩

/-- The connection does not change its phase. -/
def SamePhase (n n' : Node) : Prop := n'.conn.phase = n.conn.phase

theorem SamePhase.refl (n : Node) : n.SamePhase n := rfl

theorem SamePhase.trans {n₁ n₂ n₃ : Node} (h : n₁.SamePhase n₂) (h' : n₂.SamePhase n₃) :
    n₁.SamePhase n₃ := Eq.trans h' h

end Node

namespace Session

variable {α β : Type} {R : Node → Node → Prop}

/-- The node that a step leaves behind. -/
def outcome (s : Session α) (n : Node) : Node :=
  match s n with
  | .ok _ n' => n'
  | .error _ n' => n'

theorem outcome_of_ok {s : Session α} {n n' : Node} {a : α} (h : s n = .ok a n') :
    s.outcome n = n' := by
  rw [outcome, h]

theorem outcome_of_error {s : Session α} {n n' : Node} {f : Fault} (h : s n = .error f n') :
    s.outcome n = n' := by
  rw [outcome, h]

/-- What relates a node to what the step makes of it. -/
def Keeps (R : Node → Node → Prop) (s : Session α) : Prop := ∀ n, R n (s.outcome n)

theorem Keeps.of_ok {s : Session α} (h : Keeps R s) {n n' : Node} {a : α} (hs : s n = .ok a n') :
    R n n' := outcome_of_ok hs ▸ h n

theorem Keeps.of_error {s : Session α} (h : Keeps R s) {n n' : Node} {f : Fault}
    (hs : s n = .error f n') : R n n' := outcome_of_error hs ▸ h n

theorem bind_of_ok {s : Session α} {f : α → Session β} {n n' : Node} {a : α}
    (h : s n = .ok a n') : (s >>= f) n = f a n' := by
  simp only [bind, EStateM.bind, h]

theorem bind_of_error {s : Session α} {f : α → Session β} {n n' : Node} {e : Fault}
    (h : s n = .error e n') : (s >>= f) n = .error e n' := by
  simp only [bind, EStateM.bind, h]

@[simp] theorem pure_apply (a : α) (n : Node) : (pure a : Session α) n = .ok a n := rfl

@[simp] theorem get_apply (n : Node) : (get : Session Node) n = .ok n n := rfl

@[simp] theorem connection_apply (n : Node) : Session.connection n = .ok n.conn n := rfl

@[simp] theorem modifyConnection_apply (f : Connection → Connection) (n : Node) :
    Session.modifyConnection f n = .ok () { n with conn := f n.conn } := rfl

@[simp] theorem ofExcept_ok (a : α) (n : Node) : ofExcept (.ok a) n = .ok a n := rfl

@[simp] theorem ofExcept_error (f : Fault) (n : Node) :
    (ofExcept (.error f) : Session α) n = .error f n := rfl

/-- A successful chain of two steps, taken apart. -/
theorem bind_eq_ok {s : Session α} {f : α → Session β} {n n' : Node} {b : β}
    (h : (s >>= f) n = .ok b n') : ∃ a n₁, s n = .ok a n₁ ∧ f a n₁ = .ok b n' := by
  cases hs : s n with
  | ok a n₁ => exact ⟨a, n₁, rfl, (bind_of_ok hs).symm.trans h⟩
  | error e n₁ =>
    rw [bind_of_error hs] at h
    cases h

theorem ofExcept_eq_ok {x : Except Fault α} {n n' : Node} {a : α}
    (h : ofExcept x n = .ok a n') : x = .ok a ∧ n' = n := by
  cases x with
  | ok a' =>
    cases h
    exact ⟨rfl, rfl⟩
  | error f => cases h

/-- What a chain of two steps does to a node, when both do it. -/
theorem outcome_bind (htrans : ∀ n₁ n₂ n₃, R n₁ n₂ → R n₂ n₃ → R n₁ n₃) {s : Session α}
    {f : α → Session β} {n : Node} (hs : R n (s.outcome n))
    (hf : ∀ a n', s n = .ok a n' → R n' ((f a).outcome n')) : R n ((s >>= f).outcome n) := by
  cases h : s n with
  | ok a n' =>
    rw [outcome_of_ok h] at hs
    rw [outcome, bind_of_ok h]
    exact htrans _ _ _ hs (hf a n' h)
  | error e n' =>
    rw [outcome_of_error h] at hs
    rw [outcome, bind_of_error h]
    exact hs

theorem Keeps.bind (htrans : ∀ n₁ n₂ n₃, R n₁ n₂ → R n₂ n₃ → R n₁ n₃) {s : Session α}
    {f : α → Session β} (hs : Keeps R s) (hf : ∀ a, Keeps R (f a)) : Keeps R (s >>= f) :=
  fun n => outcome_bind htrans (hs n) fun a n' _ => hf a n'

theorem Keeps.pure (hrefl : ∀ n, R n n) (a : α) : Keeps R (pure a : Session α) := fun n => hrefl n

theorem Keeps.throw (hrefl : ∀ n, R n n) (f : Fault) : Keeps R (throw f : Session α) :=
  fun n => hrefl n

theorem Keeps.connection (hrefl : ∀ n, R n n) : Keeps R Session.connection := fun n => hrefl n

theorem Keeps.ofExcept (hrefl : ∀ n, R n n) (x : Except Fault α) : Keeps R (ofExcept x) := by
  cases x with
  | ok a => exact Keeps.pure hrefl a
  | error f => exact Keeps.throw hrefl f

theorem Keeps.modifyConnection {f : Connection → Connection}
    (h : ∀ n : Node, R n { n with conn := f n.conn }) : Keeps R (Session.modifyConnection f) := h

theorem onConnection_of_ok {f : Connection → Except Fault Connection} {n : Node} {c : Connection}
    (h : f n.conn = .ok c) : onConnection f n = .ok () { n with conn := c } := by
  simp only [onConnection, bind_of_ok (connection_apply n), h, bind_of_ok (ofExcept_ok c n),
    modifyConnection_apply]

theorem onConnection_of_error {f : Connection → Except Fault Connection} {n : Node} {e : Fault}
    (h : f n.conn = .error e) : onConnection f n = .error e n := by
  simp only [onConnection, bind_of_ok (connection_apply n), h, bind_of_error (ofExcept_error e n)]

theorem Keeps.onConnection {f : Connection → Except Fault Connection} (hrefl : ∀ n, R n n)
    (h : ∀ (n : Node) c, f n.conn = .ok c → R n { n with conn := c }) :
    Keeps R (Session.onConnection f) := by
  intro n
  cases hf : f n.conn with
  | ok c =>
    rw [outcome_of_ok (onConnection_of_ok hf)]
    exact h n c hf
  | error e =>
    rw [outcome_of_error (onConnection_of_error hf)]
    exact hrefl n

theorem onDatabase_of_ok {f : Database → Except StoreError (α × Database)} {n : Node} {a : α}
    {db : Database} (h : f n.db = .ok (a, db)) : onDatabase f n = .ok a { n with db } := by
  simp only [onDatabase, bind_of_ok (get_apply n), h]
  rfl

theorem onDatabase_of_error {f : Database → Except StoreError (α × Database)} {n : Node}
    {cause : StoreError} (h : f n.db = .error cause) :
    onDatabase f n = .error (.store cause) n := by
  simp only [onDatabase, bind_of_ok (get_apply n), h]
  rfl

theorem Keeps.onDatabase {f : Database → Except StoreError (α × Database)} (hrefl : ∀ n, R n n)
    (h : ∀ (n : Node) a db, f n.db = .ok (a, db) → R n { n with db }) :
    Keeps R (Session.onDatabase f) := by
  intro n
  cases hf : f n.db with
  | ok r =>
    obtain ⟨a, db⟩ := r
    rw [outcome_of_ok (onDatabase_of_ok hf)]
    exact h n a db hf
  | error cause =>
    rw [outcome_of_error (onDatabase_of_error hf)]
    exact hrefl n

theorem Keeps.mono {R' : Node → Node → Prop} (himp : ∀ {n n'}, R n n' → R' n n') {s : Session α}
    (h : Keeps R s) : Keeps R' s := fun n => himp (h n)

theorem discard_eq (s : Session α) : discard s = (s >>= fun _ => pure ()) := by
  funext n
  show EStateM.map _ s n = _
  rw [EStateM.map]
  cases h : s n with
  | ok a n' =>
    rw [bind_of_ok h]
    rfl
  | error e n' => rw [bind_of_error h]

theorem discard_onDatabase_of_ok {f : Database → Except StoreError (α × Database)} {n : Node}
    {a : α} {db : Database} (h : f n.db = .ok (a, db)) :
    discard (onDatabase f) n = .ok () { n with db } := by
  rw [discard_eq, bind_of_ok (onDatabase_of_ok h)]
  rfl

theorem discard_onDatabase_of_error {f : Database → Except StoreError (α × Database)} {n : Node}
    {cause : StoreError} (h : f n.db = .error cause) :
    discard (onDatabase f) n = .error (.store cause) n := by
  rw [discard_eq, bind_of_error (onDatabase_of_error h)]

theorem outcome_discard (s : Session α) (n : Node) :
    (discard s).outcome n = s.outcome n := by
  rw [discard_eq]
  cases hs : s n with
  | ok a n' =>
    rw [outcome, bind_of_ok hs, outcome_of_ok hs]
    rfl
  | error e n' =>
    rw [outcome, bind_of_error hs, outcome_of_error hs]

theorem Keeps.discard {s : Session α} (h : Keeps R s) : Keeps R (discard s) := by
  intro n
  rw [outcome_discard]
  exact h n

theorem Keeps.stays_bind {s : Session α} {f : α → Session β} (hs : Keeps Node.Stays s)
    (hf : ∀ a, Keeps Node.Stays (f a)) : Keeps Node.Stays (s >>= f) :=
  Keeps.bind (R := Node.Stays) (fun _ _ _ => Node.Stays.trans) hs hf

theorem send_outcome (m : Message) (n : Node) :
    ∃ line, (send m).outcome n = { n with conn := { n.conn with line } } := by
  cases hsend : n.conn.send m with
  | error f => exact ⟨_, outcome_of_error (onConnection_of_error hsend)⟩
  | ok c =>
    obtain ⟨frame, line, -, -, rfl⟩ := Connection.send_ok hsend
    exact ⟨line, outcome_of_ok (onConnection_of_ok hsend)⟩

theorem send_stays (m : Message) : Keeps Node.Stays (send m) := by
  intro n
  obtain ⟨line, h⟩ := send_outcome m n
  rw [h]
  exact ⟨rfl, rfl, rfl⟩

/-- A speaker that is on sends what changed, and notes it as told when all of it went out. -/
theorem advertise_eq (v : Version) (n : Node) : advertise v n =
    if n.conn.phase ≠ .on ∨ ¬n.conn.mode.isSpeaker then .ok 0 n
    else
      let next := exported n.conn n.db
      match (n.conn.composer v).frames (difference n.conn.advertised next).1
          (difference n.conn.advertised next).2 with
      | .error f => .error f n
      | .ok frames =>
        match n.conn.sendAll frames with
        | (.ok (), c) => .ok frames.length { n with conn := { c with advertised := next } }
        | (.error f, c) => .error f { n with conn := c } := by
  rw [advertise, bind_of_ok (get_apply n)]
  dsimp only
  split
  · rfl
  · cases (n.conn.composer v).frames (difference n.conn.advertised (exported n.conn n.db)).1
      (difference n.conn.advertised (exported n.conn n.db)).2 with
    | error f => rfl
    | ok frames =>
      rw [bind_of_ok (ofExcept_ok frames n)]
      dsimp only
      generalize n.conn.sendAll frames = sent
      rcases sent with ⟨_ | _, c⟩ <;> rfl

/-- An export that fails on the way has sent the frames before. -/
theorem advertise_outcome (v : Version) (n : Node) : ∃ front line advertised,
    (advertise v).outcome n = { n with conn := { n.conn with line, advertised } } ∧
      n.conn.line.Extends front line ∧
      ∀ frame ∈ front, ∃ frames, (n.conn.composer v).frames
        (difference n.conn.advertised (exported n.conn n.db)).1
        (difference n.conn.advertised (exported n.conn n.db)).2 = .ok frames ∧ frame ∈ frames := by
  by_cases hidle : n.conn.phase ≠ .on ∨ ¬n.conn.mode.isSpeaker = true
  · have h : advertise v n = .ok 0 n := by rw [advertise_eq, if_pos hidle]
    rw [outcome_of_ok h]
    exact ⟨[], _, _, rfl, .refl _, by simp⟩
  · have h := advertise_eq v n
    rw [if_neg hidle] at h
    dsimp only at h
    split at h
    · rw [outcome_of_error h]
      exact ⟨[], _, _, rfl, .refl _, by simp⟩
    · next frames hframes =>
      obtain ⟨front, rest, line, rfl, hextends, hsent, -⟩ :=
        Connection.sendAll_extends frames n.conn
      have hmem : ∀ frame ∈ front, ∃ frames, (n.conn.composer v).frames
          (difference n.conn.advertised (exported n.conn n.db)).1
          (difference n.conn.advertised (exported n.conn n.db)).2 = .ok frames ∧
            frame ∈ frames :=
        fun frame hframe => ⟨_, hframes, List.mem_append_left rest hframe⟩
      split at h
      · next c hc =>
        rw [outcome_of_ok h]
        rw [hc] at hsent
        cases hsent
        exact ⟨front, _, _, rfl, hextends, hmem⟩
      · next f c hc =>
        rw [outcome_of_error h]
        rw [hc] at hsent
        cases hsent
        exact ⟨front, _, _, rfl, hextends, hmem⟩

theorem advertise_stays (v : Version) : Keeps Node.Stays (advertise v) := by
  intro n
  obtain ⟨front, line, advertised, h, -⟩ := advertise_outcome v n
  rw [h]
  exact ⟨rfl, rfl, rfl⟩

end Session

/-- The capabilities that an opening leaves a connection with under the version agreed on. -/
def Opening.granted (v : Version) (o : Opening) : Except Fault (List Capability) :=
  if v.isLegacy then .ok (Capability.ofVersion v)
  else
    match o.declared with
    | .ok list => .ok list
    | .error f => if o.mode.isListener then .error f else .ok []

/-- What a connection notes of an opening. -/
def Connection.met (o : Opening) (capabilities : List Capability) (c : Connection) : Connection :=
  { c with
    version := min c.version o.version
    capabilities
    remoteNodeId := o.nodeId? <|> c.line.peer.addr4? }

/-- The timers of an agreed version. -/
def Connection.timed (o : Opening) (c : Connection) : Except Fault Connection :=
  if c.version.isLegacy then .ok c else c.negotiate o.holdTime?

/-- Negotiation only sets the timers. -/
theorem Connection.negotiate_ok {offer : Option HoldTime} {c c' : Connection}
    (h : c.negotiate offer = .ok c') :
    ∃ holdTime keepaliveTime, c' = { c with holdTime, keepaliveTime } := by
  cases offer with
  | none =>
    cases h
    exact ⟨_, _, rfl⟩
  | some offered =>
    rw [negotiate] at h
    split at h
    · cases h
      exact ⟨_, _, rfl⟩
    · split at h
      · dsimp only at h
        split at h <;> cases h
        exact ⟨_, _, rfl⟩
      · split at h <;> cases h
        exact ⟨_, _, rfl⟩

theorem Connection.timed_ok {o : Opening} {c c' : Connection} (h : c.timed o = .ok c') :
    ∃ holdTime keepaliveTime, c' = { c with holdTime, keepaliveTime } := by
  rw [timed] at h
  split at h
  · cases h
    exact ⟨_, _, rfl⟩
  · exact negotiate_ok h

namespace Session

/-- First the mode, then the version and the capabilities, then the timers. -/
theorem accept_eq (o : Opening) (n : Node) : accept o n =
    if !n.conn.mode.complements o.mode then .error (.modeMismatch n.conn.mode o.mode) n
    else
      match o.granted (min n.conn.version o.version) with
      | .error f => .error f { n with conn.version := min n.conn.version o.version }
      | .ok list =>
        match (n.conn.met o list).timed o with
        | .error f => .error f { n with conn := n.conn.met o list }
        | .ok c => .ok () { n with conn := c } := by
  have hrecord (list : List Capability) :
      ((modifyConnection fun c => { c with
          capabilities := list, remoteNodeId := o.nodeId? <|> n.conn.line.peer.addr4? }) >>= fun _ =>
        if !(min n.conn.version o.version).isLegacy then
          onConnection (Connection.negotiate o.holdTime?)
        else pure () : Session Unit) { n with conn.version := min n.conn.version o.version } =
      match (n.conn.met o list).timed o with
      | .error f => .error f { n with conn := n.conn.met o list }
      | .ok c => .ok () { n with conn := c } := by
    rw [bind_of_ok (modifyConnection_apply _ _), Connection.timed]
    by_cases hlegacy : (min n.conn.version o.version).isLegacy = true
    · have hmet : (n.conn.met o list).version.isLegacy = true := hlegacy
      rw [if_neg (by simp [hlegacy]), if_pos hmet]
      rfl
    · have hmet : ¬(n.conn.met o list).version.isLegacy = true := hlegacy
      rw [if_pos (by simp [hlegacy]), if_neg hmet]
      cases hnegotiate : (n.conn.met o list).negotiate o.holdTime? with
      | ok c => exact onConnection_of_ok (n := { n with conn := n.conn.met o list }) hnegotiate
      | error f =>
        exact onConnection_of_error (n := { n with conn := n.conn.met o list }) hnegotiate
  rw [accept, bind_of_ok (connection_apply n)]
  dsimp only
  split
  · rfl
  · rw [bind_of_ok (modifyConnection_apply _ _), Opening.granted]
    split
    · rw [bind_of_ok (pure_apply _ _)]
      exact hrecord _
    · cases o.declared with
      | ok list =>
        dsimp only
        rw [bind_of_ok (pure_apply _ _)]
        exact hrecord _
      | error f =>
        dsimp only
        split
        · rfl
        · rw [bind_of_ok (pure_apply _ _)]
          exact hrecord _

theorem accept_ok {o : Opening} {n n' : Node} {u : Unit} (h : accept o n = .ok u n') :
    ∃ list c, (n.conn.met o list).timed o = .ok c ∧ n' = { n with conn := c } := by
  rw [accept_eq] at h
  split at h
  · cases h
  · split at h
    · cases h
    · next list _ =>
      split at h
      · cases h
      · next c hc =>
        cases h
        exact ⟨list, c, hc, rfl⟩

/-- What accepting an opening can change, whether or not it succeeds. -/
theorem accept_outcome (o : Opening) (n : Node) :
    ∃ version capabilities remoteNodeId holdTime keepaliveTime,
      (accept o).outcome n = { n with conn := { n.conn with
        version, capabilities, remoteNodeId, holdTime, keepaliveTime } } ∧
      (version = n.conn.version ∨ version = min n.conn.version o.version) := by
  have h := accept_eq o n
  split at h
  · rw [outcome_of_error h]
    exact ⟨_, _, _, _, _, rfl, .inl rfl⟩
  · split at h
    · rw [outcome_of_error h]
      exact ⟨_, _, _, _, _, rfl, .inr rfl⟩
    · split at h
      · rw [outcome_of_error h]
        exact ⟨_, _, _, _, _, rfl, .inr rfl⟩
      · next c hc =>
        obtain ⟨holdTime, keepaliveTime, rfl⟩ := Connection.timed_ok hc
        rw [outcome_of_ok h]
        exact ⟨_, _, _, _, _, rfl, .inr rfl⟩

theorem accept_stays (o : Opening) : Keeps Node.Stays (accept o) := by
  intro n
  obtain ⟨version, capabilities, remoteNodeId, holdTime, keepaliveTime, h, -⟩ := accept_outcome o n
  rw [h]
  exact ⟨rfl, rfl, rfl⟩

theorem purge_narrows : Keeps Node.Narrows purge := by
  apply Keeps.bind (R := Node.Narrows) (fun _ _ _ => Node.Narrows.trans)
    (Keeps.connection Node.Narrows.refl)
  intro conn
  apply Keeps.discard
  apply Keeps.onDatabase Node.Narrows.refl
  intro n doomed db hdb
  exact ⟨rfl, fun hfiled => Database.filed_deleteWhere hdb hfiled,
    fun b hb => Database.mem_deleteWhere hdb hb⟩

theorem purge_eq (n : Node) : purge n =
    match n.db.purge n.conn.remoteId with
    | .ok (_, db) => .ok () { n with db }
    | .error cause => .error (.store cause) n := by
  rw [purge, bind_of_ok (connection_apply n)]
  cases h : n.db.purge n.conn.remoteId with
  | ok r => exact discard_onDatabase_of_ok h
  | error cause => exact discard_onDatabase_of_error h

theorem purge_eq_ok {n n' : Node} : purge n = .ok () n' ↔
    ∃ purged db, n.db.purge n.conn.remoteId = .ok (purged, db) ∧ n' = { n with db } := by
  rw [purge_eq]
  cases h : n.db.purge n.conn.remoteId with
  | ok r =>
    constructor
    · intro heq
      cases heq
      exact ⟨r.1, r.2, rfl, rfl⟩
    · rintro ⟨purged, db, hr, rfl⟩
      cases hr
      rfl
  | error cause =>
    constructor
    · intro heq
      cases heq
    · rintro ⟨purged, db, hr, -⟩
      cases hr

theorem purge_outcome (n : Node) : ∃ db, purge.outcome n = { n with db } := by
  rw [outcome, purge_eq]
  cases n.db.purge n.conn.remoteId with
  | ok r => exact ⟨r.2, rfl⟩
  | error cause => exact ⟨n.db, rfl⟩

theorem purge_samePhase : Keeps Node.SamePhase purge := by
  intro n
  obtain ⟨db, h⟩ := purge_outcome n
  rw [h]
  exact rfl

/-- The connection is on, and a speaker makes its first export. -/
theorem turnOn_eq (n : Node) : turnOn n =
    if n.conn.mode.isSpeaker then
      (discard (advertise n.conn.version) : Session Unit) { n with conn.phase := .on }
    else .ok () { n with conn.phase := .on } := by
  rw [turnOn, setPhase, bind_of_ok (modifyConnection_apply _ n), bind_of_ok (connection_apply _)]
  dsimp only
  split <;> rfl

/-- A speaker is on and then makes its first export. -/
theorem turnOn_outcome {n : Node} (h : n.conn.mode.isSpeaker = true) :
    turnOn.outcome n = (advertise n.conn.version).outcome { n with conn.phase := .on } := by
  rw [outcome, turnOn_eq, if_pos h, ← outcome, outcome_discard]

/-- What turning on can change, whether or not the peer could be told all. -/
theorem turnOn_changes (n : Node) : ∃ line advertised,
    turnOn.outcome n = { n with conn := { n.conn with phase := .on, line, advertised } } := by
  by_cases hmode : n.conn.mode.isSpeaker = true
  · obtain ⟨front, line, advertised, h, -⟩ :=
      advertise_outcome n.conn.version { n with conn.phase := .on }
    rw [turnOn_outcome hmode, h]
    exact ⟨line, advertised, rfl⟩
  · rw [outcome, turnOn_eq, if_neg hmode]
    exact ⟨_, _, rfl⟩

theorem turnOn_narrows : Keeps Node.Narrows turnOn := by
  intro n
  obtain ⟨line, advertised, h⟩ := turnOn_changes n
  rw [h]
  exact ⟨rfl, id, fun _ => id⟩

theorem turnOn_phase (n : Node) : (turnOn.outcome n).conn.phase = .on := by
  obtain ⟨line, advertised, h⟩ := turnOn_changes n
  rw [h]

/-- First the deletion, then the addition of what has not been through this node. An empty list
asks for nothing and changes nothing. -/
theorem learn_eq (changes : Changes) (n : Node) : learn changes n =
    match n.db.deleteFrom n.conn.remoteId changes.delete with
    | .error cause => .error (.store cause) n
    | .ok (_, db) =>
      match db.add (changes.add.filter fun b => !b.path.contains n.conn.localId) with
      | .error cause => .error (.store cause) { n with db }
      | .ok (_, db) => .ok () { n with db } := by
  have hadd (db : Database) (add : List Binding) :
      (if add ≠ [] then discard <| onDatabase fun db => db.add add else pure () : Session Unit)
          { n with db } =
        match db.add add with
        | .error cause => .error (.store cause) { n with db }
        | .ok (_, db) => .ok () { n with db } := by
    by_cases hnone : add = []
    · rw [if_neg (not_not.2 hnone), hnone]
      rfl
    · rw [if_pos hnone]
      cases h : db.add add with
      | error cause => exact discard_onDatabase_of_error (n := { n with db }) h
      | ok r => exact discard_onDatabase_of_ok (n := { n with db }) h
  have hlearn : learn changes n =
      ((if changes.delete ≠ [] then
          discard <| onDatabase fun db => db.deleteFrom n.conn.remoteId changes.delete
        else pure ()) >>= fun _ =>
      if changes.add.filter (fun b => !b.path.contains n.conn.localId) ≠ [] then
        discard <| onDatabase fun db =>
          db.add (changes.add.filter fun b => !b.path.contains n.conn.localId)
      else pure () : Session Unit) n := by
    rw [learn, bind_of_ok (connection_apply n)]
    by_cases hnone : changes.delete = []
    · rw [if_neg (not_not.2 hnone), if_neg (not_not.2 hnone)]
      rfl
    · rw [if_pos hnone, if_pos hnone]
  rw [hlearn]
  cases hdelete : n.db.deleteFrom n.conn.remoteId changes.delete with
  | error cause =>
    have hne : changes.delete ≠ [] := by
      intro hnone
      rw [hnone] at hdelete
      cases hdelete
    rw [if_pos hne, bind_of_error (discard_onDatabase_of_error hdelete)]
  | ok r =>
    obtain ⟨doomed, db⟩ := r
    by_cases hnone : changes.delete = []
    · have hdb : db = n.db := by
        rw [hnone] at hdelete
        cases hdelete
        rfl
      subst hdb
      rw [if_neg (not_not.2 hnone), bind_of_ok (pure_apply () n)]
      exact hadd n.db _
    · rw [if_pos hnone, bind_of_ok (discard_onDatabase_of_ok hdelete)]
      exact hadd db _

theorem learn_outcome (changes : Changes) (n : Node) :
    ∃ db, (learn changes).outcome n = { n with db } := by
  have h := learn_eq changes n
  split at h
  · exact ⟨n.db, outcome_of_error h⟩
  · split at h
    · exact ⟨_, outcome_of_error h⟩
    · exact ⟨_, outcome_of_ok h⟩

/-- Learning may fail between the deletion and the addition; then nothing has come in. -/
theorem learn_keeps (changes : Changes) (n : Node) :
    n.Steady ((learn changes).outcome n) ∧ n.SamePhase ((learn changes).outcome n) ∧
      ∀ f n', learn changes n = .error f n' → n.Narrows n' := by
  have h := learn_eq changes n
  split at h
  · rw [outcome_of_error h, h]
    refine ⟨Node.Steady.refl n, rfl, ?_⟩
    intro f n' hn'
    cases hn'
    exact Node.Narrows.refl n
  · next doomed db hdelete =>
    have hnarrows : n.Narrows { n with db } :=
      ⟨rfl, fun hfiled => Database.filed_deleteWhere hdelete hfiled,
        fun b hb => Database.mem_deleteWhere hdelete hb⟩
    split at h
    · rw [outcome_of_error h, h]
      refine ⟨hnarrows.steady, rfl, ?_⟩
      intro f n' hn'
      cases hn'
      exact hnarrows
    · next winners db' hadd =>
      rw [outcome_of_ok h, h]
      refine ⟨⟨rfl, fun hfiled => Database.filed_add hadd (hnarrows.filed hfiled)⟩, rfl, ?_⟩
      intro f n' hn'
      cases hn'

theorem learn_of_accepts {n : Node} (h : n.db.store.Accepts) (changes : Changes) :
    ∃ db, learn changes n = .ok () { n with db } ∧ db.store.Accepts := by
  obtain ⟨doomed, db, hdelete, haccepts⟩ := Database.deleteWhere_of_accepts h
    (fun b => b.learnedFrom == some n.conn.remoteId) changes.delete
  obtain ⟨winners, db', hadd, haccepts'⟩ := Database.add_of_accepts haccepts
    (changes.add.filter fun b => !b.path.contains n.conn.localId)
  have hlearn := learn_eq changes n
  have hdelete' : n.db.deleteFrom n.conn.remoteId changes.delete = .ok (doomed, db) := hdelete
  rw [hdelete'] at hlearn
  dsimp only at hlearn
  rw [hadd] at hlearn
  exact ⟨db', hlearn, haccepts'⟩

theorem Keeps.narrows_bind {s : Session α} {f : α → Session β} (hs : Keeps Node.Narrows s)
    (hf : ∀ a, Keeps Node.Narrows (f a)) : Keeps Node.Narrows (s >>= f) :=
  Keeps.bind (R := Node.Narrows) (fun _ _ _ => Node.Narrows.trans) hs hf

end Session

end TagExchange
