import TagExchange.Proofs.Session.Attribution

/-!
# What a fault leaves of the database

An update is written in two parts, first what it withdraws and then what it announces, and a store
may take the one and refuse the other. That is the only way in which a frame that is a fault can
change the database: then what was withdrawn is gone and nothing has come in. After every other
fault the table, the log, the generation, the watchers and what the store holds are as they were
(`Session.hearAmid_error`). While the store does not change its mind between the two writes a fault
changes nothing at all (`Session.hear_error_db`).
-/

namespace TagExchange

namespace Store

/-- A store without its decisions: what it holds. -/
def plain (s : Store) : Store := s.refuse false false

/-- What may happen to a store between two writes: its decisions change, what it holds does not. -/
structure Turn where
  apply : Store → Store
  plain_apply : ∀ s, (apply s).plain = s.plain

namespace Turn

/-- The store keeps its mind. -/
def keep : Turn := ⟨id, fun _ => rfl⟩

/-- The store decides anew. -/
def refuse (writes reads : Bool) : Turn where
  apply s := s.refuse writes reads
  plain_apply s := by cases s <;> rfl

end Turn

theorem commit_refused {s : Store} (h : ¬ s.Accepts) (delete merge : List Binding) :
    s.commit delete merge = .error .refused := by
  cases s with
  | none => exact absurd trivial h
  | memory m =>
    have hm : m.refusesWrites = true := by simpa [Accepts] using h
    simp [commit, MemoryStore.commit, hm, Except.map]
  | tree t => exact absurd trivial h

end Store

namespace Database

variable {db db' : Database}

/-- A database without the decisions of its store. -/
def plain (db : Database) : Database := { db with store := db.store.plain }

/-- The database while the store behind it turns. -/
def turned (turn : Store.Turn) (db : Database) : Database :=
  { db with store := turn.apply db.store }

theorem plain_turned (turn : Store.Turn) (db : Database) : (db.turned turn).plain = db.plain := by
  rw [plain, plain, turned, turn.plain_apply]

theorem add_error {batch : List Binding} {cause : StoreError} (h : db.add batch = .error cause) :
    cause = .refused ∧ ¬ db.store.Accepts := by
  have hrefuses : ¬ db.store.Accepts := by
    intro haccepts
    obtain ⟨winners, db', hadd, -⟩ := add_of_accepts haccepts batch
    rw [h] at hadd
    cases hadd
  refine ⟨?_, hrefuses⟩
  rw [add] at h
  split at h
  · cases h
  · dsimp only at h
    rw [Store.commit_refused hrefuses] at h
    cases h
    rfl

/-- A store that has let something be deleted takes writes. -/
theorem accepts_of_deleteWhere {selects : Binding → Bool} {nets : List Network}
    {doomed : List Binding} (h : db.deleteWhere selects nets = .ok (doomed, db'))
    (hsome : doomed ≠ []) : db'.store.Accepts := by
  by_cases haccepts : db.store.Accepts
  · obtain ⟨doomed', db₁, hdelete, haccepts'⟩ := deleteWhere_of_accepts haccepts selects nets
    rw [h] at hdelete
    cases hdelete
    exact haccepts'
  · obtain ⟨-, ⟨hnone, -⟩ | ⟨-, store, hstore, -⟩⟩ := deleteWhere_cases h
    · exact absurd hnone hsome
    · rw [Store.commit_refused haccepts] at hstore
      cases hstore

end Database

namespace Session

variable {n n' : Node} {f : Fault} {turn : Store.Turn}

theorem learn_delete_eq (nets : List Network) (n : Node) : learn { delete := nets } n =
    match n.db.deleteFrom n.conn.remoteId nets with
    | .error cause => .error (.store cause) n
    | .ok (_, db) => .ok () { n with db } := by
  rw [learn_eq]
  cases n.db.deleteFrom n.conn.remoteId nets with
  | error cause => rfl
  | ok r => rfl

theorem learn_add_eq (add : List Binding) (n : Node) : learn { add } n =
    match n.db.add (add.filter fun b => !b.path.contains n.conn.localId) with
    | .error cause => .error (.store cause) n
    | .ok (_, db) => .ok () { n with db } := by
  rw [learn_eq]
  rfl

/-- As `learn`, and between the two writes the store may turn. -/
def learnAmid (turn : Store.Turn) (changes : Changes) : Session Unit := do
  learn { delete := changes.delete }
  modify fun n => { n with db := n.db.turned turn }
  learn { add := changes.add }

theorem learnAmid_eq (turn : Store.Turn) (changes : Changes) (n : Node) : learnAmid turn changes n =
    match n.db.deleteFrom n.conn.remoteId changes.delete with
    | .error cause => .error (.store cause) n
    | .ok (_, db) =>
      match (db.turned turn).add (changes.add.filter fun b => !b.path.contains n.conn.localId) with
      | .error cause => .error (.store cause) { n with db := db.turned turn }
      | .ok (_, db) => .ok () { n with db } := by
  have hdelete := learn_delete_eq changes.delete n
  cases h : n.db.deleteFrom n.conn.remoteId changes.delete with
  | error cause =>
    rw [h] at hdelete
    rw [learnAmid, bind_of_error hdelete]
  | ok r =>
    obtain ⟨doomed, db⟩ := r
    rw [h] at hdelete
    rw [learnAmid, bind_of_ok hdelete]
    exact learn_add_eq changes.add { n with db := db.turned turn }

/-- A store that keeps its mind makes no difference. -/
theorem learnAmid_keep (changes : Changes) : learnAmid .keep changes = learn changes := by
  funext n
  rw [learnAmid_eq, learn_eq]
  rfl

/-- As `receive`, and the store may turn while an update is learned. -/
def receiveAmid (turn : Store.Turn) (now : Instant) (m : Message) : Session Unit := do
  match m with
  | .update attributes =>
    checkListening
    learnAmid turn (← ofExcept (Update.changes now attributes))
  | .legacyUpdate _ records =>
    checkListening
    learnAmid turn (LegacyUpdate.changes (← connection).remoteId now records)
  | _ => receive now m

/-- As `hear`, and the store may turn while an update is learned. -/
def hearAmid (turn : Store.Turn) (now : Instant) (frame : Bytes) : Session Unit := fun node =>
  match Message.ofFrame node.conn.version frame with
  | .error f => .error f { node with conn := node.conn.shutDown node.conn.version f }
  | .ok m =>
    match receiveAmid turn now m node with
    | .ok () node => .ok () node
    | .error f node => .error f { node with conn := node.conn.shutDown node.conn.version f }

theorem receiveAmid_keep (now : Instant) (m : Message) :
    receiveAmid .keep now m = receive now m := by
  cases m <;> simp only [receiveAmid, receive, learnAmid_keep]

theorem hearAmid_keep (now : Instant) (frame : Bytes) :
    hearAmid .keep now frame = hear now frame := by
  funext n
  rw [hearAmid, hear, understand_eq]
  cases Message.ofFrame n.conn.version frame with
  | error f => rfl
  | ok m =>
    dsimp only
    rewrite [receiveAmid_keep]
    cases receive now m n <;> rfl

/-- What learning does to the database when it is a fault. -/
theorem learnAmid_error {c : Changes} (h : learnAmid turn c n = .error f n') :
    (∃ cause, n.db.deleteFrom n.conn.remoteId c.delete = .error cause ∧ n'.db = n.db) ∨
      ∃ doomed db, n.db.deleteFrom n.conn.remoteId c.delete = .ok (doomed, db) ∧
        f = .store .refused ∧ ¬ (turn.apply db.store).Accepts ∧ n'.db = db.turned turn := by
  rw [learnAmid_eq] at h
  split at h
  · next cause hdelete =>
    cases h
    exact .inl ⟨cause, hdelete, rfl⟩
  · next doomed db hdelete =>
    split at h
    · next cause hadd =>
      cases h
      obtain ⟨rfl, hrefuses⟩ := Database.add_error hadd
      exact .inr ⟨doomed, db, hdelete, rfl, hrefuses, rfl⟩
    · cases h

theorem receiveAmid_update (now : Instant) {m : Message} (hm : m.type = .update) :
    receiveAmid turn now m n =
      if n.conn.phase ≠ .on ∨ ¬n.conn.mode.isListener = true then
        .error (.updatePhase n.conn.phase) n
      else
        match m.changes n.conn.remoteId now with
        | .error f => .error f n
        | .ok c => learnAmid turn c n := by
  have hcheck := checkListening_eq n
  cases m with
  | update attributes =>
    rw [receiveAmid]
    split
    · next hidle => rw [bind_of_error (hcheck.trans (if_pos hidle))]
    · next hlistens =>
      rw [bind_of_ok (hcheck.trans (if_neg hlistens)), Message.changes]
      cases Update.changes now attributes <;> rfl
  | legacyUpdate version records =>
    rw [receiveAmid]
    split
    · next hidle => rw [bind_of_error (hcheck.trans (if_pos hidle))]
    · next hlistens => rw [bind_of_ok (hcheck.trans (if_neg hlistens))]; rfl
  | _ => cases hm

theorem receiveAmid_other (now : Instant) {m : Message} (hm : m.type ≠ .update) :
    receiveAmid turn now m = receive now m := by
  cases m with
  | update | legacyUpdate => exact absurd rfl hm
  | _ => rfl

end Session

namespace Node

/-- The database stays. -/
def Spares (n n' : Node) : Prop := n'.db = n.db

theorem Spares.refl (n : Node) : n.Spares n := rfl

theorem Spares.trans {n₁ n₂ n₃ : Node} (h : n₁.Spares n₂) (h' : n₂.Spares n₃) : n₁.Spares n₃ :=
  Eq.trans h' h

/-- A frame is an update for this node which withdraws something that the store lets go. -/
def Withdraws (n : Node) (now : Instant) (frame : Bytes) (db : Database) : Prop :=
  ∃ m c b doomed, Message.ofFrame n.conn.version frame = .ok m ∧ m.type = .update ∧
    n.conn.phase = .on ∧ n.conn.mode.isListener = true ∧
    m.changes n.conn.remoteId now = .ok c ∧
    n.db.deleteFrom n.conn.remoteId c.delete = .ok (b :: doomed, db)

end Node

namespace Session

variable {n n' : Node} {f : Fault} {turn : Store.Turn} {now : Instant}

theorem Keeps.spares_bind {α β : Type} {s : Session α} {f : α → Session β}
    (hs : Keeps Node.Spares s) (hf : ∀ a, Keeps Node.Spares (f a)) : Keeps Node.Spares (s >>= f) :=
  Keeps.bind (R := Node.Spares) (fun _ _ _ => Node.Spares.trans) hs hf

theorem turnOn_spares : Keeps Node.Spares turnOn := by
  intro n
  obtain ⟨line, advertised, h⟩ := turnOn_changes n
  rw [h]
  rfl

/-- Only updates and purges touch the database. -/
theorem receive_spares {m : Message} (hupdate : m.type ≠ .update) (hpurge : m.type ≠ .purgeAll) :
    Keeps Node.Spares (receive now m) := by
  cases m with
  | opening o =>
    apply ((accept_stays o).mono Node.Stays.db).spares_bind
    intro _
    apply (Keeps.connection Node.Spares.refl).spares_bind
    intro conn
    apply (Keeps.ofExcept Node.Spares.refl _).spares_bind
    intro reply
    apply ((send_stays _).mono Node.Stays.db).spares_bind
    exact fun _ => turnOn_spares
  | reply o => exact ((accept_stays o).mono Node.Stays.db).spares_bind fun _ => turnOn_spares
  | update | legacyUpdate => exact absurd rfl hupdate
  | error notice => exact fun n => .refl n
  | purgeAll => exact absurd rfl hpurge
  | keepalive => exact fun n => .refl n

theorem receive_error_spares {m : Message} (hm : m.type ≠ .update)
    (h : receive now m n = .error f n') : n.Spares n' := by
  by_cases hpurge : m = .purgeAll
  · subst hpurge
    rw [receive_purgeAll_eq] at h
    split at h
    · rw [purge_eq] at h
      split at h <;> cases h
      exact .refl n
    · cases h
  · refine (receive_spares hm ?_).of_error h
    intro htype
    cases m <;> cases htype
    exact hpurge rfl

theorem hearAmid_of_read {m : Message} {frame : Bytes}
    (h : Message.ofFrame n.conn.version frame = .ok m) : hearAmid turn now frame n =
      match receiveAmid turn now m n with
      | .ok () n' => .ok () n'
      | .error f n' => .error f { n' with conn := n'.conn.shutDown n'.conn.version f } := by
  rw [hearAmid, h]

/-- Without a withdrawal the database only turns with its store. -/
theorem hearAmid_error_idle {frame : Bytes} (h : hearAmid turn now frame n = .error f n')
    (hnone : ∀ db, ¬ n.Withdraws now frame db) : n'.db = n.db ∨ n'.db = n.db.turned turn := by
  cases hread : Message.ofFrame n.conn.version frame with
  | error f' =>
    rw [hearAmid, hread] at h
    cases h
    exact .inl rfl
  | ok m =>
    rw [hearAmid_of_read hread] at h
    split at h
    · cases h
    next f' n₁ hreceive =>
    cases h
    show n₁.db = n.db ∨ n₁.db = n.db.turned turn
    by_cases hm : m.type = .update
    · rw [receiveAmid_update now hm] at hreceive
      split at hreceive
      · cases hreceive
        exact .inl rfl
      next hlistens =>
      simp only [not_or, not_not] at hlistens
      split at hreceive
      · cases hreceive
        exact .inl rfl
      next c hc =>
      rcases learnAmid_error hreceive with ⟨cause, -, hdb⟩ | ⟨doomed, db, hdelete, -, -, hdb⟩
      · exact .inl hdb
      · cases doomed with
        | nil =>
          obtain rfl := (Database.deleteWhere_changes hdelete).1 rfl
          exact .inr hdb
        | cons b doomed =>
          exact absurd ⟨m, c, b, doomed, hread, hm, hlistens.1, hlistens.2, hc, hdelete⟩ (hnone db)
    · rw [receiveAmid_other now hm] at hreceive
      exact .inl (receive_error_spares hm hreceive)

/-- With one the store has turned to refuse what comes in. -/
theorem hearAmid_error_withdrawn {frame : Bytes} {db : Database}
    (h : hearAmid turn now frame n = .error f n') (hw : n.Withdraws now frame db) :
    db.store.Accepts ∧ ¬ (turn.apply db.store).Accepts ∧ f = .store .refused ∧
      n'.db = db.turned turn ∧ n'.db.generation = n.db.generation + 1 := by
  obtain ⟨m, c, b, doomed, hread, hm, hon, hlistener, hc, hdelete⟩ := hw
  rw [hearAmid_of_read hread, receiveAmid_update now hm, if_neg (by simp [hon, hlistener]), hc] at h
  dsimp only at h
  split at h
  · cases h
  next f' n₁ hlearn =>
  cases h
  rcases learnAmid_error hlearn with ⟨cause, hrefused, -⟩ | ⟨_, _, hdelete', hf, hrefuses, hdb⟩
  · rw [hdelete] at hrefused
    cases hrefused
  · rw [hdelete] at hdelete'
    cases hdelete'
    refine ⟨Database.accepts_of_deleteWhere hdelete (List.cons_ne_nil b doomed), hrefuses, hf, hdb,
      ?_⟩
    show n₁.db.generation = n.db.generation + 1
    rw [hdb, Database.turned]
    exact (Database.deleteWhere_changes hdelete).2 (List.cons_ne_nil b doomed)

/-- A fault leaves the table, the log, the generation, the watchers and what the store holds as they
were, unless the frame was an update with a withdrawal that the store took before it refused what
the update announces. Then the withdrawal has been made and nothing else. -/
theorem hearAmid_error {frame : Bytes} (h : hearAmid turn now frame n = .error f n') :
    (n'.db.plain = n.db.plain ∧ ∀ db, ¬ n.Withdraws now frame db) ∨
      ∃ db, n.Withdraws now frame db ∧ db.store.Accepts ∧ ¬ (turn.apply db.store).Accepts ∧
        f = .store .refused ∧ n'.db = db.turned turn ∧
        n'.db.generation = n.db.generation + 1 := by
  by_cases hw : ∃ db, n.Withdraws now frame db
  · obtain ⟨db, hw⟩ := hw
    exact .inr ⟨db, hw, hearAmid_error_withdrawn h hw⟩
  · have hnone := not_exists.1 hw
    refine .inl ⟨?_, hnone⟩
    rcases hearAmid_error_idle h hnone with hdb | hdb
    · rw [hdb]
    · rw [hdb, Database.plain_turned]

/-- A store that keeps its mind while a frame is heard: a fault changes nothing. -/
theorem hear_error_db {frame : Bytes} (h : hear now frame n = .error f n') : n'.db = n.db := by
  rw [← hearAmid_keep] at h
  by_cases hw : ∃ db, n.Withdraws now frame db
  · obtain ⟨db, hw⟩ := hw
    obtain ⟨haccepts, hrefuses, -⟩ := hearAmid_error_withdrawn h hw
    exact absurd haccepts hrefuses
  · exact (hearAmid_error_idle h (not_exists.1 hw)).elim id id

/-- A binding that was learned from 10.0.0.1. -/
def heldBinding : Binding := ⟨.v4 ⟨0x0A050000, 16⟩, 100, [0x0A000001], ⟨10, 0⟩⟩

/-- The listener holds it, and so does the store behind it. -/
def holder : Node where
  conn := attentive.conn
  db :=
    { table := .ofBindings [heldBinding]
      store := .memory { entries := .ofBindings [heldBinding] } }

/-- An update that withdraws 10.5.0.0/16 and announces 10.6.0.0/16. -/
def replacingUpdate : Message :=
  .update [.wellKnown (.withdraw4 [⟨0x0A050000, 16⟩]), .wellKnown (.path [0x0A000001]),
    .wellKnown (.tag Message.plainTag), .wellKnown (.announce4 [⟨0x0A060000, 16⟩])]

def replacingFrame : Bytes :=
  [0, 0, 0, 32, 0, 0, 0, 3, 0x50, 13, 3, 16, 10, 5, 0x50, 16, 4, 10, 0, 0, 1, 0x50, 17, 2, 0, 100,
    0x50, 11, 3, 16, 10, 6]

theorem replacingFrame_read :
    Message.ofFrame holder.conn.version replacingFrame = .ok replacingUpdate := by
  have hwell : replacingUpdate.WellFormed .v4 := by
    refine ⟨rfl, fun a ha => ?_⟩
    simp only [List.mem_cons, List.not_mem_nil, or_false] at ha
    rcases ha with rfl | rfl | rfl | rfl
    · refine Attribute.wellFormed_of _ fun n hn => ?_
      obtain rfl := List.mem_singleton.1 hn
      exact ⟨by decide, by decide⟩
    · exact Attribute.wellFormed_of _ trivial
    · exact Attribute.wellFormed_of _ trivial
    · refine Attribute.wellFormed_of _ fun n hn => ?_
      obtain rfl := List.mem_singleton.1 hn
      exact ⟨by decide, by decide⟩
  exact Message.ofFrame_of_frame hwell rfl

/-- The store takes the withdrawal and then refuses the announcement. -/
theorem holder_fails : ∃ n', hearAmid (.refuse true false) ⟨20, 0⟩ replacingFrame holder =
    .error (.store .refused) n' ∧ n'.db.bindings = [] ∧ n'.db.generation = 1 := by
  rw [hearAmid_of_read replacingFrame_read]
  refine ⟨_, rfl, ?_, rfl⟩
  decide +kernel

theorem hearAmid_error_replacing : ∃ n',
    hearAmid (.refuse true false) ⟨20, 0⟩ replacingFrame holder = .error (.store .refused) n' ∧
      ∃ db, holder.Withdraws ⟨20, 0⟩ replacingFrame db ∧
        n'.db = db.turned (.refuse true false) := by
  obtain ⟨n', h, -, hgeneration⟩ := holder_fails
  refine ⟨n', h, ?_⟩
  rcases hearAmid_error h with ⟨hsame, -⟩ | ⟨db, hw, -, -, -, hdb, -⟩
  · have hnone : n'.db.generation = 0 := congrArg Database.generation hsame
    exact absurd (hgeneration.symm.trans hnone) (by decide)
  · exact ⟨db, hw, hdb⟩

/-- The frame is a fault, and what the database held is gone. -/
theorem fault_withdraws : ∃ f n',
    hearAmid (.refuse true false) ⟨20, 0⟩ replacingFrame holder = .error f n' ∧
      heldBinding ∈ holder.db.bindings ∧ heldBinding ∉ n'.db.bindings ∧
      n'.db.plain ≠ holder.db.plain := by
  obtain ⟨n', h, hgone, hgeneration⟩ := holder_fails
  refine ⟨_, n', h, by decide +kernel, by simp [hgone], ?_⟩
  intro hsame
  have hnone : n'.db.generation = 0 := congrArg Database.generation hsame
  exact absurd (hgeneration.symm.trans hnone) (by decide)

end Session

end TagExchange
