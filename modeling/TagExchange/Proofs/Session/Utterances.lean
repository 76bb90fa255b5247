import TagExchange.Proofs.Exchange.Frames
import TagExchange.Proofs.Session.Hearing
import TagExchange.Proofs.Session.Openings

/-!
# What a node ever says

Whatever happens to a node, faults included, it only sends openings of its own, updates about
bindings that it holds, and messages that are neither (`Connection.Utters`). So two things about a
node can be kept up at once: what its bindings have come through, and what its frames say of that
(`Node.Candid`). What comes in is up to the frames that are heard, which are utterances of other
nodes (`Connection.Utters.credible`).

The versions under which a node opens and the paths of its bindings are parameters.
-/

namespace TagExchange

variable {admits : Version → Prop} {vouches vouches' : List NodeId → Prop}

/-- The frames that a node may send: its openings under admitted versions, updates of any version
about bindings with vouched paths, and messages of another type. -/
inductive Connection.Utters (admits : Version → Prop) (vouches : List NodeId → Prop)
    (c : Connection) (frame : Bytes) : Prop
  | opening {v : Version} {o : Opening} {m : Message} (hv : admits v) (ho : c.opening v = .ok o)
      (hm : m = .opening o ∨ m = .reply o) (hframe : m.frame = .ok frame)
  | update {d : Connection} {v : Version} {part : Part} (hid : d.localId = c.localId)
      (hcarries : Composer.Carries (d.composer v) part frame)
      (hadd : ∀ b ∈ part.2, vouches b.path)
  | other {m : Message} (hopening : m.type ≠ .opening) (hreply : m.type ≠ .reply)
      (hupdate : m.type ≠ .update) (hframe : m.frame = .ok frame)

/-- What holds of a node all along: its version is admitted, the paths of its bindings are vouched
for, and all it has sent are utterances. -/
structure Node.Candid (admits : Version → Prop) (vouches : List NodeId → Prop) (n : Node) :
    Prop where
  version : admits n.conn.version
  bindings : ∀ b ∈ n.db.bindings, vouches b.path
  sent : ∀ frame ∈ n.conn.line.sent, n.conn.Utters admits vouches frame

/-- A connection that is still between the same two nodes. -/
structure Connection.Same (c c' : Connection) : Prop where
  localId : c'.localId = c.localId
  mode : c'.mode = c.mode
  config : c'.config = c.config

/-- What a step has to respect. -/
structure Node.Upholds (admits : Version → Prop) (vouches : List NodeId → Prop) (n n' : Node) :
    Prop where
  same : n.conn.Same n'.conn
  candid : n.Candid admits vouches → n'.Candid admits vouches

namespace Connection

theorem Same.refl (c : Connection) : c.Same c := ⟨rfl, rfl, rfl⟩

theorem Same.trans {c₁ c₂ c₃ : Connection} (h : c₁.Same c₂) (h' : c₂.Same c₃) : c₁.Same c₃ :=
  ⟨h'.localId.trans h.localId, h'.mode.trans h.mode, h'.config.trans h.config⟩

theorem Same.symm {c c' : Connection} (h : c.Same c') : c'.Same c :=
  ⟨h.localId.symm, h.mode.symm, h.config.symm⟩

/-- The openings of a node depend on nothing that changes. -/
theorem Same.opening {c c' : Connection} (h : c.Same c') (v : Version) :
    c'.opening v = c.opening v := by
  rw [Connection.opening, Connection.opening, h.localId, h.mode, h.config]

theorem Utters.same {c c' : Connection} {frame : Bytes} (h : c.Utters admits vouches frame)
    (hsame : c.Same c') : c'.Utters admits vouches frame := by
  cases h with
  | opening hv ho hm hframe => exact .opening hv ((hsame.opening _).trans ho) hm hframe
  | update hid hcarries hadd => exact .update (hid.trans hsame.localId.symm) hcarries hadd
  | other h₁ h₂ h₃ hframe => exact .other h₁ h₂ h₃ hframe

end Connection

namespace Node

theorem Upholds.refl (n : Node) : n.Upholds admits vouches n := ⟨.refl _, id⟩

theorem Upholds.trans {n₁ n₂ n₃ : Node} (h : n₁.Upholds admits vouches n₂)
    (h' : n₂.Upholds admits vouches n₃) : n₁.Upholds admits vouches n₃ :=
  ⟨h.same.trans h'.same, h'.candid ∘ h.candid⟩

/-- A step that sends utterances and leaves the version and the database. -/
theorem Upholds.of_sent {n n' : Node} (hsame : n.conn.Same n'.conn)
    (hversion : n'.conn.version = n.conn.version) (hdb : n'.db = n.db) {frames : List Bytes}
    (hsent : n'.conn.line.sent = n.conn.line.sent ++ frames)
    (hframes : n.Candid admits vouches → ∀ frame ∈ frames, n.conn.Utters admits vouches frame) :
    n.Upholds admits vouches n' where
  same := hsame
  candid := by
    intro h
    refine ⟨hversion ▸ h.version, hdb ▸ h.bindings, ?_⟩
    intro frame hmem
    rw [hsent, List.mem_append] at hmem
    rcases hmem with hmem | hmem
    · exact (h.sent frame hmem).same hsame
    · exact (hframes h frame hmem).same hsame

/-- A step that says nothing. -/
theorem Upholds.of_quiet {n n' : Node} (hsame : n.conn.Same n'.conn)
    (hversion : n'.conn.version = n.conn.version) (hdb : n'.db = n.db)
    (hsent : n'.conn.line.sent = n.conn.line.sent) : n.Upholds admits vouches n' := by
  have hnone : n'.conn.line.sent = n.conn.line.sent ++ [] := by rw [hsent, List.append_nil]
  exact .of_sent hsame hversion hdb hnone (by simp)

/-- A step that leaves the line and the version, and brings in nothing but vouched paths. -/
theorem Upholds.of_db {n : Node} {db : Database}
    (hbindings : ∀ b ∈ db.bindings, b ∈ n.db.bindings ∨ vouches b.path) :
    n.Upholds admits vouches { n with db } where
  same := .refl _
  candid := fun h =>
    ⟨h.version, fun b hb => (hbindings b hb).elim (h.bindings b) id, h.sent⟩

end Node

/-- What a legacy update adds came over one hop. -/
theorem LegacyUpdate.mem_add_changes {peer : NodeId} {stamp : Instant}
    {records : List MappingRecord} {b : Binding} :
    b ∈ (changes peer stamp records).add ↔ ∃ r ∈ records, r.type.isAdd = true ∧
      ∃ tag, r.tag = some tag ∧ b = ⟨r.net, tag.value, [peer], stamp⟩ := by
  rw [changes]
  induction records using List.reverseRecOn with
  | nil => simp
  | append_singleton records r ih =>
    rw [List.foldl_append]
    show b ∈ (apply peer stamp (records.foldl (apply peer stamp) {}) r).add ↔ _
    simp only [List.mem_append, List.mem_singleton, or_and_right, exists_or, exists_eq_left, ← ih]
    rw [apply]
    split
    · next tag htag =>
      split
      · next hadd => simp [htag, hadd]
      · next hadd => simp [hadd]
    · next hnone => simp [hnone]

theorem LegacyUpdate.path_of_mem_changes {peer : NodeId} {stamp : Instant}
    {records : List MappingRecord} {b : Binding} (hb : b ∈ (changes peer stamp records).add) :
    b.path = [peer] := by
  obtain ⟨r, -, -, tag, -, rfl⟩ := mem_add_changes.1 hb
  rfl

/-- A message that does no harm to a node that acts on it. -/
def Message.Credible (admits : Version → Prop) (vouches : List NodeId → Prop) (id : NodeId) :
    Message → Prop
  | .opening o | .reply o => ∀ v, admits v → admits (min v o.version)
  | .update attributes => ∀ now c, Update.changes now attributes = .ok c →
      ∀ b ∈ c.add, id ∉ b.path → vouches b.path
  | .legacyUpdate _ _ => ∀ peer, peer ≠ id → vouches [peer]
  | .error _ | .purgeAll | .keepalive => True

namespace Connection.Utters

variable {c : Connection} {frame : Bytes}

/-- An opening is taken for what it is, whatever the version. -/
theorem read_opening {v : Version} {o : Opening} {m : Message} (ho : c.opening v = .ok o)
    (hm : m = .opening o ∨ m = .reply o) (hframe : m.frame = .ok frame) (v' : Version) :
    Message.ofFrame v' frame = .ok m := by
  have hwell := opening_wellFormed ho
  rcases hm with rfl | rfl
  · exact Message.ofFrame_of_frame (m := .opening o) hwell hframe
  · exact Message.ofFrame_of_frame (m := .reply o) hwell hframe

/-- What an update of version 4 announces has the node in front of a vouched path. -/
theorem announces (h : c.Utters admits vouches frame) {attrs : List Attribute}
    (hread : Message.ofFrame .v4 frame = .ok (.update attrs)) {now : Instant} {changes : Changes}
    (hchanges : Update.changes now attrs = .ok changes) {b : Binding} (hb : b ∈ changes.add) :
    ∃ path, vouches path ∧ b.path = c.localId :: path := by
  cases h with
  | opening hv ho hm hframe =>
    rw [read_opening ho hm hframe] at hread
    cases hread
    rcases hm with hm | hm <;> cases hm
  | @update d v part hid hcarries hadd =>
    by_cases hlegacy : v.isLegacy = true
    · rw [composer, if_pos hlegacy] at hcarries
      obtain ⟨attrs', hread', hnone⟩ := hcarries.unread
      rw [hread] at hread'
      cases hread'
      rw [hnone] at hchanges
      cases hchanges
      cases hb
    · rw [composer, if_neg hlegacy] at hcarries
      obtain ⟨attrs', hread', hall⟩ := hcarries.current
      rw [hread] at hread'
      cases hread'
      obtain ⟨changes', hchanges', -, hperm⟩ := hall now
      rw [hchanges] at hchanges'
      cases hchanges'
      obtain ⟨q, hq, rfl⟩ := List.mem_map.1 (hperm.mem_iff.1 hb)
      refine ⟨q.path, hadd q (List.mem_filter.1 hq).1, ?_⟩
      rw [← hid]
      rfl
  | other _ _ hupdate hframe => exact absurd (Message.type_ofFrame hframe hread).symm hupdate

/-- An opening that is heard was made by the node, whatever the version it is read under. -/
theorem opening_of_read (h : c.Utters admits vouches frame) {v : Version} {o : Opening}
    {m : Message} (hread : Message.ofFrame v frame = .ok m) (hm : m = .opening o ∨ m = .reply o) :
    ∃ v', admits v' ∧ c.opening v' = .ok o := by
  cases h with
  | @opening v' o' m' hv ho hm' hframe =>
    rw [read_opening ho hm' hframe] at hread
    cases hread
    have hsame : o' = o := by
      rcases hm with rfl | rfl <;> rcases hm' with hm' | hm' <;> cases hm' <;> rfl
    exact ⟨v', hv, hsame ▸ ho⟩
  | @update d v' part _ hcarries _ =>
    obtain ⟨m', htype, hframe⟩ := hcarries.type_eq
    have hsame := Message.type_ofFrame hframe hread
    rw [htype] at hsame
    rcases hm with rfl | rfl <;> cases hsame
  | other hopening hreply _ hframe =>
    have hsame := Message.type_ofFrame hframe hread
    rcases hm with rfl | rfl
    · exact absurd hsame.symm hopening
    · exact absurd hsame.symm hreply

/-- An utterance can be believed by a node that vouches for a relayed path, unless it has been
through that node itself, and for what came over one hop. -/
theorem credible (h : c.Utters admits vouches frame)
    (hmin : ∀ v v', admits v → admits v' → admits (min v v')) {id : NodeId}
    (hdirect : ∀ peer, peer ≠ id → vouches' [peer])
    (hrelayed : ∀ path, vouches path → id ∉ c.localId :: path → vouches' (c.localId :: path))
    {v : Version} {m : Message} (hread : Message.ofFrame v frame = .ok m) :
    m.Credible admits vouches' id := by
  have hopening (o : Opening) (hm : m = .opening o ∨ m = .reply o) : admits o.version := by
    obtain ⟨v', hv', ho⟩ := h.opening_of_read hread hm
    rw [opening_version ho]
    exact hv'
  cases m with
  | opening o => exact fun v' hv' => hmin v' _ hv' (hopening o (.inl rfl))
  | reply o => exact fun v' hv' => hmin v' _ hv' (hopening o (.inr rfl))
  | update attrs =>
    intro now changes hchanges b hb hid
    obtain rfl := Message.version_of_update hread
    obtain ⟨path, hpath, hb⟩ := h.announces hread hchanges hb
    rw [hb] at hid ⊢
    exact hrelayed path hpath hid
  | legacyUpdate v records => exact hdirect
  | error notice => trivial
  | purgeAll => trivial
  | keepalive => trivial

end Connection.Utters

namespace Session

variable {n : Node}

theorem upholds_bind {α β : Type} {s : Session α} {f : α → Session β}
    (hs : n.Upholds admits vouches (s.outcome n))
    (hf : ∀ a n', s n = .ok a n' → n'.Upholds admits vouches ((f a).outcome n')) :
    n.Upholds admits vouches ((s >>= f).outcome n) :=
  outcome_bind (R := Node.Upholds admits vouches) (fun _ _ _ => Node.Upholds.trans) hs hf

theorem modifyConnection_upholds {f : Connection → Connection}
    (h : ∀ c, c.Same (f c) ∧ (f c).version = c.version ∧ (f c).line = c.line) :
    Keeps (Node.Upholds admits vouches) (modifyConnection f) := by
  intro n
  obtain ⟨hsame, hversion, hline⟩ := h n.conn
  exact .of_quiet hsame hversion rfl (congrArg Line.sent hline)

theorem setPhase_upholds (phase : Phase) : Keeps (Node.Upholds admits vouches) (setPhase phase) :=
  modifyConnection_upholds fun _ => ⟨⟨rfl, rfl, rfl⟩, rfl, rfl⟩

theorem send_upholds {m : Message}
    (h : n.Candid admits vouches → ∀ frame, m.frame = .ok frame →
      n.conn.Utters admits vouches frame) :
    n.Upholds admits vouches ((send m).outcome n) := by
  cases hsend : n.conn.send m with
  | error f =>
    rw [send, outcome_of_error (onConnection_of_error hsend)]
    exact .refl n
  | ok c =>
    rw [send, outcome_of_ok (onConnection_of_ok hsend)]
    obtain ⟨frame, line, hframe, hextends, rfl⟩ := Connection.send_ok hsend
    refine .of_sent ⟨rfl, rfl, rfl⟩ rfl rfl hextends.sent ?_
    intro hn frame' hmem
    obtain rfl := List.mem_singleton.1 hmem
    exact h hn _ hframe

/-- An opening of one's own, if there is one, and then its sending. -/
theorem sendOpening_upholds {v : Version} (hv : n.Candid admits vouches → admits v)
    {say : Opening → Message} (hsay : ∀ o, say o = .opening o ∨ say o = .reply o) :
    n.Upholds admits vouches
      ((do send (say (← ofExcept (n.conn.opening v))) : Session Unit).outcome n) := by
  apply upholds_bind (Keeps.ofExcept Node.Upholds.refl _ n)
  intro o n' ho
  cases hopening : n.conn.opening v with
  | error f =>
    rw [hopening] at ho
    cases ho
  | ok o' =>
    rw [hopening] at ho
    cases ho
    exact send_upholds fun hn frame hframe => .opening (hv hn) hopening (hsay o) hframe

theorem activate_upholds {v : Version} (hv : admits v) :
    Keeps (Node.Upholds admits vouches) (activate v) := by
  intro n
  have hactivate : activate v n =
      ((do send (.opening (← ofExcept (n.conn.opening v))) : Session Unit) >>= fun _ =>
        setPhase .pendingOn) n := by
    rw [activate, bind_of_ok (connection_apply n), bind_assoc]
  rw [outcome, hactivate, ← outcome]
  exact upholds_bind (sendOpening_upholds (fun _ => hv) fun _ => .inl rfl)
    fun _ n' _ => setPhase_upholds _ n'

theorem advertise_upholds (v : Version) : Keeps (Node.Upholds admits vouches) (advertise v) := by
  intro n
  obtain ⟨front, line, advertised, h, hextends, hfront⟩ := advertise_outcome v n
  rw [h]
  refine .of_sent ⟨rfl, rfl, rfl⟩ rfl rfl hextends.sent fun hn frame hmem => ?_
  obtain ⟨frames, hframes, hframe⟩ := hfront frame hmem
  obtain ⟨part, hcarries, -, hadd⟩ := Composer.carries_of_mem_frames hframes hframe
  refine .update rfl hcarries fun b hb => hn.bindings b ?_
  have hnew := (List.mem_filter.1 ((List.mergeSort_perm _ _).mem_iff.1 (hadd b hb))).1
  exact (List.mem_filter.1 (Table.mem_ofBindings hnew)).1

theorem purge_upholds : Keeps (Node.Upholds admits vouches) purge := by
  intro n
  apply upholds_bind (Keeps.connection Node.Upholds.refl n)
  intro conn n' _
  apply Keeps.discard
  apply Keeps.onDatabase Node.Upholds.refl
  intro n doomed db hdb
  exact .of_db fun b hb => .inl (Database.mem_deleteWhere hdb hb)

theorem deactivate_upholds : Keeps (Node.Upholds admits vouches) deactivate := by
  intro n
  apply upholds_bind (Keeps.connection Node.Upholds.refl n)
  intro conn n' _
  have hforget : Keeps (Node.Upholds admits vouches)
      (modifyConnection fun c => { c with advertised := ∅, phase := .off }) :=
    modifyConnection_upholds fun _ => ⟨⟨rfl, rfl, rfl⟩, rfl, rfl⟩
  apply upholds_bind (hforget n')
  intro _ n'' _
  split
  · exact purge_upholds n''
  · exact .refl n''

theorem accept_upholds {o : Opening} (ho : ∀ v, admits v → admits (min v o.version)) :
    Keeps (Node.Upholds admits vouches) (accept o) := by
  intro n
  obtain ⟨version, _, _, _, _, h, hversion⟩ := accept_outcome o n
  rw [h]
  refine ⟨⟨rfl, rfl, rfl⟩, fun hn => ⟨?_, hn.bindings, ?_⟩⟩
  · rcases hversion with rfl | rfl
    · exact hn.version
    · exact ho _ hn.version
  · exact fun frame hframe => (hn.sent frame hframe).same ⟨rfl, rfl, rfl⟩

theorem turnOn_upholds : Keeps (Node.Upholds admits vouches) turnOn := by
  intro n
  apply upholds_bind (setPhase_upholds _ n)
  intro _ n' _
  apply upholds_bind (Keeps.connection Node.Upholds.refl n')
  intro conn n'' _
  split
  · exact (advertise_upholds _).discard n''
  · exact .refl n''

theorem learn_upholds {changes : Changes}
    (h : ∀ b ∈ changes.add, n.conn.localId ∉ b.path → vouches b.path) :
    n.Upholds admits vouches ((learn changes).outcome n) := by
  have hlearn := learn_eq changes n
  split at hlearn
  · rw [outcome_of_error hlearn]
    exact .refl n
  · next doomed db hdelete =>
    have hkept : ∀ b ∈ db.bindings, b ∈ n.db.bindings :=
      fun b hb => Database.mem_deleteWhere hdelete hb
    split at hlearn
    · rw [outcome_of_error hlearn]
      exact .of_db fun b hb => .inl (hkept b hb)
    · next winners db' hadd =>
      rw [outcome_of_ok hlearn]
      refine .of_db fun b hb => ?_
      rcases Database.mem_add hadd hb with hb | ⟨-, q, hq, rfl⟩
      · exact .inl (hkept b hb)
      · obtain ⟨hq, hlocal⟩ := List.mem_filter.1 hq
        exact .inr (h q hq (by simpa using hlocal))

theorem eq_of_checkListening {n n' : Node} {u : Unit} (h : checkListening n = .ok u n') :
    n = n' := by
  rw [checkListening_eq] at h
  split at h <;> cases h
  rfl

theorem checkListening_upholds (n : Node) :
    n.Upholds admits vouches (checkListening.outcome n) := by
  rw [outcome_checkListening]
  exact .refl n

theorem reply_upholds {o : Opening} (ho : ∀ v, admits v → admits (min v o.version)) (n : Node) :
    n.Upholds admits vouches ((do
      accept o
      let conn ← connection
      send (.reply (← ofExcept (conn.opening conn.version))) : Session Unit).outcome n) := by
  apply upholds_bind (accept_upholds ho n)
  intro _ n' _
  have hread : connection n' = .ok n'.conn n' := rfl
  rw [outcome, bind_of_ok hread, ← outcome]
  have hsay (o : Opening) : Message.reply o = .opening o ∨ Message.reply o = .reply o := .inr rfl
  exact sendOpening_upholds (fun hn => hn.version) hsay

/-- Acting on a message that may be believed. -/
theorem receive_upholds {now : Instant} {m : Message}
    (hm : m.Credible admits vouches n.conn.localId) :
    n.Upholds admits vouches ((receive now m).outcome n) := by
  cases m with
  | opening o =>
    rw [receive_opening]
    exact upholds_bind (reply_upholds hm n) fun _ n' _ => turnOn_upholds n'
  | reply o => exact upholds_bind (accept_upholds hm n) fun _ n' _ => turnOn_upholds n'
  | update attributes =>
    apply upholds_bind (checkListening_upholds n)
    intro _ n' hcheck
    obtain rfl := eq_of_checkListening hcheck
    apply upholds_bind (Keeps.ofExcept Node.Upholds.refl _ n)
    intro c n' hread
    cases hchanges : Update.changes now attributes with
    | error f =>
      rw [hchanges] at hread
      cases hread
    | ok c' =>
      rw [hchanges] at hread
      cases hread
      exact learn_upholds (hm now c hchanges)
  | legacyUpdate version records =>
    rw [receive_legacyUpdate]
    apply upholds_bind (checkListening_upholds n)
    intro _ n' hcheck
    obtain rfl := eq_of_checkListening hcheck
    have hread : legacyChanges now records n =
        .ok (LegacyUpdate.changes n.conn.remoteId now records) n := rfl
    rw [outcome, bind_of_ok hread, ← outcome]
    apply learn_upholds
    intro b hb hlocal
    rw [LegacyUpdate.path_of_mem_changes hb] at hlocal ⊢
    exact hm _ fun h => hlocal (by simp [h])
  | error notice => exact .refl n
  | purgeAll =>
    apply upholds_bind (Keeps.connection Node.Upholds.refl n)
    intro conn n' _
    split
    · exact purge_upholds n'
    · exact .refl n'
  | keepalive => exact .of_quiet ⟨rfl, rfl, rfl⟩ rfl rfl rfl

theorem shutDown_upholds (v : Version) (f : Fault) (n : Node) :
    n.Upholds admits vouches { n with conn := n.conn.shutDown v f } := by
  obtain ⟨frames, line, hextends, heq, hframes⟩ := Connection.shutDown_extends v f n.conn
  rw [heq]
  refine .of_sent ⟨rfl, rfl, rfl⟩ rfl rfl hextends.sent fun _ frame hmem => ?_
  obtain ⟨notice, hnotice⟩ := hframes frame hmem
  exact .other (m := .error notice) nofun nofun nofun hnotice

/-- Hearing a frame that may be believed, whether or not it is a fault. -/
theorem hear_upholds {now : Instant} {frame : Bytes}
    (h : ∀ m, Message.ofFrame n.conn.version frame = .ok m →
      m.Credible admits vouches n.conn.localId) :
    n.Upholds admits vouches ((hear now frame).outcome n) := by
  have hunderstand : n.Upholds admits vouches ((understand now frame).outcome n) := by
    rw [outcome, understand_eq]
    cases hread : Message.ofFrame n.conn.version frame with
    | error f => exact .refl n
    | ok m => exact receive_upholds (h m hread)
  cases hrun : understand now frame n with
  | ok u n' =>
    have hhear : hear now frame n = .ok () n' := by rw [hear, hrun]
    rw [outcome_of_ok hrun] at hunderstand
    rw [outcome_of_ok hhear]
    exact hunderstand
  | error f n' =>
    have hhear : hear now frame n =
        .error f { n' with conn := n'.conn.shutDown n'.conn.version f } := by rw [hear, hrun]
    rw [outcome_of_error hrun] at hunderstand
    rw [outcome_of_error hhear]
    exact hunderstand.trans (shutDown_upholds _ f n')

end Session

end TagExchange
