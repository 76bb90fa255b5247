import TagExchange.Proofs.Session.Forgetting
import TagExchange.Proofs.Session.Utterances

/-!
# Whom a binding is put down to

A binding is put down to the first node of its path, and what a peer takes back is what is put down
to the id that its connection knows it by. A legacy update gives no paths, so all it adds is put
down to the peer. An update of version 4 gives the path itself: what it adds is put down to the peer
exactly when the last path given before the announcement begins with the id of the peer, and
otherwise nothing that happens on the connection takes it back
(`Session.hear_update_provenance`).
-/

namespace TagExchange

namespace Attribute

/-- The networks that an attribute announces. -/
def announced (a : Attribute) : List Network :=
  match a.value with
  | .announce4 nets => nets.map .v4
  | .announce6 nets => nets.map .v6
  | _ => []

def path? (a : Attribute) : Option (List NodeId) :=
  match a.value with
  | .path ids => some ids
  | _ => none

def tag? (a : Attribute) : Option Tag :=
  match a.value with
  | .tag t => some t
  | _ => none

end Attribute

namespace Update

/-- A network is announced with the path and the tag that were given last before it. -/
def Announces (attributes : List Attribute) (net : Network) (path : List NodeId) (tag : Tag) :
    Prop :=
  ∃ front a back, attributes = front ++ a :: back ∧ net ∈ a.announced ∧
    (front.filterMap Attribute.path?).getLast? = some path ∧
    (front.filterMap Attribute.tag?).getLast? = some tag

theorem announces_concat {attributes : List Attribute} {a : Attribute} {net : Network}
    {path : List NodeId} {tag : Tag} :
    Announces (attributes ++ [a]) net path tag ↔ Announces attributes net path tag ∨
      (net ∈ a.announced ∧ (attributes.filterMap Attribute.path?).getLast? = some path ∧
        (attributes.filterMap Attribute.tag?).getLast? = some tag) := by
  rw [Announces, exists_split_concat, or_comm]
  rfl

namespace Reading

variable {stamp : Instant} {r r' : Reading}

theorem announce_ok {nets : List Network} (h : r.announce stamp nets = .ok r') :
    r'.path = r.path ∧ r'.tag = r.tag ∧ ∀ b, b ∈ r'.changes.add ↔ b ∈ r.changes.add ∨
      ∃ net ∈ nets, ∃ path tag, r.path = some path ∧ r.tag = some tag ∧
        b = ⟨net, tag.value, path, stamp⟩ := by
  rw [announce] at h
  split at h
  · cases h
  · cases h
  · next path tag hpath htag =>
    cases h
    refine ⟨rfl, rfl, fun b => ?_⟩
    simp [hpath, htag, eq_comm]

/-- What reading one more attribute does. -/
theorem next_ok {a : Attribute} (h : r.next stamp a = .ok r') :
    r'.path = a.path?.or r.path ∧ r'.tag = a.tag?.or r.tag ∧
      ∀ b, b ∈ r'.changes.add ↔ b ∈ r.changes.add ∨
        ∃ net ∈ a.announced, ∃ path tag, r.path = some path ∧ r.tag = some tag ∧
          b = ⟨net, tag.value, path, stamp⟩ := by
  obtain ⟨flags, value⟩ := a
  cases value with
  | announce4 nets => exact announce_ok h
  | announce6 nets => exact announce_ok h
  | _ =>
    cases h
    exact ⟨rfl, rfl, by simp [Attribute.announced, withdraw]⟩

end Reading

/-- Reading keeps the path and the tag last given. -/
theorem foldlM_next_ok {stamp : Instant} {attributes : List Attribute} {r : Reading}
    (h : attributes.foldlM (Reading.next stamp) {} = .ok r) :
    r.path = (attributes.filterMap Attribute.path?).getLast? ∧
      r.tag = (attributes.filterMap Attribute.tag?).getLast? ∧
      ∀ b, b ∈ r.changes.add ↔ ∃ net path tag, Announces attributes net path tag ∧
        b = ⟨net, tag.value, path, stamp⟩ := by
  induction attributes using List.reverseRecOn generalizing r with
  | nil =>
    cases h
    refine ⟨rfl, rfl, fun b => ?_⟩
    simp [Announces]
  | append_singleton attributes a ih =>
    rw [List.foldlM_append, Except.bind_eq_ok] at h
    obtain ⟨before, hbefore, h⟩ := h
    rw [List.foldlM_cons, Except.bind_eq_ok] at h
    obtain ⟨after, hnext, h⟩ := h
    cases h
    obtain ⟨hpath, htag, hadd⟩ := ih hbefore
    obtain ⟨hpath', htag', hadd'⟩ := Reading.next_ok hnext
    refine ⟨?_, ?_, fun b => ?_⟩
    · rw [hpath', hpath, List.filterMap_append, List.getLast?_append]
      cases h : a.path? <;> simp [h]
    · rw [htag', htag, List.filterMap_append, List.getLast?_append]
      cases h : a.tag? <;> simp [h]
    · rw [hadd', hadd, hpath, htag]
      simp only [announces_concat, or_and_right, exists_or]
      apply or_congr Iff.rfl
      constructor
      · rintro ⟨net, hnet, path, tag, hpath, htag, hb⟩
        exact ⟨net, path, tag, ⟨hnet, hpath, htag⟩, hb⟩
      · rintro ⟨net, path, tag, ⟨hnet, hpath, htag⟩, hb⟩
        exact ⟨net, hnet, path, tag, hpath, htag, hb⟩

theorem mem_add_changes {stamp : Instant} {attributes : List Attribute} {c : Changes}
    (h : changes stamp attributes = .ok c) {b : Binding} :
    b ∈ c.add ↔ ∃ net path tag, Announces attributes net path tag ∧
      b = ⟨net, tag.value, path, stamp⟩ := by
  obtain ⟨r, hr, rfl⟩ := Except.map_eq_ok.1 h
  exact (foldlM_next_ok hr).2.2 b

end Update

namespace Message

/-- What an update says, to a node that knows its sender by an id. Other messages say nothing about
networks. -/
def changes (peer : NodeId) (now : Instant) : Message → Except Fault Changes
  | .update attributes => Update.changes now attributes
  | .legacyUpdate _ records => .ok (LegacyUpdate.changes peer now records)
  | _ => .ok {}

/-- An update announces a network with a path and a tag. In a legacy update the path is that of a
single hop. -/
def Announces (peer : NodeId) (net : Network) (path : List NodeId) (tag : Tag) : Message → Prop
  | .update attributes => Update.Announces attributes net path tag
  | .legacyUpdate _ records =>
    path = [peer] ∧ ∃ r ∈ records, r.type.isAdd = true ∧ r.net = net ∧ r.tag = some tag
  | _ => False

theorem mem_add_changes {peer : NodeId} {now : Instant} {m : Message} {c : Changes}
    (h : m.changes peer now = .ok c) {b : Binding} :
    b ∈ c.add ↔ ∃ net path tag, m.Announces peer net path tag ∧
      b = ⟨net, tag.value, path, now⟩ := by
  cases m with
  | update attributes => exact Update.mem_add_changes h
  | legacyUpdate version records =>
    cases h
    rw [LegacyUpdate.mem_add_changes]
    constructor
    · rintro ⟨r, hr, hadd, tag, htag, rfl⟩
      exact ⟨r.net, [peer], tag, ⟨rfl, r, hr, hadd, rfl, htag⟩, rfl⟩
    · rintro ⟨net, path, tag, ⟨rfl, r, hr, hadd, rfl, htag⟩, rfl⟩
      exact ⟨r, hr, hadd, tag, htag, rfl⟩
  | _ =>
    cases h
    simp [Announces]

end Message

/-- The ways in which what a peer has announced is taken back on its connection. -/
inductive Revocation where
  | withdrawal (nets : List Network)
  | purgeAll (now : Instant)
  | disconnect

namespace Revocation

open Session

def session : Revocation → Session Unit
  | withdrawal nets => learn { delete := nets }
  | purgeAll now => receive now .purgeAll
  | disconnect => deactivate

/-- A withdrawal names networks, the others stand for all of them. -/
def Names (net : Network) : Revocation → Prop
  | withdrawal nets => net ∈ nets
  | _ => True

end Revocation

namespace Session

variable {n n' : Node}

/-- What a listener that is on reads, it learns; nobody else does. -/
theorem listening_eq_ok {reading : Session Changes} {x : Except Fault Changes}
    (hreading : reading n = ofExcept x n) :
    (checkListening >>= fun _ => reading >>= learn) n = .ok () n' ↔
      n.conn.phase = .on ∧ n.conn.mode.isListener = true ∧
        ∃ c, x = .ok c ∧ learn c n = .ok () n' := by
  have hcheck := checkListening_eq n
  by_cases hidle : n.conn.phase ≠ .on ∨ ¬n.conn.mode.isListener = true
  · rw [if_pos hidle] at hcheck
    rw [bind_of_error hcheck]
    constructor
    · intro h
      cases h
    · rintro ⟨hon, hlistener, -⟩
      exact absurd hidle (by simp [hon, hlistener])
  · rw [if_neg hidle] at hcheck
    rw [bind_of_ok hcheck]
    simp only [not_or, not_not] at hidle
    cases x with
    | ok c =>
      rw [bind_of_ok hreading]
      constructor
      · intro h
        exact ⟨hidle.1, hidle.2, c, rfl, h⟩
      · rintro ⟨-, -, c', hc, h⟩
        cases hc
        exact h
    | error f =>
      rw [bind_of_error hreading]
      constructor
      · intro h
        cases h
      · rintro ⟨-, -, c, hc, -⟩
        cases hc

/-- An update is learned by a listener that is on. -/
theorem receive_update {now : Instant} {m : Message} (hm : m.type = .update) :
    receive now m n = .ok () n' ↔ n.conn.phase = .on ∧ n.conn.mode.isListener = true ∧
      ∃ c, m.changes n.conn.remoteId now = .ok c ∧ learn c n = .ok () n' := by
  cases m with
  | update attributes => exact listening_eq_ok rfl
  | legacyUpdate version records =>
    rw [receive_legacyUpdate]
    exact listening_eq_ok (x := .ok (LegacyUpdate.changes n.conn.remoteId now records)) rfl
  | _ => cases hm

theorem learn_eq_ok {c : Changes} : learn c n = .ok () n' ↔ ∃ doomed db winners db',
    n.db.deleteFrom n.conn.remoteId c.delete = .ok (doomed, db) ∧
      db.add (c.add.filter fun b => !b.path.contains n.conn.localId) = .ok (winners, db') ∧
      n' = { n with db := db' } := by
  rw [learn_eq]
  constructor
  · intro h
    split at h
    · cases h
    · next doomed db hdelete =>
      split at h
      · cases h
      · next winners db' hadd =>
        cases h
        exact ⟨doomed, db, winners, db', hdelete, hadd, rfl⟩
  · rintro ⟨doomed, db, winners, db', hdelete, hadd, rfl⟩
    rw [hdelete]
    dsimp only
    rw [hadd]

/-- A purge looks at the mode only. -/
theorem receive_purgeAll_eq (now : Instant) (n : Node) : receive now .purgeAll n =
    if n.conn.mode.isListener then purge n else .ok () n := by
  show (connection >>= fun conn => if conn.mode.isListener then purge else pure ()) n = _
  rw [bind_of_ok (connection_apply n)]
  split <;> rfl

theorem receive_purgeAll (now : Instant) (hlistener : n.conn.mode.isListener = true) :
    receive now .purgeAll n = purge n := by
  rw [receive_purgeAll_eq, if_pos hlistener]

theorem deactivate_eq_ok (hon : n.conn.phase = .on) (hlistener : n.conn.mode.isListener = true) :
    deactivate n = .ok () n' ↔ ∃ purged db, n.db.purge n.conn.remoteId = .ok (purged, db) ∧
      n' = { conn := { n.conn with advertised := ∅, phase := .off }, db } := by
  have hpurge : deactivate n =
      purge { n with conn := { n.conn with advertised := ∅, phase := .off } } := by
    rw [deactivate_eq, purge_eq]
    dsimp only
    rw [if_pos ⟨hon, hlistener⟩]
    rfl
  rw [hpurge, purge_eq_ok]
  rfl

end Session

/-- A binding that is named goes exactly when it is put down to the peer. -/
theorem Revocation.mem_iff {r : Revocation} {n n' : Node} (hon : n.conn.phase = .on)
    (hlistener : n.conn.mode.isListener = true) (hfiled : n.db.table.Filed)
    (h : r.session n = .ok () n') {b : Binding} (hb : b ∈ n.db.bindings) (hnamed : r.Names b.net) :
    b ∈ n'.db.bindings ↔ b.learnedFrom ≠ some n.conn.remoteId := by
  have hpurge {purged : List Binding} {db : Database}
      (hpurge : n.db.purge n.conn.remoteId = .ok (purged, db)) :
      b ∈ db.bindings ↔ b.learnedFrom ≠ some n.conn.remoteId := by
    rw [Database.mem_purge hpurge hfiled]
    exact and_iff_right hb
  cases r with
  | withdrawal nets =>
    obtain ⟨doomed, db, winners, db', hdelete, hadd, rfl⟩ := Session.learn_eq_ok.1 h
    cases hadd
    have hfiled' := Database.filed_deleteWhere hdelete hfiled
    have hget := Database.getElem?_deleteWhere hdelete hfiled b.net
    have hnamed : b.net ∈ nets := hnamed
    rw [Database.bindings, hfiled'.mem_bindings, hget, hfiled.mem_bindings.1 hb]
    simp [hnamed]
  | purgeAll now =>
    rw [session, Session.receive_purgeAll now hlistener] at h
    obtain ⟨purged, db, hdb, rfl⟩ := Session.purge_eq_ok.1 h
    exact hpurge hdb
  | disconnect =>
    obtain ⟨purged, db, hdb, rfl⟩ := (Session.deactivate_eq_ok hon hlistener).1 h
    exact hpurge hdb

namespace Session

/-- What comes in with learning was added and has not been through this node. -/
theorem learn_new {n n' : Node} {c : Changes} (h : learn c n = .ok () n') {b : Binding}
    (hb : b ∈ n'.db.bindings) (hnew : b ∉ n.db.bindings) :
    ∃ q ∈ c.add, n.conn.localId ∉ q.path ∧ q.clean = b := by
  obtain ⟨doomed, db, winners, db', hdelete, hadd, rfl⟩ := learn_eq_ok.1 h
  rcases Database.mem_add hadd hb with hold | ⟨-, q, hq, hclean⟩
  · exact absurd (Database.mem_deleteWhere hdelete hold) hnew
  · obtain ⟨hq, hlocal⟩ := List.mem_filter.1 hq
    exact ⟨q, hq, by simpa using hlocal, hclean⟩

theorem hear_update_eq_ok {n n' : Node} {now : Instant} {frame : Bytes} {m : Message}
    (hread : Message.ofFrame n.conn.version frame = .ok m) (hm : m.type = .update) :
    hear now frame n = .ok () n' ↔ n.conn.phase = .on ∧ n.conn.mode.isListener = true ∧
      ∃ c, m.changes n.conn.remoteId now = .ok c ∧ learn c n = .ok () n' := by
  rw [← receive_update hm, hear_of_read hread]
  cases receive now m n <;> simp

theorem learn_conn {n n' : Node} {c : Changes} (h : learn c n = .ok () n') : n'.conn = n.conn := by
  obtain ⟨_, _, _, _, -, -, rfl⟩ := learn_eq_ok.1 h
  rfl

/-- Hearing an update leaves the connection as it is. Each binding that it brings into the database
was announced with a path that has not been through this node. It is put down to the peer, and goes
when the peer takes it back, exactly when that path begins with the id of the peer. -/
theorem hear_update_provenance {n n' : Node} {now : Instant} {frame : Bytes} {m : Message}
    (hread : Message.ofFrame n.conn.version frame = .ok m) (hm : m.type = .update)
    (h : hear now frame n = .ok () n') :
    n'.conn = n.conn ∧
    (n.conn.version.isLegacy = true → ∀ b ∈ n'.db.bindings, b ∉ n.db.bindings →
      b.learnedFrom = some n'.conn.remoteId) ∧
    ∀ b ∈ n'.db.bindings, b ∉ n.db.bindings →
      ∃ net path tag, m.Announces n.conn.remoteId net path tag ∧ n.conn.localId ∉ path ∧
        b = ⟨net.clean, tag.value, path, now⟩ ∧
        (b.learnedFrom = some n'.conn.remoteId ↔ ∃ hops, path = n.conn.remoteId :: hops) ∧
        (n.db.table.Filed → ∀ (r : Revocation) (n'' : Node), r.Names b.net →
          r.session n' = .ok () n'' →
          (b ∈ n''.db.bindings ↔ ¬∃ hops, path = n.conn.remoteId :: hops)) := by
  obtain ⟨hon, hlistener, c, hc, hlearn⟩ := (hear_update_eq_ok hread hm).1 h
  have hconn := learn_conn hlearn
  have hannounced {b : Binding} (hb : b ∈ n'.db.bindings) (hnew : b ∉ n.db.bindings) :
      ∃ net path tag, m.Announces n.conn.remoteId net path tag ∧ n.conn.localId ∉ path ∧
        b = ⟨net.clean, tag.value, path, now⟩ := by
    obtain ⟨q, hq, hlocal, rfl⟩ := learn_new hlearn hb hnew
    obtain ⟨net, path, tag, hannounces, rfl⟩ := (Message.mem_add_changes hc).1 hq
    exact ⟨net, path, tag, hannounces, hlocal, rfl⟩
  refine ⟨hconn, ?_, ?_⟩
  · intro hlegacy b hb hnew
    obtain ⟨net, path, tag, hannounces, -, rfl⟩ := hannounced hb hnew
    cases m with
    | update attributes =>
      rw [Message.version_of_update hread] at hlegacy
      cases hlegacy
    | legacyUpdate version records =>
      obtain ⟨rfl, -⟩ := hannounces
      rw [hconn]
      rfl
    | _ => cases hm
  · intro b hb hnew
    obtain ⟨net, path, tag, hannounces, hlocal, rfl⟩ := hannounced hb hnew
    have hiff : path.head? = some n.conn.remoteId ↔ ∃ hops, path = n.conn.remoteId :: hops := by
      cases path <;> simp
    refine ⟨net, path, tag, hannounces, hlocal, rfl, hconn ▸ hiff, ?_⟩
    intro hfiled r n'' hnamed hr
    have hfiled' : n'.db.table.Filed := by
      have hsteady := (learn_keeps c n).1
      rw [outcome_of_ok hlearn] at hsteady
      exact hsteady.filed hfiled
    rw [Revocation.mem_iff (hconn ▸ hon) (hconn ▸ hlistener) hfiled' hr hb hnamed, ← hiff, hconn]
    rfl

/-- A listener of version 4 that is on and knows its peer as 10.0.0.1. -/
def attentive : Node where
  conn :=
    { Connection.of { peer := ⟨.v4 0x0A000001, 64999, 0⟩ } 0x0A000002
        ⟨"speaker", ⟨.v4 0x0A000001, 64999, 0⟩, .listener, .v4⟩ {} with
      phase := .on
      remoteNodeId := some 0x0A000001 }
  db := {}

/-- An update with a path that does not begin with the peer. -/
def foreignUpdate : Message :=
  .update [.wellKnown (.path [9]), .wellKnown (.tag Message.plainTag),
    .wellKnown (.announce4 [⟨0x0A050000, 16⟩])]

def foreignFrame : Bytes :=
  [0, 0, 0, 26, 0, 0, 0, 3, 0x50, 16, 4, 0, 0, 0, 9, 0x50, 17, 2, 0, 100, 0x50, 11, 3, 16, 10, 5]

/-- What is filed for it. -/
def foreignBinding : Binding := ⟨.v4 ⟨0x0A050000, 16⟩, 100, [9], ⟨20, 0⟩⟩

/-- A path, a tag and one network. -/
theorem announcement_wellFormed (path : List NodeId) (tag : Tag) (flags : UInt8) {n : Net 32}
    (hn : n.Canonical) : (Message.update [.wellKnown (.path path), .wellKnown (.tag tag),
      .of flags (.announce4 [n])]).WellFormed .v4 := by
  refine ⟨rfl, fun a ha => ?_⟩
  simp only [List.mem_cons, List.not_mem_nil, or_false] at ha
  rcases ha with rfl | rfl | rfl
  · exact Attribute.wellFormed_of _ trivial
  · exact Attribute.wellFormed_of _ trivial
  · refine Attribute.wellFormed_of _ fun m hm => ?_
    obtain rfl := List.mem_singleton.1 hm
    exact hn

theorem foreignFrame_read : Message.ofFrame attentive.conn.version foreignFrame =
    .ok foreignUpdate :=
  Message.ofFrame_of_frame (announcement_wellFormed [9] Message.plainTag Flags.wellKnown
    ⟨by decide, by decide⟩) rfl

theorem foreign_learned : ∃ n', hear ⟨20, 0⟩ foreignFrame attentive = .ok () n' ∧
    n'.db.bindings = [foreignBinding] := by
  rw [hear_of_read foreignFrame_read]
  refine ⟨_, rfl, ?_⟩
  decide +kernel

theorem attentive_holds_nothing : foreignBinding ∉ attentive.db.bindings := by
  have hnone : attentive.db.bindings = [] := rfl
  simp [hnone]

theorem hear_update_provenance_foreign :
    Message.ofFrame attentive.conn.version foreignFrame = .ok foreignUpdate ∧
      foreignUpdate.type = .update ∧ ∃ n', hear ⟨20, 0⟩ foreignFrame attentive = .ok () n' ∧
        foreignBinding ∈ n'.db.bindings ∧
        ∀ (r : Revocation) n'', r.Names foreignBinding.net → r.session n' = .ok () n'' →
          foreignBinding ∈ n''.db.bindings := by
  obtain ⟨n', hhear, hbindings⟩ := foreign_learned
  have hmem : foreignBinding ∈ n'.db.bindings := by simp [hbindings]
  refine ⟨foreignFrame_read, rfl, n', hhear, hmem, fun r n'' hnamed hr => ?_⟩
  obtain ⟨-, -, hall⟩ := hear_update_provenance foreignFrame_read rfl hhear
  obtain ⟨net, path, tag, -, -, heq, -, hrevoked⟩ := hall _ hmem attentive_holds_nothing
  obtain rfl : [9] = path := congrArg Binding.path heq
  refine (hrevoked Table.Filed.empty r n'' hnamed hr).2 ?_
  rintro ⟨hops, hpath⟩
  exact absurd (List.cons.inj hpath).1 (by decide)

/-- The listener is on and takes the update, and when the transport goes away, without a fault, it
does not forget what came with it. -/
theorem foreign_not_put_down : attentive.conn.phase = .on ∧
    attentive.conn.mode.isListener = true ∧
    ∃ n', hear ⟨20, 0⟩ foreignFrame attentive = .ok () n' ∧
      ∃ b ∈ n'.db.bindings, b ∉ attentive.db.bindings ∧
        b.learnedFrom ≠ some n'.conn.remoteId ∧
        ∃ n'', deactivate n' = .ok () n'' ∧ b ∈ n''.db.bindings := by
  rw [hear_of_read foreignFrame_read]
  refine ⟨rfl, rfl, _, rfl, foreignBinding, ?_, attentive_holds_nothing, ?_, _, rfl, ?_⟩
  all_goals decide +kernel

end Session

end TagExchange
