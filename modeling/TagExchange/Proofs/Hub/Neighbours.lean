import TagExchange.Proofs.Hub.Offers
import TagExchange.Proofs.Session.Refusals
import TagExchange.Proofs.Session.Reviving

/-!
# Peers that give no name

A peer that gives no id goes by its IPv4 address, and by the unspecified address when it has none.
So peers at different addresses share an id exactly when each has an IPv6 address or the unspecified
one (`Endpoint.name_eq_iff`), and what was learned from one of them is then taken for what was
learned from the other.

A junction is a node with any number of listening connections to such peers, on which anything can
happen in any order. It is kept along with it over which connection each entry of the database came
in. What came in over one connection goes with a purge, a withdrawal or an end of the transport on
another exactly when the two peers share an id (`Junction.gone_iff`).
-/

namespace TagExchange

namespace Endpoint

/-- The id of a peer at the endpoint that gives none. -/
def name (e : Endpoint) : NodeId := e.addr4?.getD 0

/-- The address tells nothing of who is there. -/
def Nameless (e : Endpoint) : Prop := e.addr4? = none ∨ e.addr4? = some 0

theorem name_eq_iff {e e' : Endpoint} (h : e.address ≠ e'.address) :
    e.name = e'.name ↔ e.Nameless ∧ e'.Nameless := by
  obtain ⟨address, port, zone⟩ := e
  obtain ⟨address', port', zone'⟩ := e'
  cases address with
  | v4 a =>
    cases address' with
    | v4 a' =>
      have hne : a ≠ a' := fun heq => h (congrArg Address.v4 heq)
      simp only [name, Nameless, addr4?, Option.getD_some, reduceCtorEq, Option.some.injEq,
        false_or]
      exact iff_of_false hne fun hzero => hne (hzero.1.trans hzero.2.symm)
    | v6 a' => simp [name, Nameless, addr4?]
  | v6 a =>
    cases address' with
    | v4 a' =>
      simp only [name, Nameless, addr4?, Option.getD_none, Option.getD_some, reduceCtorEq,
        Option.some.injEq, true_or, true_and, false_or]
      exact eq_comm
    | v6 a' => simp [name, Nameless, addr4?]

end Endpoint

/-- What an event on a connection tells the database, unless it is a fault. -/
def Event.news? (n : Node) : Event → Option News
  | frame now bs =>
    match Session.hear now bs n with
    | .ok _ _ => (Hub.Act.say () now bs).news? n.conn
    | .error _ _ => none
  | deactivate =>
    match Session.deactivate n with
    | .ok _ _ => if n.conn.phase = .on then some .purge else none
    | .error _ _ => none
  | _ => none

namespace Session

variable {n n' : Node} {now : Instant}

theorem activate_spares (v : Version) : Keeps Node.Spares (activate v) := by
  apply (Keeps.connection Node.Spares.refl).spares_bind
  intro conn
  apply (Keeps.ofExcept Node.Spares.refl _).spares_bind
  intro o
  apply ((send_stays _).mono Node.Stays.db).spares_bind
  exact fun _ n => .refl n

theorem deactivate_error {f : Fault} (h : deactivate n = .error f n') : n.Spares n' := by
  rw [deactivate_eq] at h
  dsimp only at h
  split at h
  · split at h <;> cases h
    rfl
  · cases h

/-- A frame that is acted on is news, or the database stays. -/
theorem hear_spares {bs : Bytes} (h : hear now bs n = .ok () n')
    (hnone : (Hub.Act.say () now bs).news? n.conn = none) : n.Spares n' := by
  obtain ⟨m, hread, hreceive⟩ := hear_eq_ok h
  rw [Hub.Act.news?, hread] at hnone
  have hpurge : m.type ≠ .purgeAll := by
    intro htype
    cases m <;> cases htype
    cases hnone
  have hupdate : m.type ≠ .update := by
    intro htype
    obtain ⟨-, -, c, hc, -⟩ := (receive_update htype).1 hreceive
    cases m with
    | update _ | legacyUpdate _ _ => simp [htype, hc, Except.toOption] at hnone
    | _ => cases htype
  exact (receive_spares hupdate hpurge).of_ok hreceive

end Session

namespace Event

open Session

/-- An event tells the database its news or leaves the table alone. -/
theorem heard_or_idle (e : Event) {n : Node} (hlistener : n.conn.mode.isListener = true)
    (hfiled : n.db.table.Filed) :
    (∃ news, e.news? n = some news ∧ news.Heard n (e.session.outcome n)) ∨
      (e.news? n = none ∧ (e.session.outcome n).db.table = n.db.table) := by
  have hidle (hnone : e.news? n = none) (hspares : n.Spares (e.session.outcome n)) :
      e.news? n = none ∧ (e.session.outcome n).db.table = n.db.table :=
    ⟨hnone, congrArg Database.table hspares⟩
  cases e with
  | activate v => exact .inr (hidle rfl (activate_spares v n))
  | frame now bs =>
    cases h : hear now bs n with
    | ok u n' =>
      have hnews : (frame now bs).news? n = (Hub.Act.say () now bs).news? n.conn := by
        rw [news?, h]
      have houtcome : (frame now bs).session.outcome n = n' := outcome_of_ok h
      cases hsay : (Hub.Act.say () now bs).news? n.conn with
      | some news =>
        refine .inl ⟨news, hnews.trans hsay, ?_⟩
        rw [houtcome]
        exact Hub.Act.heard_of_say hlistener hfiled hsay h
      | none =>
        refine .inr (hidle (hnews.trans hsay) ?_)
        rw [houtcome]
        exact hear_spares h hsay
    | error f n' =>
      have houtcome : (frame now bs).session.outcome n = n' := outcome_of_error h
      refine .inr (hidle (by rw [news?, h]) ?_)
      rw [houtcome]
      exact hear_error_db h
  | exception v f => exact .inr (hidle rfl rfl)
  | deactivate =>
    cases h : Session.deactivate n with
    | ok u n' =>
      have houtcome : deactivate.session.outcome n = n' := outcome_of_ok h
      by_cases hon : n.conn.phase = .on
      · refine .inl ⟨.purge, by rw [news?, h]; exact if_pos hon, ?_⟩
        rw [houtcome]
        exact (Hub.Act.leave ()).heard hlistener hon hfiled rfl h
      · refine .inr (hidle (by rw [news?, h]; exact if_neg hon) ?_)
        rw [houtcome]
        exact (deactivate_off h hon).1
    | error f n' =>
      have houtcome : deactivate.session.outcome n = n' := outcome_of_error h
      refine .inr (hidle (by rw [news?, h]) ?_)
      rw [houtcome]
      exact deactivate_error h
  | advertise v => exact .inr (hidle rfl (((advertise_stays v).mono Node.Stays.db).discard n))
  | refuse writes reads => exact .inr ⟨rfl, rfl⟩

end Event

/-- The connection stays between the same two nodes and learns no id of its peer. When it is on it
is under a legacy version, if it was before. -/
structure Node.Incognito (n n' : Node) : Prop where
  mode : n'.conn.mode = n.conn.mode
  localId : n'.conn.localId = n.conn.localId
  peer : n'.conn.line.peer = n.conn.line.peer
  remoteNodeId : n'.conn.remoteNodeId = n.conn.remoteNodeId ∨
    n'.conn.remoteNodeId = n.conn.line.peer.addr4?
  legacy : (n.conn.phase = .on → n.conn.version.isLegacy = true) →
    n'.conn.phase = .on → n'.conn.version.isLegacy = true

namespace Node.Incognito

theorem refl (n : Node) : n.Incognito n := ⟨rfl, rfl, rfl, .inl rfl, id⟩

theorem trans {n₁ n₂ n₃ : Node} (h : n₁.Incognito n₂) (h' : n₂.Incognito n₃) :
    n₁.Incognito n₃ where
  mode := h'.mode.trans h.mode
  localId := h'.localId.trans h.localId
  peer := h'.peer.trans h.peer
  remoteNodeId := by
    rcases h'.remoteNodeId with hname | hname
    · rw [hname]
      exact h.remoteNodeId
    · rw [hname, h.peer]
      exact .inr rfl
  legacy := h'.legacy ∘ h.legacy

end Node.Incognito

/-- An opening gives no id and leads to a legacy version. -/
def Opening.Anonymous (v : Version) (o : Opening) : Prop :=
  o.nodeId? = none ∧ (min v o.version).isLegacy = true

namespace Session

variable {n n' : Node} {now : Instant}

theorem Keeps.incognito_bind {α β : Type} {s : Session α} {f : α → Session β}
    (hs : Keeps Node.Incognito s) (hf : ∀ a, Keeps Node.Incognito (f a)) :
    Keeps Node.Incognito (s >>= f) :=
  Keeps.bind (R := Node.Incognito) (fun _ _ _ => Node.Incognito.trans) hs hf

theorem send_incognito (m : Message) : Keeps Node.Incognito (send m) := by
  apply Keeps.onConnection Node.Incognito.refl
  intro n c h
  obtain ⟨frame, line, -, hextends, rfl⟩ := Connection.send_ok h
  exact ⟨rfl, rfl, hextends.peer, .inl rfl, id⟩

theorem activate_incognito (v : Version) : Keeps Node.Incognito (activate v) := by
  apply (Keeps.connection Node.Incognito.refl).incognito_bind
  intro conn
  apply (Keeps.ofExcept Node.Incognito.refl _).incognito_bind
  intro o
  apply (send_incognito _).incognito_bind
  exact fun _ n => ⟨rfl, rfl, rfl, .inl rfl, fun _ hon => by cases hon⟩

theorem advertise_incognito (v : Version) : Keeps Node.Incognito (advertise v) := by
  intro n
  obtain ⟨front, line, advertised, h, hextends, -⟩ := advertise_outcome v n
  rw [h]
  exact ⟨rfl, rfl, hextends.peer, .inl rfl, id⟩

theorem deactivate_incognito : Keeps Node.Incognito deactivate := by
  intro n
  have h := deactivate_eq n
  dsimp only at h
  have hoff {db : Database} : n.Incognito
      { conn := { n.conn with advertised := ∅, phase := .off }, db } :=
    ⟨rfl, rfl, rfl, .inl rfl, fun _ hon => by cases hon⟩
  split at h
  · split at h
    · rw [outcome_of_ok h]
      exact hoff
    · rw [outcome_of_error h]
      exact hoff
  · rw [outcome_of_ok h]
    exact hoff

theorem shutDown_incognito (v : Version) (f : Fault) (n : Node) :
    n.Incognito { n with conn := n.conn.shutDown v f } := by
  obtain ⟨frames, line, hextends, h, -⟩ := Connection.shutDown_extends v f n.conn
  rw [h]
  exact ⟨rfl, rfl, hextends.peer, .inl rfl, fun _ hon => by cases hon⟩

theorem learn_incognito (changes : Changes) : Keeps Node.Incognito (learn changes) := by
  intro n
  obtain ⟨db, h⟩ := learn_outcome changes n
  rw [h]
  exact ⟨rfl, rfl, rfl, .inl rfl, id⟩

theorem purge_incognito : Keeps Node.Incognito purge := by
  intro n
  obtain ⟨db, h⟩ := purge_outcome n
  rw [h]
  exact ⟨rfl, rfl, rfl, .inl rfl, id⟩

theorem checkListening_incognito : Keeps Node.Incognito checkListening := by
  intro n
  rw [outcome_checkListening]
  exact .refl n

theorem met_incognito {o : Opening} (ho : o.Anonymous n.conn.version) (list : List Capability)
    (holdTime keepaliveTime : Nat) :
    n.Incognito { n with conn := { n.conn.met o list with holdTime, keepaliveTime } } where
  mode := rfl
  localId := rfl
  peer := rfl
  remoteNodeId := by
    refine .inr ?_
    show (o.nodeId? <|> n.conn.line.peer.addr4?) = n.conn.line.peer.addr4?
    rw [ho.1]
    rfl
  legacy := fun _ _ => ho.2

theorem accept_incognito {o : Opening} (ho : o.Anonymous n.conn.version) :
    n.Incognito ((accept o).outcome n) := by
  have h := accept_eq o n
  split at h
  · rw [outcome_of_error h]
    exact .refl n
  · split at h
    · rw [outcome_of_error h]
      exact ⟨rfl, rfl, rfl, .inl rfl, fun _ _ => ho.2⟩
    · next list _ =>
      split at h
      · rw [outcome_of_error h]
        exact met_incognito ho list _ _
      · next c hc =>
        obtain ⟨holdTime, keepaliveTime, rfl⟩ := Connection.timed_ok hc
        rw [outcome_of_ok h]
        exact met_incognito ho list _ _

theorem accept_legacy {o : Opening} (ho : o.Anonymous n.conn.version)
    (h : accept o n = .ok () n') : n'.conn.version.isLegacy = true := by
  obtain ⟨list, c, hc, rfl⟩ := accept_ok h
  obtain ⟨holdTime, keepaliveTime, rfl⟩ := Connection.timed_ok hc
  exact ho.2

/-- Turning on under a legacy version. -/
theorem turnOn_incognito (hlegacy : n.conn.version.isLegacy = true) :
    n.Incognito (turnOn.outcome n) := by
  have hon : n.Incognito { n with conn.phase := .on } :=
    ⟨rfl, rfl, rfl, .inl rfl, fun _ _ => hlegacy⟩
  by_cases hspeaker : n.conn.mode.isSpeaker = true
  · rw [turnOn_outcome hspeaker]
    exact hon.trans (advertise_incognito _ _)
  · rw [outcome, turnOn_eq, if_neg hspeaker]
    exact hon

theorem receive_incognito {m : Message}
    (hm : ∀ o, m = .opening o ∨ m = .reply o → o.Anonymous n.conn.version) :
    n.Incognito ((receive now m).outcome n) := by
  have htrans : ∀ n₁ n₂ n₃ : Node, n₁.Incognito n₂ → n₂.Incognito n₃ → n₁.Incognito n₃ :=
    fun _ _ _ => Node.Incognito.trans
  cases m with
  | opening o =>
    refine outcome_bind htrans (accept_incognito (hm o (.inl rfl))) fun _ n₁ h₁ => ?_
    refine outcome_bind htrans (.refl n₁) fun conn n₂ h₂ => ?_
    cases h₂
    refine outcome_bind htrans (Keeps.ofExcept Node.Incognito.refl _ n₁) fun reply n₃ h₃ => ?_
    obtain ⟨-, rfl⟩ := ofExcept_eq_ok h₃
    refine outcome_bind htrans (send_incognito _ n₃) fun _ n₄ h₄ => ?_
    have hlegacy := accept_legacy (hm o (.inl rfl)) h₁
    obtain ⟨line, hline⟩ := send_outcome (.reply reply) n₃
    rw [outcome_of_ok h₄] at hline
    apply turnOn_incognito
    rw [hline]
    exact hlegacy
  | reply o =>
    exact outcome_bind htrans (accept_incognito (hm o (.inr rfl))) fun _ n₁ h₁ =>
      turnOn_incognito (accept_legacy (hm o (.inr rfl)) h₁)
  | update attributes =>
    refine Keeps.incognito_bind checkListening_incognito (fun _ => ?_) n
    exact (Keeps.ofExcept Node.Incognito.refl _).incognito_bind learn_incognito
  | legacyUpdate version records =>
    refine Keeps.incognito_bind checkListening_incognito (fun _ => ?_) n
    exact (Keeps.connection Node.Incognito.refl).incognito_bind fun conn => learn_incognito _
  | error notice => exact .refl n
  | purgeAll =>
    refine Keeps.incognito_bind (Keeps.connection Node.Incognito.refl) (fun conn => ?_) n
    split
    · exact purge_incognito
    · exact Keeps.pure Node.Incognito.refl ()
  | keepalive => exact ⟨rfl, rfl, rfl, .inl rfl, id⟩

end Session

namespace Event

open Session

/-- An opening or a reply that is heard gives no id and leads to a legacy version. -/
def Anonymous (n : Node) : Event → Prop
  | frame _ bs => ∀ m o, Message.ofFrame n.conn.version bs = .ok m →
      m = .opening o ∨ m = .reply o → o.Anonymous n.conn.version
  | _ => True

theorem incognito {e : Event} {n : Node} (h : e.Anonymous n) :
    n.Incognito (e.session.outcome n) := by
  cases e with
  | activate v => exact activate_incognito v n
  | frame now bs =>
    show n.Incognito ((hear now bs).outcome n)
    cases hread : Message.ofFrame n.conn.version bs with
    | error f =>
      rw [outcome_of_error (hear_of_unread hread)]
      exact shutDown_incognito _ f n
    | ok m =>
      have hhear : hear now bs n = _ := hear_of_read hread
      have hreceive : n.Incognito ((receive now m).outcome n) :=
        receive_incognito fun o => h m o hread
      cases hm : receive now m n with
      | ok u n' =>
        rw [hm] at hhear
        rw [outcome_of_ok hm] at hreceive
        rw [outcome_of_ok hhear]
        exact hreceive
      | error f n' =>
        rw [hm] at hhear
        rw [outcome_of_error hm] at hreceive
        rw [outcome_of_error hhear]
        exact hreceive.trans (shutDown_incognito _ f n')
  | exception v f => exact shutDown_incognito v f n
  | deactivate => exact deactivate_incognito n
  | advertise v => exact (advertise_incognito v).discard n
  | refuse writes reads => exact ⟨rfl, rfl, rfl, .inl rfl, id⟩

/-- What a connection under legacy versions hears announced is put down to its peer. -/
theorem add_path {e : Event} {n : Node} {news : News}
    (hlegacy : n.conn.phase = .on → n.conn.version.isLegacy = true) (h : e.news? n = some news)
    {b : Binding} (hb : b ∈ news.add) : b.path = [n.conn.remoteId] := by
  cases e with
  | frame now bs =>
    rw [news?] at h
    split at h
    · next u n' hhear =>
      obtain ⟨m, hread, hreceive⟩ := hear_eq_ok hhear
      rw [Hub.Act.news?, hread] at h
      cases m with
      | update attributes =>
        obtain ⟨hon, -⟩ := (receive_update rfl).1 hreceive
        have hcurrent := hlegacy hon
        rw [Message.version_of_update hread] at hcurrent
        cases hcurrent
      | legacyUpdate version records =>
        cases h
        obtain ⟨net, path, tag, ⟨rfl, -⟩, rfl⟩ :=
          (Message.mem_add_changes (m := .legacyUpdate version records) rfl).1 hb
        rfl
      | purgeAll =>
        cases h
        cases hb
      | _ => cases h
    · cases h
  | deactivate =>
    rw [news?] at h
    split at h
    · split at h <;> cases h
      cases hb
    · cases h
  | _ => cases h

end Event

/-- Some connections of a node, its database, and over which of them each entry came in. -/
structure Junction (Peer : Type) where
  conn : Peer → Connection
  db : Database
  source : Network → Option Peer

namespace Junction

/-- Something happens on a connection, or its line is made anew. -/
inductive Act (Peer : Type) where
  | event (p : Peer) (e : Event)
  | reconnect (p : Peer)

variable {Peer : Type} {j j' : Junction Peer} {a : Act Peer} {net : Network}

def node (j : Junction Peer) (p : Peer) : Node := ⟨j.conn p, j.db⟩

/-- The id of the peer on a connection, if it gives none. -/
def name (j : Junction Peer) (p : Peer) : NodeId := (j.conn p).line.peer.name

namespace Act

def peer : Act Peer → Peer
  | event p _ => p
  | reconnect p => p

def session : Act Peer → Session Unit
  | event _ e => e.session
  | reconnect _ => Session.modifyConnection fun c => { c with line := c.line.reconnect }

def news? (n : Node) : Act Peer → Option News
  | event _ e => e.news? n
  | reconnect _ => none

def Anonymous (n : Node) : Act Peer → Prop
  | event _ e => e.Anonymous n
  | reconnect _ => True

theorem heard_or_idle (a : Act Peer) {n : Node} (hlistener : n.conn.mode.isListener = true)
    (hfiled : n.db.table.Filed) :
    (∃ news, a.news? n = some news ∧ news.Heard n (a.session.outcome n)) ∨
      (a.news? n = none ∧ (a.session.outcome n).db.table = n.db.table) := by
  cases a with
  | event p e => exact e.heard_or_idle hlistener hfiled
  | reconnect p => exact .inr ⟨rfl, rfl⟩

theorem incognito {n : Node} (h : a.Anonymous n) : n.Incognito (a.session.outcome n) := by
  cases a with
  | event p e => exact Event.incognito h
  | reconnect p => exact ⟨rfl, rfl, rfl, .inl rfl, id⟩

end Act

section Runs

variable [DecidableEq Peer]

/-- The junction with a connection and the database as a node has them. An entry that is new has
come in over the connection. -/
def put (j : Junction Peer) (p : Peer) (n : Node) : Junction Peer where
  conn := Function.update j.conn p n.conn
  db := n.db
  source net :=
    if n.db.table[net]? = j.db.table[net]? then j.source net else n.db.table[net]?.map fun _ => p

/-- What happens, as far as it gets. -/
def step (j : Junction Peer) (a : Act Peer) : Junction Peer :=
  j.put a.peer (a.session.outcome (j.node a.peer))

def run (j : Junction Peer) (acts : List (Act Peer)) : Junction Peer := acts.foldl step j

theorem run_concat (acts : List (Act Peer)) : j.run (acts ++ [a]) = (j.run acts).step a := by
  rw [run, List.foldl_append]
  rfl

/-- No peer gives an id, and no handshake leads to a version that is not legacy. -/
def Anonymous (j : Junction Peer) : List (Act Peer) → Prop
  | [] => True
  | a :: acts => a.Anonymous (j.node a.peer) ∧ (j.step a).Anonymous acts

theorem anonymous_concat {acts : List (Act Peer)} (h : j.Anonymous (acts ++ [a])) :
    j.Anonymous acts ∧ a.Anonymous ((j.run acts).node a.peer) := by
  induction acts generalizing j with
  | nil => exact ⟨trivial, h.1⟩
  | cons b acts ih =>
    obtain ⟨hb, h⟩ := h
    obtain ⟨hacts, ha⟩ := ih h
    exact ⟨⟨hb, hacts⟩, ha⟩

end Runs

/-- What holds all along. What came in over a connection is put down to the peer there. -/
structure Sound (j : Junction Peer) : Prop where
  listening : ∀ p, (j.conn p).mode.isListener = true
  unnamed : ∀ p, (j.conn p).remoteNodeId = none ∨
    (j.conn p).remoteNodeId = (j.conn p).line.peer.addr4?
  legacy : ∀ p, (j.conn p).phase = .on → (j.conn p).version.isLegacy = true
  filed : j.db.table.Filed
  source : ∀ net p, j.source net = some p → net.isDefault = false ∧
    ∃ b, j.db.table[net]? = some b ∧ b.learnedFrom = some (j.name p)

/-- New listening connections. Nothing has come in over them. -/
structure Fresh (j : Junction Peer) : Prop where
  listening : ∀ p, (j.conn p).mode.isListener = true
  off : ∀ p, (j.conn p).phase = .off
  unnamed : ∀ p, (j.conn p).remoteNodeId = none
  filed : j.db.table.Filed
  source : ∀ net, j.source net = none

theorem Fresh.sound (h : j.Fresh) : j.Sound where
  listening := h.listening
  unnamed p := .inl (h.unnamed p)
  legacy p hon := by
    rw [h.off p] at hon
    cases hon
  filed := h.filed
  source net p hsource := by
    rw [h.source net] at hsource
    cases hsource

theorem Sound.remoteId (h : j.Sound) (p : Peer) : (j.conn p).remoteId = j.name p := by
  rw [Connection.remoteId, name, Endpoint.name]
  rcases h.unnamed p with hname | hname
  · rw [hname]
    rfl
  · rw [hname]
    cases (j.conn p).line.peer.addr4? <;> rfl

/-- What is announced over a connection is put down to the peer there. -/
theorem Sound.add_learnedFrom (h : j.Sound) {news : News}
    (hnews : a.news? (j.node a.peer) = some news) {b : Binding} (hb : b ∈ news.add) :
    b.learnedFrom = some (j.name a.peer) := by
  cases a with
  | event p e =>
    have hpath : b.path = [(j.conn p).remoteId] := Event.add_path (h.legacy p) hnews hb
    rw [Binding.learnedFrom, hpath, h.remoteId p]
    rfl
  | reconnect p => cases hnews

section Steps

variable [DecidableEq Peer]

theorem step_incognito (ha : a.Anonymous (j.node a.peer)) (p : Peer) :
    (j.node p).Incognito ((j.step a).node p) := by
  rw [node, node, step, put]
  by_cases hp : p = a.peer
  · subst hp
    dsimp only
    rw [Function.update_self]
    exact Act.incognito ha
  · dsimp only
    rw [Function.update_of_ne hp]
    exact ⟨rfl, rfl, rfl, .inl rfl, id⟩

theorem name_step (ha : a.Anonymous (j.node a.peer)) (p : Peer) :
    (j.step a).name p = j.name p := by
  rw [name, name]
  exact congrArg Endpoint.name (step_incognito ha p).peer

/-- What is announced over a connection competes with the entry, unless this is put down to the peer
and taken back. -/
theorem Sound.entry (h : j.Sound) (a : Act Peer) (net : Network) : ∃ line : List Binding,
    (∀ b ∈ line, net.isDefault = false ∧ b.learnedFrom = some (j.name a.peer)) ∧
      (j.step a).db.table[net]? = line.foldl Binding.contend (j.db.table[net]?.filter fun b =>
        !((a.news? (j.node a.peer)).any (News.takes net) &&
          b.learnedFrom == some (j.name a.peer))) := by
  rcases a.heard_or_idle (n := j.node a.peer) (h.listening a.peer) h.filed with
    ⟨news, hnews, hheard⟩ | ⟨hnews, htable⟩
  · refine ⟨Binding.candidates
      (news.add.filter fun b => !b.path.contains (j.conn a.peer).localId) net, ?_, ?_⟩
    · intro b hb
      obtain ⟨hmem, hnet⟩ := List.mem_filter.1 hb
      obtain ⟨c, hc, rfl⟩ := List.mem_map.1 hmem
      simp only [decide_eq_true_eq] at hnet
      obtain ⟨rfl, hdefault⟩ := hnet
      have hlearned := h.add_learnedFrom hnews (List.mem_filter.1 hc).1
      exact ⟨hdefault, hlearned⟩
    · rw [hnews, ← h.remoteId a.peer]
      exact hheard.entry net
  · refine ⟨[], by simp, ?_⟩
    have hsame : (j.step a).db.table = j.db.table := htable
    rw [hsame, hnews]
    cases j.db.table[net]? <;> rfl

theorem Sound.filed_step (h : j.Sound) (a : Act Peer) : (j.step a).db.table.Filed := by
  rcases a.heard_or_idle (n := j.node a.peer) (h.listening a.peer) h.filed with
    ⟨news, -, hheard⟩ | ⟨-, htable⟩
  · exact hheard.filed
  · have hsame : (j.step a).db.table = j.db.table := htable
    rw [hsame]
    exact h.filed

/-- What has come in over a connection is put down to the peer there. -/
theorem Sound.source_step (h : j.Sound) (ha : a.Anonymous (j.node a.peer)) {p : Peer}
    (hsource : (j.step a).source net = some p) : net.isDefault = false ∧
      ∃ b, (j.step a).db.table[net]? = some b ∧ b.learnedFrom = some ((j.step a).name p) := by
  rw [name_step ha]
  have hdef : (j.step a).source net = if (j.step a).db.table[net]? = j.db.table[net]? then
      j.source net else (j.step a).db.table[net]?.map fun _ => a.peer := rfl
  rw [hdef] at hsource
  split at hsource
  · next hsame =>
    rw [hsame]
    exact h.source net p hsource
  · next hchanged =>
    obtain ⟨b, hb, rfl⟩ := Option.map_eq_some_iff.1 hsource
    obtain ⟨line, hline, hentry⟩ := h.entry a net
    rw [hb] at hentry
    rcases Binding.mem_of_foldl_contend hentry.symm with hmem | hheld
    · obtain ⟨hdefault, hlearned⟩ := hline b hmem
      exact ⟨hdefault, b, hb, hlearned⟩
    · rw [hb, (Option.filter_eq_some_iff.1 hheld).1] at hchanged
      exact absurd rfl hchanged

theorem Sound.step (h : j.Sound) (ha : a.Anonymous (j.node a.peer)) : (j.step a).Sound where
  listening p := (congrArg Mode.isListener (step_incognito ha p).mode).trans (h.listening p)
  unnamed p := by
    have hinc := step_incognito ha p
    have hpeer : ((j.step a).conn p).line.peer = (j.conn p).line.peer := hinc.peer
    rw [hpeer]
    rcases hinc.remoteNodeId with hname | hname
    · exact (h.unnamed p).imp hname.trans hname.trans
    · exact .inr hname
  legacy p := (step_incognito ha p).legacy (h.legacy p)
  filed := h.filed_step a
  source net p hsource := h.source_step ha hsource

/-- The peer takes back what it has announced under a network. -/
def Act.Takes (j : Junction Peer) (net : Network) (a : Act Peer) : Prop :=
  ∃ news, a.news? (j.node a.peer) = some news ∧ news.takes net = true

/-- It does so without announcing the network at the same time. -/
def Act.TakesBack (j : Junction Peer) (net : Network) (a : Act Peer) : Prop :=
  ∃ news, a.news? (j.node a.peer) = some news ∧ news.takes net = true ∧
    ¬news.Announces (j.conn a.peer).localId net

/-- What came in over one connection goes with an act on any when the peers share an id. -/
theorem Sound.gone_step (h : j.Sound) {q : Peer} (hsource : j.source net = some q) :
    (j.step a).db.table[net]? = none ↔ j.name a.peer = j.name q ∧ a.TakesBack j net := by
  obtain ⟨hdefault, b, hb, hlearned⟩ := h.source net q hsource
  rcases a.heard_or_idle (n := j.node a.peer) (h.listening a.peer) h.filed with
    ⟨news, hnews, hheard⟩ | ⟨hnews, htable⟩
  · have hentry := hheard.entry_iff hdefault
    have hremote : (j.node a.peer).conn.remoteId = j.name a.peer := h.remoteId a.peer
    have hb' : (j.node a.peer).db.table[net]? = some b := hb
    rw [hremote, hb'] at hentry
    rw [← not_iff_not, ← ne_eq, Option.ne_none_iff_exists']
    refine Iff.trans hentry ?_
    rw [Act.TakesBack, hnews]
    simp only [Option.some.injEq, exists_eq_left', hlearned, not_and, not_not]
    show News.Announces (j.conn a.peer).localId net news ∨ _ ↔ _
    rw [eq_comm (a := j.name q)]
    tauto
  · have hsame : (j.step a).db.table = j.db.table := htable
    rw [hsame, hb, Act.TakesBack, hnews]
    simp

theorem Sound.run (h : j.Sound) {acts : List (Act Peer)} (hacts : j.Anonymous acts) :
    (j.run acts).Sound ∧
      ∀ p, ((j.run acts).conn p).line.peer = (j.conn p).line.peer := by
  induction acts generalizing j with
  | nil => exact ⟨h, fun _ => rfl⟩
  | cons a acts ih =>
    obtain ⟨ha, hacts⟩ := hacts
    obtain ⟨hsound, hpeer⟩ := ih (h.step ha) hacts
    exact ⟨hsound, fun p => (hpeer p).trans (step_incognito ha p).peer⟩

/-- After any run, what came in over one connection goes with something that happens on another
exactly when neither peer's address tells who it is, and the other peer takes the network back (by a
withdrawal, a purge or the end of its transport) without announcing it at the same time. As long as
one of the addresses tells, or nothing is taken back, the entry only gives way to a better one. -/
theorem gone_iff (hfresh : j.Fresh) {acts : List (Act Peer)} (hacts : j.Anonymous (acts ++ [a]))
    {q : Peer} (haddress : (j.conn a.peer).line.peer.address ≠ (j.conn q).line.peer.address)
    (hsource : (j.run acts).source net = some q) :
    ((j.run (acts ++ [a])).db.table[net]? = none ↔
      ((j.conn a.peer).line.peer.Nameless ∧ (j.conn q).line.peer.Nameless) ∧
        a.TakesBack (j.run acts) net) ∧
    (¬(((j.conn a.peer).line.peer.Nameless ∧ (j.conn q).line.peer.Nameless) ∧
        a.Takes (j.run acts) net) →
      ∃ line : List Binding, (∀ b ∈ line, b.learnedFrom = some (j.name a.peer)) ∧
        (j.run (acts ++ [a])).db.table[net]? =
          line.foldl Binding.contend (j.run acts).db.table[net]?) := by
  obtain ⟨hbefore, ha⟩ := anonymous_concat hacts
  obtain ⟨hsound, hpeer⟩ := hfresh.sound.run hbefore
  have hname (p : Peer) : (j.run acts).name p = j.name p := congrArg Endpoint.name (hpeer p)
  have hshare : j.name a.peer = j.name q ↔
      (j.conn a.peer).line.peer.Nameless ∧ (j.conn q).line.peer.Nameless :=
    Endpoint.name_eq_iff haddress
  rw [run_concat, ← hshare]
  constructor
  · rw [hsound.gone_step hsource, hname, hname]
  · intro hspares
    obtain ⟨line, hline, hentry⟩ := hsound.entry a net
    obtain ⟨-, b, hb, hlearned⟩ := hsound.source net q hsource
    refine ⟨line, fun c hc => hname a.peer ▸ (hline c hc).2, ?_⟩
    have hkept : ((a.news? ((j.run acts).node a.peer)).any (News.takes net) &&
        b.learnedFrom == some ((j.run acts).name a.peer)) = false := by
      rw [Bool.eq_false_iff]
      intro htaken
      rw [Bool.and_eq_true, Option.any_eq_true, hlearned, hname, hname, beq_iff_eq,
        Option.some.injEq] at htaken
      obtain ⟨⟨news, hnews, htakes⟩, hsame⟩ := htaken
      exact hspares ⟨hsame.symm, news, hnews, htakes⟩
    rw [hentry, hb, Option.filter_some, hkept]
    simp

end Steps

/-- A new connection of version 1 with a peer at an address. -/
def newcomer (peer : Addr6) : Connection :=
  .of { peer := ⟨.v6 peer, 64999, 0⟩ } 1 ⟨"speaker", ⟨.v6 peer, 64999, 0⟩, .listener, .v1⟩ {}

/-- A junction with the peers 2001:db8::1 and 2001:db8::2. -/
def twins : Junction Bool where
  conn p := newcomer (if p then 0x20010DB8000000000000000000000002 else
    0x20010DB8000000000000000000000001)
  db := {}
  source _ := none

/-- Both connections turn on, and one of the peers announces an address. -/
def greeting : List (Act Bool) :=
  [.event false (.activate .v1), .event true (.activate .v1),
    .event false (.frame ⟨10, 0⟩ Node.replyFrame), .event true (.frame ⟨11, 0⟩ Node.replyFrame),
    .event true (.frame ⟨20, 0⟩ Node.updateFrame)]

/-- The other peer purges. -/
def clearance : Act Bool := .event false (.frame ⟨30, 0⟩ Node.purgeFrame)

theorem twins_fresh : twins.Fresh where
  listening _ := rfl
  off _ := rfl
  unnamed _ := rfl
  filed := Table.Filed.empty
  source _ := rfl

/-- What happens when a message is heard and is no fault. -/
theorem step_say {p : Peer} {now : Instant} {frame : Bytes} {m : Message} {n : Node}
    [DecidableEq Peer] (hread : Message.ofFrame (j.conn p).version frame = .ok m)
    (hreceive : Session.receive now m (j.node p) = .ok () n) :
    j.step (.event p (.frame now frame)) = j.put p n := by
  have hhear : (Session.hear now frame).outcome (j.node p) = n := by
    apply Session.outcome_of_ok
    rw [Session.hear_of_read (n := j.node p) hread, hreceive]
  rw [← hhear]
  rfl

theorem anonymous_say {p : Peer} {now : Instant} {frame : Bytes} {m : Message} {n : Node}
    [DecidableEq Peer] {acts : List (Act Peer)}
    (hread : Message.ofFrame (j.conn p).version frame = .ok m)
    (hm : ∀ o, m = .opening o ∨ m = .reply o → o.Anonymous (j.conn p).version)
    (hreceive : Session.receive now m (j.node p) = .ok () n) (hacts : (j.put p n).Anonymous acts) :
    j.Anonymous (.event p (.frame now frame) :: acts) := by
  refine ⟨fun m' o hread' hopening => ?_, ?_⟩
  · obtain rfl : m = m' := Except.ok.inj (hread.symm.trans hread')
    exact hm o hopening
  · rw [step_say hread hreceive]
    exact hacts

/-- The two connections with their openings sent. -/
def opened : Junction Bool :=
  (twins.step (.event false (.activate .v1))).step (.event true (.activate .v1))

/-- How the run goes, message by message. -/
theorem opened_receives : ∃ n₁ n₂ n₃ n₄,
    Session.receive ⟨10, 0⟩ Node.speakerReply (opened.node false) = .ok () n₁ ∧
    Session.receive ⟨11, 0⟩ Node.speakerReply ((opened.put false n₁).node true) =
      .ok () n₂ ∧
    Session.receive ⟨20, 0⟩ Node.speakerUpdate
      (((opened.put false n₁).put true n₂).node true) = .ok () n₃ ∧
    Session.receive ⟨30, 0⟩ .purgeAll
      ((((opened.put false n₁).put true n₂).put true n₃).node false) = .ok () n₄ ∧
    n₁.conn.version = .v1 ∧ n₂.conn.version = .v1 ∧
    (((opened.put false n₁).put true n₂).put true n₃).source Hub.spot = some true ∧
    n₄.db.table[Hub.spot]? = none := by
  refine ⟨_, _, _, _, rfl, rfl, rfl, rfl, rfl, rfl, ?_, ?_⟩
  · decide +kernel
  · decide +kernel

theorem greeting_cleared : twins.Anonymous (greeting ++ [clearance]) ∧
    (twins.run greeting).source Hub.spot = some true ∧
    (twins.run (greeting ++ [clearance])).db.table[Hub.spot]? = none := by
  obtain ⟨n₁, n₂, n₃, n₄, h₁, h₂, h₃, h₄, hv₁, hv₂, hsource, hgone⟩ := opened_receives
  have hread₁ := Node.replyFrame_read (opened.conn false).version
  have hread₂ := Node.replyFrame_read ((opened.put false n₁).conn true).version
  have hread₃ : Message.ofFrame (((opened.put false n₁).put true n₂).conn true).version
      Node.updateFrame = .ok Node.speakerUpdate := by
    rw [show (((opened.put false n₁).put true n₂).conn true).version = .v1 from hv₂]
    exact Node.updateFrame_read
  have hread₄ := Node.purgeFrame_read
    ((((opened.put false n₁).put true n₂).put true n₃).conn false).version
  have hreply : ∀ o, Node.speakerReply = .opening o ∨
      Node.speakerReply = .reply o → o.Anonymous .v1 := by
    rintro o (ho | ho) <;> cases ho
    exact ⟨rfl, rfl⟩
  have hrun : twins.run greeting = ((opened.put false n₁).put true n₂).put true n₃ := by
    rw [← step_say hread₃ h₃, ← step_say hread₂ h₂, ← step_say hread₁ h₁]
    rfl
  refine ⟨⟨trivial, trivial, ?_⟩, ?_, ?_⟩
  · refine anonymous_say hread₁ hreply h₁ (anonymous_say hread₂ hreply h₂
      (anonymous_say hread₃ ?_ h₃ (anonymous_say hread₄ ?_ h₄ trivial)))
    · rintro o (ho | ho) <;> cases ho
    · rintro o (ho | ho) <;> cases ho
  · rw [hrun]
    exact hsource
  · rw [run_concat, hrun]
    show (Junction.step _ (.event false _)).db.table[Hub.spot]? = none
    rw [step_say hread₄ h₄]
    exact hgone

theorem twins_apart : (twins.conn clearance.peer).line.peer.address ≠
    (twins.conn true).line.peer.address := by
  decide

theorem gone_iff_twins : twins.Fresh ∧ twins.Anonymous (greeting ++ [clearance]) ∧
    (twins.conn clearance.peer).line.peer.address ≠ (twins.conn true).line.peer.address ∧
    (twins.run greeting).source Hub.spot = some true ∧
    clearance.TakesBack (twins.run greeting) Hub.spot := by
  obtain ⟨hanonymous, hsource, hgone⟩ := greeting_cleared
  obtain ⟨hiff, -⟩ := gone_iff twins_fresh hanonymous twins_apart hsource
  exact ⟨twins_fresh, hanonymous, twins_apart, hsource, (hiff.1 hgone).2⟩

/-- The purge of one peer takes away what came in from the other. -/
theorem twin_disturbs : twins.Fresh ∧ twins.Anonymous (greeting ++ [clearance]) ∧
    (twins.conn false).line.peer.address ≠ (twins.conn true).line.peer.address ∧
    clearance.peer = false ∧ (twins.run greeting).source Hub.spot = some true ∧
    (twins.run (greeting ++ [clearance])).db.table[Hub.spot]? = none := by
  obtain ⟨hanonymous, hsource, hgone⟩ := greeting_cleared
  exact ⟨twins_fresh, hanonymous, twins_apart, rfl, hsource, hgone⟩

end Junction

end TagExchange
