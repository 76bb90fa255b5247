import TagExchange.Proofs.Exchange.History

/-!
# A speaker that feeds a listener

A speaker and a listener of version 4 on one line. The speaker's database changes, the speaker
brings its peer up to date every now and then, and the frames are delivered in order, each later
than the one before. The tables that the speaker has exported from are kept along.

The invariant `Feed.Sound` looks ahead: what the listener will hold once it has heard all that is on
its way is what the history of exports leaves. An export adds to that what the difference between
two tables does, and a delivery changes nothing.
-/

namespace TagExchange

namespace Table

/-- What of a table goes to a peer: what has not been through it. -/
def visible (peer : NodeId) (t : Table) : Table :=
  ofBindings (t.bindings.filter fun b => !b.path.contains peer)

theorem getElem?_visible {t : Table} (h : t.Filed) (peer : NodeId) (n : Network) :
    (t.visible peer)[n]? = t[n]?.filter fun b => !b.path.contains peer := by
  have hget : ∀ b ∈ t.bindings.filter (fun b => !b.path.contains peer), t[b.net]? = some b :=
    fun b hb => h.mem_bindings.1 (List.mem_filter.1 hb).1
  rw [visible, ofBindings, getElem?_fileAll hget]
  cases hn : t[n]? with
  | none => simp
  | some b =>
    have hnet := h n b hn
    subst hnet
    by_cases hback : b.path.contains peer = true
    · have hmem : b.net ∉ (t.bindings.filter fun b => !b.path.contains peer).map Binding.net := by
        intro hmem
        obtain ⟨c, hc, hnet⟩ := List.mem_map.1 hmem
        have hcb := hget c hc
        rw [hnet, hn] at hcb
        cases hcb
        have hkept := (List.mem_filter.1 hc).2
        rw [hback] at hkept
        cases hkept
      rw [if_neg hmem, Option.filter_some, hback]
      rfl
    · have hback := Bool.eq_false_of_not_eq_true hback
      have hmem : b.net ∈ (t.bindings.filter fun b => !b.path.contains peer).map Binding.net :=
        List.mem_map.2 ⟨b, List.mem_filter.2 ⟨h.mem_bindings.2 hn, by rw [hback]; rfl⟩, rfl⟩
      rw [if_pos hmem, Option.filter_some, hback]
      rfl

/-- Bindings that can go into updates: filed, with canonical networks and no default route. -/
structure Announceable (t : Table) : Prop where
  filed : t.Filed
  canonical : ∀ b ∈ t.bindings, b.net.Canonical
  specific : ∀ b ∈ t.bindings, b.net.isDefault = false

theorem announceable_empty : Announceable ∅ where
  filed := Filed.empty
  canonical := by simp [mem_bindings]
  specific := by simp [mem_bindings]

variable {t : Table} {peer : NodeId}

theorem mem_visible (h : t.Filed) {b : Binding} :
    b ∈ (t.visible peer).bindings ↔ b ∈ t.bindings ∧ b.path.contains peer = false := by
  simp [mem_bindings, getElem?_visible h, Option.filter_eq_some_iff]

theorem Announceable.visible (h : t.Announceable) : (t.visible peer).Announceable where
  filed := Filed.ofBindings _
  canonical := fun b hb => h.canonical b ((mem_visible h.filed).1 hb).1
  specific := fun b hb => h.specific b ((mem_visible h.filed).1 hb).1

end Table

/-- What can happen to a feed. -/
inductive Act where
  | add (batch : List Binding)
  | delete (nets : List Network)
  | purge (peer : NodeId)
  | advertise
  /-- The listener hears the next frame at an instant. -/
  | deliver (now : Instant)

namespace Act

/-- The lengths of added networks lie within their family. -/
def Proper : Act → Prop
  | add batch => ∀ b ∈ batch, b.clean.net.Canonical
  | delete _ | purge _ | advertise | deliver _ => True

/-- The instant at which something is heard. -/
def reading? : Act → Option Instant
  | deliver now => some now
  | add _ | delete _ | purge _ | advertise => none

/-- Proper acts in which every frame is heard later than the one before. -/
structure Orderly (acts : List Act) : Prop where
  proper : ∀ a ∈ acts, a.Proper
  ascending : (acts.filterMap reading?).Pairwise fun now later => now < later

theorem Orderly.tail {a : Act} {acts : List Act} (h : Orderly (a :: acts)) : Orderly acts where
  proper := fun b hb => h.proper b (List.mem_cons_of_mem a hb)
  ascending := by
    have hall := h.ascending
    rw [List.filterMap_cons] at hall
    split at hall
    · exact hall
    · exact hall.of_cons

theorem Orderly.head_lt {a : Act} {acts : List Act} (h : Orderly (a :: acts)) {now later : Instant}
    (hnow : a.reading? = some now) (hlater : later ∈ acts.filterMap reading?) : now < later := by
  have hall := h.ascending
  rw [List.filterMap_cons_some hnow] at hall
  exact List.rel_of_pairwise_cons hall hlater

end Act

/-- A speaker, the listener at the other end of its line, and the tables that the speaker has
exported from so far, the newest first. -/
structure Feed where
  speaker : Node
  listener : Node
  exports : List Table := []

namespace Feed

/-- Changes the speaker's database, unless its store refuses. -/
def change (op : Database → Except StoreError (List Binding × Database)) (f : Feed) : Feed :=
  match op f.speaker.db with
  | .ok (_, db) => { f with speaker := { f.speaker with db } }
  | .error _ => f

/-- The speaker brings the listener up to date. -/
def advertise (f : Feed) : Feed :=
  match Session.advertise f.speaker.conn.version f.speaker with
  | .ok _ speaker => { f with speaker, exports := f.speaker.db.table :: f.exports }
  | .error _ speaker => { f with speaker }

/-- The listener hears the next frame on its way. -/
def deliver (now : Instant) (f : Feed) : Feed :=
  match f.speaker.conn.line.pending with
  | [] => f
  | frame :: _ =>
    let conn := f.speaker.conn
    let line := { conn.line with taken := conn.line.taken + 1 }
    { f with
      speaker := { f.speaker with conn := { conn with line } }
      listener := (Session.hear now frame).outcome f.listener }

def step (f : Feed) : Act → Feed
  | .add batch => f.change fun db => db.add batch
  | .delete nets => f.change fun db => db.delete nets
  | .purge peer => f.change fun db => db.purge peer
  | .advertise => f.advertise
  | .deliver now => f.deliver now

def run (f : Feed) (acts : List Act) : Feed := acts.foldl step f

end Feed

/-- A speaker of version 4 that is on. -/
structure Node.Speaking (listener : NodeId) (n : Node) : Prop where
  phase : n.conn.phase = .on
  mode : n.conn.mode.isSpeaker = true
  version : n.conn.version = .v4
  peer : n.conn.remoteId = listener
  isOpen : n.conn.line.closed = false
  credit : n.conn.line.credit = none
  table : n.db.table.Announceable

namespace Feed

/-- A feed at the end of the handshake: the speaker is about to make its first export, and the
listener has nothing. -/
structure Joined (f : Feed) : Prop where
  speaking : f.speaker.Speaking f.listener.conn.localId
  listening : f.listener.Listening f.speaker.conn.localId
  idle : f.speaker.conn.line.taken = f.speaker.conn.line.sent.length
  advertised : f.speaker.conn.advertised = ∅
  empty : f.listener.db.table = ∅
  exports : f.exports = []

/-- A frame for a listener that carries a part of the changes. -/
def Carried (id listener : NodeId) (part : Part) (frame : Bytes) : Prop :=
  part.Sendable listener ∧ ∃ caps filter, (∀ b ∈ part.2, filter b = false) ∧
    Composer.Carries (.current id caps filter) part frame

/-- What has been exported to a peer, the newest first. -/
def exported (peer : NodeId) (f : Feed) : List Table := f.exports.map (Table.visible peer)

/-- What holds all along between a speaker with an id and a listener with a connection. The last
clause is about the time when all that is on its way will have been heard. -/
structure Sound (id : NodeId) (conn : Connection) (f : Feed) : Prop where
  speakerId : f.speaker.conn.localId = id
  listenerConn : f.listener.conn = conn
  speaking : f.speaker.Speaking conn.localId
  listening : f.listener.Listening id
  taken : f.speaker.conn.line.taken ≤ f.speaker.conn.line.sent.length
  advertised : f.speaker.conn.advertised = (f.exported conn.localId).headD ∅
  announceable : ((f.exported conn.localId).headD ∅).Announceable
  filed : ∀ t ∈ f.exports, t.Filed
  pending : ∃ parts, List.Forall₂ (Carried id conn.localId) parts f.speaker.conn.line.pending ∧
    ∀ n, Part.settleAll id parts f.listener.db.table.told n =
      Exports.held id (f.exported conn.localId) n

theorem Joined.sound {f : Feed} (h : f.Joined) :
    f.Sound f.speaker.conn.localId f.listener.conn where
  speakerId := rfl
  listenerConn := rfl
  speaking := h.speaking
  listening := h.listening
  taken := Nat.le_of_eq h.idle
  advertised := by rw [h.advertised, exported, h.exports]; rfl
  announceable := by rw [exported, h.exports]; exact Table.announceable_empty
  filed := by simp [h.exports]
  pending := by
    refine ⟨[], ?_, ?_⟩
    · rw [Line.pending, h.idle, List.drop_length]
      exact .nil
    · intro n
      rw [exported, h.exports]
      simp [Part.settleAll, Table.told, h.empty, Exports.held]

end Feed

end TagExchange
