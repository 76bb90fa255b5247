import TagExchange.Proofs.Database.Batches
import TagExchange.Proofs.Session.Attribution

/-!
# One database fed by many peers

A database files one binding for each network, whoever announced it; of what lost there is no
record. So a network that a peer still offers need not be there: another peer may have taken over
its entry and then have taken it back. This is the only way for it to be missing
(`Hub.held_iff`).

A hub is a node with any number of listening connections to peers, each of which can announce and
withdraw networks, purge and leave. What the peers offer is kept along with it. For each network one
act either announces it, after which there is an entry, or takes the entry away, or leaves it as it
is (`Hub.held_step`).
-/

namespace TagExchange

/-- What is heard of networks on a connection. -/
inductive News where
  | update (c : Changes)
  /-- Everything that was announced before is void. -/
  | purge

namespace News

def add : News → List Binding
  | update c => c.add
  | purge => []

def takes (net : Network) : News → Bool
  | update c => net ∈ c.delete
  | purge => true

/-- An announcement that a node of an id listens to. -/
def Announces (id : NodeId) (net : Network) (news : News) : Prop :=
  ∃ b ∈ news.add, b.clean.net = net ∧ id ∉ b.path

/-- What the sender offers afterwards: the path it gave last. -/
def offer (net : Network) (news : News) (before : Option (List NodeId)) : Option (List NodeId) :=
  ((news.add.filter fun b => b.clean.net = net).getLast?.map Binding.path).or
    (if news.takes net then none else before)

end News

/-- What hearing news does: the connection stays with the same two nodes, and each entry is what is
left of the old one, in a contest with what was announced. -/
structure News.Heard (news : News) (n n' : Node) : Prop where
  mode : n'.conn.mode = n.conn.mode
  localId : n'.conn.localId = n.conn.localId
  remoteId : n'.conn.remoteId = n.conn.remoteId
  filed : n'.db.table.Filed
  entry (net : Network) : n'.db.table[net]? =
    (Binding.candidates (news.add.filter fun b => !b.path.contains n.conn.localId) net).foldl
      Binding.contend (n.db.table[net]?.filter fun b =>
        !(news.takes net && b.learnedFrom == some n.conn.remoteId))

theorem Session.heard_of_learn {n n' : Node} {c : Changes} (hfiled : n.db.table.Filed)
    (h : learn c n = .ok () n') : (News.update c).Heard n n' := by
  obtain ⟨doomed, db, winners, db', hdelete, hadd, rfl⟩ := learn_eq_ok.1 h
  have hfiled' := Database.filed_deleteWhere hdelete hfiled
  refine ⟨rfl, rfl, rfl, Database.filed_add hadd hfiled', fun net => ?_⟩
  rw [Database.getElem?_add_candidates hadd, Database.getElem?_deleteWhere hdelete hfiled]
  rfl

theorem Session.heard_of_purge {n n' : Node} {purged : List Binding} {db : Database}
    (hfiled : n.db.table.Filed) (h : n.db.purge n.conn.remoteId = .ok (purged, db))
    (hmode : n'.conn.mode = n.conn.mode) (hlocal : n'.conn.localId = n.conn.localId)
    (hremote : n'.conn.remoteId = n.conn.remoteId) (hdb : n'.db = db) :
    News.purge.Heard n n' := by
  subst hdb
  refine ⟨hmode, hlocal, hremote, Database.filed_deleteWhere h hfiled, fun net => ?_⟩
  rw [Database.getElem?_purge h hfiled]
  rfl

/-- An entry is there afterwards when the network was announced, and when it was there before and was
not taken away. -/
theorem News.Heard.entry_iff {news : News} {n n' : Node} (h : news.Heard n n') {net : Network}
    (hnet : net.isDefault = false) : (∃ b, n'.db.table[net]? = some b) ↔
      news.Announces n.conn.localId net ∨ ∃ b, n.db.table[net]? = some b ∧
        ¬(news.takes net = true ∧ b.learnedFrom = some n.conn.remoteId) := by
  have hannounced : Binding.candidates
      (news.add.filter fun b => !b.path.contains n.conn.localId) net ≠ [] ↔
        news.Announces n.conn.localId net := by
    rw [Binding.candidates_ne_nil_iff, Announces]
    constructor
    · rintro ⟨b, hb, hbnet, -⟩
      obtain ⟨hb, hpath⟩ := List.mem_filter.1 hb
      exact ⟨b, hb, hbnet, by simpa using hpath⟩
    · rintro ⟨b, hb, hbnet, hpath⟩
      exact ⟨b, List.mem_filter.2 ⟨hb, by simpa using hpath⟩, hbnet, hnet⟩
  rw [h.entry, Binding.exists_foldl_contend, hannounced]
  apply or_congr Iff.rfl
  cases n.db.table[net]? <;> simp [Option.filter_some, imp_iff_not_or]

/-- The connections of a node and its database. For each peer and network there is the path that
the peer announced the network with, as long as it has not taken this back. -/
structure Hub (Peer : Type) where
  conn : Peer → Connection
  db : Database
  offers : Peer → Network → Option (List NodeId)

namespace Hub

/-- What a peer can do. -/
inductive Act (Peer : Type) where
  | say (p : Peer) (now : Instant) (frame : Bytes)
  | leave (p : Peer)

namespace Act

variable {Peer : Type}

def peer : Act Peer → Peer
  | say p _ _ => p
  | leave p => p

def session : Act Peer → Session Unit
  | say _ now frame => Session.hear now frame
  | leave _ => Session.deactivate

/-- What a connection hears of it. Only updates and purges count. -/
def news? (c : Connection) : Act Peer → Option News
  | say _ now frame =>
    match Message.ofFrame c.version frame with
    | .ok .purgeAll => some .purge
    | .ok m => if m.type = .update then (m.changes c.remoteId now).toOption.map .update else none
    | .error _ => none
  | leave _ => some .purge

end Act

variable {Peer : Type} {h h' : Hub Peer} {a : Act Peer} {net : Network}

def node (h : Hub Peer) (p : Peer) : Node := ⟨h.conn p, h.db⟩

/-- What is heard of a frame is what the news does. -/
theorem Act.heard_of_say {c : Connection} {db : Database} {news : News} {n' : Node} {p : Peer}
    {now : Instant} {frame : Bytes} (hlistener : c.mode.isListener = true) (hfiled : db.table.Filed)
    (hnews : (say p now frame).news? c = some news)
    (hhear : Session.hear now frame ⟨c, db⟩ = .ok () n') : news.Heard ⟨c, db⟩ n' := by
  rw [news?] at hnews
  split at hnews
  · next hread =>
    cases hnews
    obtain ⟨m, hread', hreceive⟩ := Session.hear_eq_ok hhear
    obtain rfl : .purgeAll = m := Except.ok.inj (hread.symm.trans hread')
    rw [Session.receive_purgeAll now hlistener] at hreceive
    obtain ⟨purged, db', hpurge, rfl⟩ := Session.purge_eq_ok.1 hreceive
    exact Session.heard_of_purge hfiled hpurge rfl rfl rfl rfl
  · next m _ hread =>
    split at hnews
    · next hm =>
      obtain ⟨-, -, ch, hch, hlearn⟩ :=
        (Session.hear_update_eq_ok (n := ⟨c, db⟩) hread hm).1 hhear
      have hch' : m.changes c.remoteId now = .ok ch := hch
      rw [hch'] at hnews
      cases hnews
      exact Session.heard_of_learn hfiled hlearn
    · cases hnews
  · cases hnews

theorem Act.heard {c : Connection} {db : Database} {news : News} {n' : Node}
    (hlistener : c.mode.isListener = true) (hon : c.phase = .on) (hfiled : db.table.Filed)
    (hnews : a.news? c = some news) (hsession : a.session ⟨c, db⟩ = .ok () n') :
    news.Heard ⟨c, db⟩ n' := by
  cases a with
  | leave p =>
    cases hnews
    obtain ⟨purged, db', hpurge, rfl⟩ :=
      (Session.deactivate_eq_ok (n := ⟨c, db⟩) hon hlistener).1 hsession
    exact Session.heard_of_purge hfiled hpurge rfl rfl rfl rfl
  | say p now frame => exact heard_of_say hlistener hfiled hnews hsession

section Steps

variable [DecidableEq Peer]

/-- What a peer does while its connection is on, unless it is a fault. -/
def step? (h : Hub Peer) (a : Act Peer) : Option (Hub Peer) :=
  match a.news? (h.conn a.peer), a.session (h.node a.peer) with
  | some news, .ok () n =>
    if (h.conn a.peer).phase = .on then
      some {
        conn := Function.update h.conn a.peer n.conn
        db := n.db
        offers := Function.update h.offers a.peer fun net => news.offer net (h.offers a.peer net) }
    else none
  | _, _ => none

def run? (h : Hub Peer) (acts : List (Act Peer)) : Option (Hub Peer) := acts.foldlM step? h

theorem step?_eq_some : h.step? a = some h' ↔ ∃ news n,
    a.news? (h.conn a.peer) = some news ∧ a.session (h.node a.peer) = .ok () n ∧
      (h.conn a.peer).phase = .on ∧
      h' = { conn := Function.update h.conn a.peer n.conn
             db := n.db
             offers := Function.update h.offers a.peer fun net =>
               news.offer net (h.offers a.peer net) } := by
  rw [step?]
  constructor
  · intro hstep
    split at hstep
    · next news n hnews hsession =>
      split at hstep
      · next hon =>
        cases hstep
        exact ⟨news, n, hnews, hsession, hon, rfl⟩
      · cases hstep
    · cases hstep
  · rintro ⟨news, n, hnews, hsession, hon, rfl⟩
    rw [hnews, hsession]
    exact if_pos hon

end Steps

/-- There is an entry for a network. -/
def Holds (h : Hub Peer) (net : Network) : Prop := ∃ b, h.db.table[net]? = some b

/-- The act announces a network with a path that has not been through the hub. -/
def Act.Announces (h : Hub Peer) (net : Network) (a : Act Peer) : Prop :=
  ∃ news, a.news? (h.conn a.peer) = some news ∧ news.Announces (h.conn a.peer).localId net

/-- The act takes the entry of a network away: the entry is put down to the peer, which takes the
network back and does not announce it at the same time. -/
def Act.Removes (h : Hub Peer) (net : Network) (a : Act Peer) : Prop :=
  ∃ news b, a.news? (h.conn a.peer) = some news ∧
    ¬news.Announces (h.conn a.peer).localId net ∧ news.takes net = true ∧
    h.db.table[net]? = some b ∧ b.learnedFrom = some (h.conn a.peer).remoteId

/-- What holds all along. -/
structure Sound (h : Hub Peer) : Prop where
  listening : ∀ p, (h.conn p).mode.isListener = true
  filed : h.db.table.Filed

/-- A hub of which nobody has heard anything yet. -/
structure Fresh (h : Hub Peer) : Prop extends h.Sound where
  silent : ∀ p net, h.offers p net = none

section Runs

variable [DecidableEq Peer]

/-- What a step does: the news is heard, and what its sender offers changes with it. -/
theorem step_heard (hsound : h.Sound) (hstep : h.step? a = some h') : ∃ news n,
    a.news? (h.conn a.peer) = some news ∧ news.Heard (h.node a.peer) n ∧ h'.db = n.db ∧
      h'.conn = Function.update h.conn a.peer n.conn ∧
      h'.offers = Function.update h.offers a.peer fun net =>
        news.offer net (h.offers a.peer net) := by
  obtain ⟨news, n, hnews, hsession, hon, rfl⟩ := step?_eq_some.1 hstep
  exact ⟨news, n, hnews, a.heard (hsound.listening a.peer) hon hsound.filed hnews hsession, rfl,
    rfl, rfl⟩

theorem Sound.step (hsound : h.Sound) (hstep : h.step? a = some h') :
    h'.Sound ∧ ∀ p, (h'.conn p).localId = (h.conn p).localId := by
  obtain ⟨news, n, -, hheard, hdb, hconn, -⟩ := step_heard hsound hstep
  refine ⟨⟨fun p => ?_, hdb ▸ hheard.filed⟩, fun p => ?_⟩
  · rw [hconn]
    by_cases hp : p = a.peer
    · subst hp
      rw [Function.update_self]
      exact (congrArg Mode.isListener hheard.mode).trans (hsound.listening _)
    · rw [Function.update_of_ne hp]
      exact hsound.listening p
  · rw [hconn]
    by_cases hp : p = a.peer
    · subst hp
      rw [Function.update_self]
      exact hheard.localId
    · rw [Function.update_of_ne hp]

/-- One step announces a network, or removes its entry, or leaves it. -/
theorem held_step (hsound : h.Sound) (hstep : h.step? a = some h') (hnet : net.isDefault = false) :
    h'.Holds net ↔ a.Announces h net ∨ (h.Holds net ∧ ¬a.Removes h net) := by
  obtain ⟨news, n, hnews, hheard, hdb, -⟩ := step_heard hsound hstep
  rw [Holds, hdb, hheard.entry_iff hnet]
  have hannounces : a.Announces h net ↔ news.Announces (h.conn a.peer).localId net := by
    rw [Act.Announces, hnews]
    simp
  rw [hannounces]
  constructor
  · rintro (hann | ⟨b, hb, hkept⟩)
    · exact .inl hann
    · by_cases hann : news.Announces (h.conn a.peer).localId net
      · exact .inl hann
      · refine .inr ⟨⟨b, hb⟩, ?_⟩
        rintro ⟨news', b', hnews', -, htakes, hb', hpeer⟩
        rw [hnews] at hnews'
        cases hnews'
        obtain rfl : b = b' := Option.some.inj (hb.symm.trans hb')
        exact hkept ⟨htakes, hpeer⟩
  · rintro (hann | ⟨⟨b, hb⟩, hkept⟩)
    · exact .inl hann
    · by_cases hann : news.Announces (h.conn a.peer).localId net
      · exact .inl hann
      · exact .inr ⟨b, hb, fun hgone => hkept ⟨news, b, hnews, hann, hgone.1, hb, hgone.2⟩⟩

/-- What a peer offers after a step, it has announced with it or offered before. Then it has not
removed the entry. -/
theorem offers_step (hsound : h.Sound) (hstep : h.step? a = some h') {p : Peer}
    {path : List NodeId} (hoffer : h'.offers p net = some path)
    (hpath : (h.conn p).localId ∉ path) :
    a.Announces h net ∨ (h.offers p net = some path ∧ (a.Removes h net → a.peer ≠ p)) := by
  obtain ⟨news, n, hnews, -, -, -, hoffers⟩ := step_heard hsound hstep
  rw [hoffers] at hoffer
  by_cases hp : p = a.peer
  · subst hp
    rw [Function.update_self, News.offer] at hoffer
    cases hlast : (news.add.filter fun b => b.clean.net = net).getLast? with
    | some b =>
      rw [hlast] at hoffer
      cases hoffer
      obtain ⟨hb, hbnet⟩ := List.mem_filter.1 (List.mem_of_getLast? hlast)
      exact .inl ⟨news, hnews, b, hb, by simpa using hbnet, hpath⟩
    | none =>
      rw [hlast, Option.map_none, Option.none_or] at hoffer
      split at hoffer
      · cases hoffer
      · next htakes =>
        refine .inr ⟨hoffer, ?_⟩
        rintro ⟨news', b, hnews', -, htakes', -⟩
        rw [hnews] at hnews'
        cases hnews'
        exact absurd htakes' htakes
  · rw [Function.update_of_ne hp] at hoffer
    exact .inr ⟨hoffer, fun _ => Ne.symm hp⟩

theorem run?_concat {acts : List (Act Peer)} : h.run? (acts ++ [a]) = some h' ↔
    ∃ mid, h.run? acts = some mid ∧ mid.step? a = some h' := by
  rw [run?, List.foldlM_append, Option.bind_eq_bind, Option.bind_eq_some_iff]
  simp [run?]

theorem Sound.run (hsound : h.Sound) {acts : List (Act Peer)} (hrun : h.run? acts = some h') :
    h'.Sound ∧ ∀ p, (h'.conn p).localId = (h.conn p).localId := by
  induction acts using List.reverseRecOn generalizing h' with
  | nil =>
    cases hrun
    exact ⟨hsound, fun _ => rfl⟩
  | append_singleton acts a ih =>
    obtain ⟨mid, hmid, hstep⟩ := run?_concat.1 hrun
    obtain ⟨hsound', hsame⟩ := ih hmid
    obtain ⟨hsound'', hsame'⟩ := hsound'.step hstep
    exact ⟨hsound'', fun p => (hsame' p).trans (hsame p)⟩

/-- On the way another peer than the given one removed the entry of a network, and nobody has
announced the network since. -/
def Lost (h : Hub Peer) (acts : List (Act Peer)) (p : Peer) (net : Network) : Prop :=
  ∃ front a back, acts = front ++ a :: back ∧
    (a.peer ≠ p ∧ ∃ mid, h.run? front = some mid ∧ a.Removes mid net) ∧
    ¬∃ front' b back', back = front' ++ b :: back' ∧
      ∃ mid, h.run? (front ++ a :: front') = some mid ∧ b.Announces mid net

theorem lost_concat {acts : List (Act Peer)} {mid : Hub Peer} (hmid : h.run? acts = some mid)
    {p : Peer} : h.Lost (acts ++ [a]) p net ↔
      (a.peer ≠ p ∧ a.Removes mid net) ∨ (h.Lost acts p net ∧ ¬a.Announces mid net) := by
  rw [Lost, exists_split_concat]
  apply or_congr
  · simp [hmid]
  · simp only [exists_split_concat, not_or]
    constructor
    · rintro ⟨front, c, back, rfl, hremoves, hlast, hsince⟩
      exact ⟨⟨front, c, back, rfl, hremoves, hsince⟩, fun hann => hlast ⟨mid, hmid, hann⟩⟩
    · rintro ⟨⟨front, c, back, rfl, hremoves, hsince⟩, hnot⟩
      refine ⟨front, c, back, rfl, hremoves, ?_, hsince⟩
      rintro ⟨mid', hmid', hann⟩
      rw [hmid] at hmid'
      cases hmid'
      exact hnot hann

theorem not_held_of_lost (hsound : h.Sound) {acts : List (Act Peer)} (hrun : h.run? acts = some h')
    {p : Peer} (hnet : net.isDefault = false) (hlost : h.Lost acts p net) : ¬h'.Holds net := by
  induction acts using List.reverseRecOn generalizing h' with
  | nil =>
    obtain ⟨front, a, back, hsplit, -⟩ := hlost
    simp at hsplit
  | append_singleton acts a ih =>
    obtain ⟨mid, hmid, hstep⟩ := run?_concat.1 hrun
    rw [held_step (hsound.run hmid).1 hstep hnet]
    rcases (lost_concat hmid).1 hlost with ⟨-, hremoves⟩ | ⟨hlost, hann⟩
    · rintro (⟨news, hnews, hann⟩ | ⟨-, hnot⟩)
      · obtain ⟨news', b, hnews', hnot, -⟩ := hremoves
        rw [hnews] at hnews'
        cases hnews'
        exact hnot hann
      · exact hnot hremoves
    · rintro (hann' | ⟨hheld, -⟩)
      · exact hann hann'
      · exact ih hmid hlost hheld

theorem held_or_lost (hfresh : h.Fresh) {acts : List (Act Peer)} (hrun : h.run? acts = some h')
    {p : Peer} {path : List NodeId} (hoffer : h'.offers p net = some path)
    (hpath : (h.conn p).localId ∉ path) (hnet : net.isDefault = false) :
    h'.Holds net ∨ h.Lost acts p net := by
  induction acts using List.reverseRecOn generalizing h' with
  | nil =>
    cases hrun
    rw [hfresh.silent] at hoffer
    cases hoffer
  | append_singleton acts a ih =>
    obtain ⟨mid, hmid, hstep⟩ := run?_concat.1 hrun
    obtain ⟨hsound, hsame⟩ := hfresh.toSound.run hmid
    rw [held_step hsound hstep hnet, lost_concat hmid]
    by_cases hann : a.Announces mid net
    · exact .inl (.inl hann)
    · obtain ⟨hbefore, hother⟩ := (offers_step hsound hstep hoffer (hsame p ▸ hpath)).resolve_left
        hann
      rcases ih hmid hbefore with hheld | hlost
      · by_cases hremoves : a.Removes mid net
        · exact .inr (.inl ⟨hother hremoves, hremoves⟩)
        · exact .inl (.inr ⟨hheld, hremoves⟩)
      · exact .inr (.inr ⟨hlost, hann⟩)

/-- A network that a peer offers, with a path that has not been through the hub, has an entry unless
another peer has removed it and nobody has announced the network since. -/
theorem held_iff (hfresh : h.Fresh) {acts : List (Act Peer)} (hrun : h.run? acts = some h')
    {p : Peer} {path : List NodeId} (hoffer : h'.offers p net = some path)
    (hpath : (h.conn p).localId ∉ path) (hnet : net.isDefault = false) :
    h'.Holds net ↔ ¬h.Lost acts p net := by
  constructor
  · intro hheld hlost
    exact not_held_of_lost hfresh.toSound hrun hnet hlost hheld
  · intro hnot
    exact (held_or_lost hfresh hrun hoffer hpath hnet).resolve_right hnot

/-- An update of a peer whose connection is on goes through when the store takes every write. -/
theorem step?_of_accepts (now : Instant) (hsound : h.Sound) (haccepts : h.db.store.Accepts)
    {p : Peer} (hon : (h.conn p).phase = .on) {frame : Bytes} {m : Message} {c : Changes}
    (hread : Message.ofFrame (h.conn p).version frame = .ok m) (hm : m.type = .update)
    (hc : m.changes (h.conn p).remoteId now = .ok c) :
    (Act.say p now frame).news? (h.conn p) = some (.update c) ∧
      ∃ db, h.step? (.say p now frame) = some
          ⟨h.conn, db, Function.update h.offers p fun net =>
            (News.update c).offer net (h.offers p net)⟩ ∧
        db.store.Accepts ∧ (News.update c).Heard (h.node p) ⟨h.conn p, db⟩ := by
  have hnews : (Act.say p now frame).news? (h.conn p) = some (.update c) := by
    cases m with
    | update _ | legacyUpdate _ _ => simp [Act.news?, hread, hm, hc, Except.toOption]
    | _ => cases hm
  obtain ⟨db, hlearn, haccepts'⟩ := Session.learn_of_accepts (n := h.node p) haccepts c
  refine ⟨hnews, db, ?_, haccepts', Session.heard_of_learn hsound.filed hlearn⟩
  refine step?_eq_some.2 ⟨_, _, hnews, (Session.hear_update_eq_ok (n := h.node p) hread hm).2
    ⟨hon, hsound.listening p, c, hc, hlearn⟩, hon, ?_⟩
  show _ = Hub.mk (Function.update h.conn p (h.conn p)) db _
  rw [Function.update_eq_self]
  rfl

@[simp] theorem run?_nil : h.run? [] = some h := rfl

theorem run?_cons {acts : List (Act Peer)} (hstep : h.step? a = some h') :
    h.run? (a :: acts) = h'.run? acts := by
  rw [run?, List.foldlM_cons, hstep]
  rfl

end Runs

/-- A connection of version 1 that is on, with a peer at an address. -/
def ear (peer : Addr4) : Connection :=
  { Connection.of { peer := ⟨.v4 peer, 64999, 0⟩ } 1
      ⟨"speaker", ⟨.v4 peer, 64999, 0⟩, .listener, .v1⟩ {} with
    phase := .on }

/-- A hub with the peers 10.0.0.2 and 10.0.0.3. -/
def pair : Hub Bool where
  conn p := ear (if p then 0x0A000003 else 0x0A000002)
  db := {}
  offers _ _ := none

def spot : Network := .v4 ⟨0x0A000005, 32⟩

def deleteFrame : Bytes := [0, 0, 0, 20, 0, 0, 0, 3, 0, 0, 0, 3, 0, 0, 0, 4, 10, 0, 0, 5]

/-- One peer announces an address, then the other announces it too and withdraws it again. -/
def takeover : List (Act Bool) :=
  [.say false ⟨10, 0⟩ Node.updateFrame, .say true ⟨20, 0⟩ Node.updateFrame,
    .say true ⟨30, 0⟩ deleteFrame]

def deletion : Message := .legacyUpdate .v1 [⟨.delIpv4, spot, none⟩]

theorem pair_fresh : pair.Fresh where
  listening := fun _ => rfl
  filed := Table.Filed.empty
  silent := fun _ _ => rfl

theorem deleteFrame_read : Message.ofFrame .v1 deleteFrame = .ok deletion := by
  have hwell : deletion.WellFormed .v1 := by
    refine ⟨rfl, rfl, fun r hr => ?_⟩
    obtain rfl := List.mem_singleton.1 hr
    exact ⟨.inr rfl, by simp [MappingType.isAdd], fun _ => rfl⟩
  exact Message.ofFrame_of_frame hwell rfl

/-- The second announcement takes the place of the first, and then it is withdrawn. -/
theorem run_takeover : ∃ h', pair.run? takeover = some h' ∧ h'.conn = pair.conn ∧
    h'.offers false spot = some [0x0A000002] ∧ h'.db.table[spot]? = none := by
  obtain ⟨-, db₁, h₁, haccepts₁, hheard₁⟩ := step?_of_accepts ⟨10, 0⟩ pair_fresh.toSound
    trivial (p := false) rfl Node.updateFrame_read rfl rfl
  obtain ⟨hsound₁, -⟩ := pair_fresh.toSound.step h₁
  obtain ⟨-, db₂, h₂, haccepts₂, hheard₂⟩ := step?_of_accepts ⟨20, 0⟩ hsound₁
    haccepts₁ (p := true) rfl Node.updateFrame_read rfl rfl
  obtain ⟨hsound₂, -⟩ := hsound₁.step h₂
  obtain ⟨-, db₃, h₃, -, hheard₃⟩ := step?_of_accepts ⟨30, 0⟩ hsound₂
    haccepts₂ (p := true) rfl deleteFrame_read rfl rfl
  have hentry₁ : db₁.table[spot]? = some ⟨spot, 100, [0x0A000002], ⟨10, 0⟩⟩ := by
    rw [hheard₁.entry spot]
    decide +kernel
  have hentry₂ : db₂.table[spot]? = some ⟨spot, 100, [0x0A000003], ⟨20, 0⟩⟩ := by
    rw [hheard₂.entry spot, node]
    dsimp only
    rw [hentry₁]
    decide +kernel
  have hentry₃ : db₃.table[spot]? = none := by
    rw [hheard₃.entry spot, node]
    dsimp only
    rw [hentry₂]
    decide +kernel
  have hrun := (run?_cons h₁).trans ((run?_cons h₂).trans ((run?_cons h₃).trans run?_nil))
  exact ⟨_, hrun, rfl, rfl, hentry₃⟩

theorem held_iff_takeover : pair.Fresh ∧ (∃ h', pair.run? takeover = some h' ∧
    h'.offers false spot = some [0x0A000002]) ∧ (pair.conn false).localId ∉ [0x0A000002] ∧
    spot.isDefault = false ∧ pair.Lost takeover false spot := by
  obtain ⟨h', hrun, -, hoffer, hnone⟩ := run_takeover
  have hpath : (pair.conn false).localId ∉ [0x0A000002] := by decide
  refine ⟨pair_fresh, ⟨h', hrun, hoffer⟩, hpath, rfl, ?_⟩
  by_contra hnot
  obtain ⟨b, hb⟩ := (held_iff pair_fresh hrun hoffer hpath rfl).2 hnot
  rw [hnone] at hb
  cases hb

/-- The first peer is still there and has not taken anything back, and there is no entry. -/
theorem takeover_not_held : pair.Fresh ∧
    (pair.conn false).remoteId ≠ (pair.conn true).remoteId ∧
    ∃ h', pair.run? takeover = some h' ∧ (h'.conn false).phase = .on ∧
      h'.offers false spot = some [0x0A000002] ∧ (pair.conn false).localId ∉ [0x0A000002] ∧
      spot.isDefault = false ∧ ¬h'.Holds spot := by
  obtain ⟨h', hrun, hconn, hoffer, hnone⟩ := run_takeover
  refine ⟨pair_fresh, by decide, h', hrun, ?_, hoffer, by decide, rfl, ?_⟩
  · rw [hconn]
    rfl
  · rintro ⟨b, hb⟩
    rw [hnone] at hb
    cases hb

end Hub

end TagExchange
