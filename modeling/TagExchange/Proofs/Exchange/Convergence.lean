import TagExchange.Proofs.Exchange.Delivery
import TagExchange.Proofs.Session.Exports

/-!
# What a listener ends up with

Whenever nothing is left on its way, a listener holds what the history of the exports leaves
(`Feed.Sound.told_eq_held`). That is what the speaker exported last, each path one hop longer,
exactly when no binding of that export replaced one with a shorter path (`Feed.converged_iff`): a
replacement is sent as an addition and nothing else, and the listener refuses one with a longer
path. So a binding that was deleted and added again with a longer path between two exports stays
behind (`Feed.detour_not_converged`).
-/

namespace TagExchange

namespace Exports

/-- The newest export is held, network by network, exactly when no path of its got longer. -/
theorem held_eq_newest_iff (id : NodeId) (next : Table) (older : List Table) :
    (∀ n, held id (next :: older) n = next[n]?.map (Binding.told id)) ↔
      ∀ (n : Network) (b : Binding), next[n]? = some b →
        ∀ c ∈ since n older, b.path.length ≤ c.path.length := by
  constructor
  · intro hall n b hb
    have h := hall n
    rw [hb] at h
    exact (held_eq_told_iff id n hb).1 h
  · intro hall n
    cases hn : next[n]? with
    | none => exact held_of_none hn
    | some b => exact (held_eq_told_iff id n hn).2 (hall n b hn)

end Exports

namespace Feed

variable {id : NodeId} {conn : Connection} {f : Feed}

theorem Sound.told_eq_held (h : f.Sound id conn) (hidle : f.speaker.conn.line.pending = [])
    (n : Network) :
    f.listener.db.table.told n = Exports.held id (f.exported conn.localId) n := by
  obtain ⟨parts, hparts, hsettled⟩ := h.pending
  rw [hidle, List.forall₂_nil_right_iff] at hparts
  subst hparts
  exact hsettled n

/-- What a speaker last exported, as the listener should have it: what has not been through the
listener, one hop longer. -/
theorem Sound.told_eq_newest_iff (h : f.Sound id conn) {next : Table} {older : List Table}
    (hexports : f.exports = next :: older) (hidle : f.speaker.conn.line.pending = []) :
    (∀ n, f.listener.db.table.told n =
      (next[n]?.filter fun b => !b.path.contains conn.localId).map (Binding.told id)) ↔
    ∀ b ∈ next.bindings, b.path.contains conn.localId = false →
      ∀ c ∈ Exports.since b.net (older.map (Table.visible conn.localId)),
        b.path.length ≤ c.path.length := by
  have hfiled : next.Filed := h.filed next (by simp [hexports])
  have hexported : f.exported conn.localId =
      next.visible conn.localId :: older.map (Table.visible conn.localId) := by
    rw [exported, hexports, List.map_cons]
  have hheld := Exports.held_eq_newest_iff id (next.visible conn.localId)
    (older.map (Table.visible conn.localId))
  have hget := Table.getElem?_visible hfiled conn.localId
  simp only [h.told_eq_held hidle, hexported, ← hget]
  rw [hheld]
  constructor
  · intro hall b hb hback
    refine hall b.net b ?_
    rw [hget, hfiled.mem_bindings.1 hb, Option.filter_some, hback]
    rfl
  · intro hall n b hb
    rw [hget, Option.filter_eq_some_iff] at hb
    have hnet := hfiled n b hb.1
    subst hnet
    exact hall b (hfiled.mem_bindings.2 hb.1) (by simpa using hb.2)

/-- From the handshake on no frame is a fault. Whenever nothing is left on its way, the listener has
what the speaker exported last, one hop longer, exactly when no path of it is longer than one of the
exports since the network was last without a binding. -/
theorem converged_iff (h : f.Joined) {acts : List Act} (hacts : Act.Orderly acts) :
    (∀ now frame rest, (f.run acts).speaker.conn.line.pending = frame :: rest →
      (∀ b ∈ (f.run acts).listener.db.bindings, b.stamp < now) →
        ∃ db, Session.hear now frame (f.run acts).listener =
          .ok () { (f.run acts).listener with db }) ∧
    ∀ next older, (f.run acts).exports = next :: older →
      (f.run acts).speaker.conn.line.pending = [] →
        ((∀ n, (f.run acts).listener.db.table.told n =
          (next[n]?.filter fun b => !b.path.contains f.listener.conn.localId).map
            (Binding.told f.speaker.conn.localId)) ↔
        ∀ b ∈ next.bindings, b.path.contains f.listener.conn.localId = false →
          ∀ c ∈ Exports.since b.net (older.map (Table.visible f.listener.conn.localId)),
            b.path.length ≤ c.path.length) := by
  have hsound := h.run hacts
  refine ⟨?_, fun next older hexports hidle => hsound.told_eq_newest_iff hexports hidle⟩
  intro now frame rest hpending hnow
  rcases deliver_cases hsound hnow with ⟨hnone, -⟩ | ⟨part, first, others, db, hfirst, hhear, -⟩
  · rw [hnone] at hpending
    cases hpending
  · rw [hfirst] at hpending
    cases hpending
    exact ⟨db, hhear⟩

theorem advertise_single {peer : NodeId} (h : f.speaker.Speaking peer) {b : Binding} {m : Message}
    {frame : Bytes} (hdelete : f.news.1 = [])
    (hadd : (f.speaker.db.table.visible f.speaker.conn.remoteId).bindings.filter
      (fun b => f.speaker.conn.advertised[b.net]? ≠ some b) = [b])
    (hm : f.speaker.conn.composer .v4 [] [b] = .ok m) (hframe : m.frame = .ok frame) :
    f.advertise = f.sending [frame] := by
  rw [← h.version] at hm
  rw [advertise, Session.advertise_of_exports h.phase h.mode ⟨h.isOpen, h.credit⟩
    (Node.exports_single hdelete hadd hm hframe)]
  rfl

/-- Two nodes right after the handshake, with nothing to tell. -/
def blank : Feed where
  speaker :=
    { conn :=
        { line := { peer := { address := .v4 0x0a000002, port := 64999 } }, mode := .speaker
          phase := .on, version := .v4, localId := 0x0a000001, remoteNodeId := some 0x0a000002
          config := {} }
      db := {} }
  listener :=
    { conn :=
        { line := { peer := { address := .v4 0x0a000001, port := 64999 } }, mode := .listener
          phase := .on, version := .v4, localId := 0x0a000002, remoteNodeId := some 0x0a000001
          config := {} }
      db := {} }

theorem blank_joined : blank.Joined where
  speaking := ⟨rfl, rfl, rfl, rfl, rfl, rfl, Table.announceable_empty⟩
  listening := ⟨rfl, rfl, rfl, rfl, by decide, trivial, Table.Filed.empty,
    by simp [Database.bindings, blank, Table.mem_bindings]⟩
  idle := rfl
  advertised := rfl
  empty := rfl
  exports := rfl

/-- A binding of 10.5.0.0/16. -/
def block (tag : UInt16) (path : List NodeId) (stamp : Instant) : Binding :=
  ⟨.v4 ⟨0x0a050000, 16⟩, tag, path, stamp⟩

theorem block_canonical (tag : UInt16) (path : List NodeId) (stamp : Instant) :
    (block tag path stamp).net.Canonical := by
  have h : Net.Canonical (w := 32) ⟨0x0a050000, 16⟩ := by decide
  exact h

theorem announceable_block (tag : UInt16) (path : List NodeId) (stamp : Instant) :
    (Table.ofBindings [block tag path stamp]).Announceable := by
  have hbindings : (Table.ofBindings [block tag path stamp]).bindings = [block tag path stamp] :=
    rfl
  refine ⟨Table.Filed.ofBindings _, ?_, ?_⟩
  · rw [hbindings]
    intro b hb
    obtain rfl := List.mem_singleton.1 hb
    exact block_canonical tag path stamp
  · rw [hbindings]
    intro b hb
    obtain rfl := List.mem_singleton.1 hb
    rfl

def near : Binding := block 100 [] ⟨10, 0⟩

def renewed : Binding := block 200 [] ⟨20, 0⟩

def far : Binding := block 200 [9] ⟨20, 0⟩

/-- The speaker gets a binding and passes it on. -/
def direct : List Act := [.add [near], .advertise, .deliver ⟨100, 0⟩]

/-- Afterwards a newer binding takes its place. -/
def renewal : List Act := direct ++ [.add [renewed], .advertise, .deliver ⟨200, 0⟩]

/-- Afterwards its place is taken by one with a longer path. -/
def detour : List Act :=
  direct ++ [.delete [near.net], .add [far], .advertise, .deliver ⟨200, 0⟩]

theorem proper_block (tag : UInt16) (path : List NodeId) (stamp : Instant) :
    (Act.add [block tag path stamp]).Proper := by
  intro b hb
  obtain rfl := List.mem_singleton.1 hb
  exact block_canonical tag path stamp

theorem proper_direct : ∀ a ∈ direct, a.Proper := by
  intro a ha
  simp only [direct, List.mem_cons, List.not_mem_nil, or_false] at ha
  rcases ha with rfl | rfl | rfl
  · exact proper_block 100 [] ⟨10, 0⟩
  · trivial
  · trivial

theorem orderly_renewal : Act.Orderly renewal where
  proper := by
    intro a ha
    simp only [renewal, List.mem_append, List.mem_cons, List.not_mem_nil, or_false] at ha
    rcases ha with ha | rfl | rfl | rfl
    · exact proper_direct a ha
    · exact proper_block 200 [] ⟨20, 0⟩
    · trivial
    · trivial
  ascending := by decide

theorem orderly_detour : Act.Orderly detour where
  proper := by
    intro a ha
    simp only [detour, List.mem_append, List.mem_cons, List.not_mem_nil, or_false] at ha
    rcases ha with ha | rfl | rfl | rfl | rfl
    · exact proper_direct a ha
    · trivial
    · exact proper_block 200 [9] ⟨20, 0⟩
    · trivial
    · trivial
  ascending := by decide

def nearFrame : Bytes :=
  [0, 0, 0, 26, 0, 0, 0, 3, 80, 16, 4, 10, 0, 0, 1, 80, 17, 2, 0, 100, 144, 11, 3, 16, 10, 5]

def renewedFrame : Bytes :=
  [0, 0, 0, 26, 0, 0, 0, 3, 80, 16, 4, 10, 0, 0, 1, 80, 17, 2, 0, 200, 144, 11, 3, 16, 10, 5]

def farFrame : Bytes :=
  [0, 0, 0, 30, 0, 0, 0, 3, 80, 16, 8, 10, 0, 0, 1, 0, 0, 0, 9, 80, 17, 2, 0, 200, 144, 11, 3,
    16, 10, 5]

theorem composer_near : ∃ m,
    blank.speaker.conn.composer .v4 [] [near] = .ok m ∧ m.frame = .ok nearFrame := ⟨_, rfl, rfl⟩

theorem composer_renewed : ∃ m,
    blank.speaker.conn.composer .v4 [] [renewed] = .ok m ∧ m.frame = .ok renewedFrame :=
  ⟨_, rfl, rfl⟩

theorem composer_far : ∃ m,
    blank.speaker.conn.composer .v4 [] [far] = .ok m ∧ m.frame = .ok farFrame := ⟨_, rfl, rfl⟩

/-- `blank` after `direct`, but for the database. -/
def relay (db : Database) (listener : Node) : Feed where
  speaker :=
    { conn := { blank.speaker.conn with
        line := { blank.speaker.conn.line with sent := [nearFrame], taken := 1 }
        advertised := .ofBindings [near] }
      db }
  listener
  exports := [.ofBindings [near]]

theorem run_direct : ∃ listener, blank.run direct =
    relay { table := .ofBindings [near], generation := 1 } listener := by
  have hspeaking : (blank.step (.add [near])).speaker.Speaking 0x0a000002 :=
    ⟨rfl, rfl, rfl, rfl, rfl, rfl, announceable_block 100 [] ⟨10, 0⟩⟩
  obtain ⟨m, hm, hframe⟩ := composer_near
  have hadvertise := advertise_single hspeaking rfl rfl hm hframe
  refine ⟨(Session.hear ⟨100, 0⟩ nearFrame).outcome blank.listener, ?_⟩
  show Feed.deliver _ (Feed.advertise (blank.step (.add [near]))) = _
  rw [hadvertise]
  rfl

/-- A second export of one binding, which is delivered at once. -/
theorem exports_relay {db : Database} {listener : Node} {b : Binding} {m : Message} {frame : Bytes}
    (htable : db.table = .ofBindings [b]) (hb : (Table.ofBindings [b]).Announceable)
    (hdelete : (Session.difference (.ofBindings [near])
      ((Table.ofBindings [b]).visible 0x0a000002)).1 = [])
    (hadd : ((Table.ofBindings [b]).visible 0x0a000002).bindings.filter
      (fun b => (Table.ofBindings [near])[b.net]? ≠ some b) = [b])
    (hm : blank.speaker.conn.composer .v4 [] [b] = .ok m) (hframe : m.frame = .ok frame)
    (now : Instant) :
    ((relay db listener).advertise.deliver now).exports = [.ofBindings [b], .ofBindings [near]] ∧
      ((relay db listener).advertise.deliver now).speaker.conn.line.pending = [] := by
  rw [← htable] at hb hdelete hadd ⊢
  have hspeaking : (relay db listener).speaker.Speaking 0x0a000002 :=
    ⟨rfl, rfl, rfl, rfl, rfl, rfl, hb⟩
  rw [advertise_single hspeaking hdelete hadd hm hframe]
  exact ⟨rfl, rfl⟩

theorem run_renewal : (blank.run renewal).exports = [.ofBindings [renewed], .ofBindings [near]] ∧
    (blank.run renewal).speaker.conn.line.pending = [] := by
  obtain ⟨listener, hdirect⟩ := run_direct
  obtain ⟨m, hm, hframe⟩ := composer_renewed
  let db₀ : Database := { table := .ofBindings [near], generation := 1 }
  obtain ⟨winners, db₁, hadd, -⟩ :=
    Database.add_of_accepts (show db₀.store.Accepts from trivial) [renewed]
  have htable : db₁.table = .ofBindings [renewed] := by
    rw [Database.table_add hadd]
    rfl
  have hadded : (blank.run direct).step (.add [renewed]) = relay db₁ listener := by
    rw [hdirect]
    exact change_of_ok (relay db₀ listener) (fun db => db.add [renewed]) hadd
  have hrun : blank.run renewal = (relay db₁ listener).advertise.deliver ⟨200, 0⟩ := by
    rw [← hadded]
    rfl
  rw [hrun]
  exact exports_relay htable (announceable_block 200 [] ⟨20, 0⟩) rfl rfl hm hframe ⟨200, 0⟩

theorem run_detour : (blank.run detour).exports = [.ofBindings [far], .ofBindings [near]] ∧
    (blank.run detour).speaker.conn.line.pending = [] := by
  obtain ⟨listener, hdirect⟩ := run_direct
  obtain ⟨m, hm, hframe⟩ := composer_far
  let db₀ : Database := { table := .ofBindings [near], generation := 1 }
  obtain ⟨doomed, db₁, hdelete, haccepts⟩ : ∃ doomed db₁,
      db₀.delete [near.net] = .ok (doomed, db₁) ∧ db₁.store.Accepts :=
    Database.deleteWhere_of_accepts (show db₀.store.Accepts from trivial) _ _
  obtain ⟨winners, db₂, hadd, -⟩ := Database.add_of_accepts haccepts [far]
  have htable : db₂.table = .ofBindings [far] := by
    rw [Database.table_add hadd, Database.table_deleteWhere hdelete]
    rfl
  have hdeleted : (blank.run direct).step (.delete [near.net]) = relay db₁ listener := by
    rw [hdirect]
    exact change_of_ok (relay db₀ listener) (fun db => db.delete [near.net]) hdelete
  have hadded : (relay db₁ listener).step (.add [far]) = relay db₂ listener :=
    change_of_ok (relay db₁ listener) (fun db => db.add [far]) hadd
  have hrun : blank.run detour = (relay db₂ listener).advertise.deliver ⟨200, 0⟩ := by
    rw [← hadded, ← hdeleted]
    rfl
  rw [hrun]
  exact exports_relay htable (announceable_block 200 [9] ⟨20, 0⟩) rfl rfl hm hframe ⟨200, 0⟩

/-- The binding of the second export replaces one with a path of the same length. -/
theorem converged_iff_renewal : blank.Joined ∧ Act.Orderly renewal ∧
    (blank.run renewal).exports = [.ofBindings [renewed], .ofBindings [near]] ∧
    (blank.run renewal).speaker.conn.line.pending = [] ∧
    Exports.since renewed.net [(Table.ofBindings [near]).visible 0x0a000002] = [near] ∧
    ∀ n, (blank.run renewal).listener.db.table.told n =
      ((Table.ofBindings [renewed])[n]?.filter fun b => !b.path.contains 0x0a000002).map
        (Binding.told 0x0a000001) := by
  obtain ⟨hexports, hidle⟩ := run_renewal
  have hsince : Exports.since renewed.net [(Table.ofBindings [near]).visible 0x0a000002] = [near] :=
    rfl
  refine ⟨blank_joined, orderly_renewal, hexports, hidle, hsince, ?_⟩
  refine ((converged_iff blank_joined orderly_renewal).2 _ _ hexports hidle).2 ?_
  intro b hb _ c _
  obtain rfl := List.mem_singleton.1 (show b ∈ [renewed] from hb)
  exact Nat.zero_le c.path.length

/-- Everything has been delivered, and the listener has the old tag. -/
theorem detour_not_converged : blank.Joined ∧ Act.Orderly detour ∧
    (blank.run detour).exports = [.ofBindings [far], .ofBindings [near]] ∧
    (blank.run detour).speaker.conn.line.pending = [] ∧
    (blank.run detour).listener.db.table.told far.net = some (100, [0x0a000001]) ∧
    ¬ ∀ n, (blank.run detour).listener.db.table.told n =
      ((Table.ofBindings [far])[n]?.filter fun b => !b.path.contains 0x0a000002).map
        (Binding.told 0x0a000001) := by
  obtain ⟨hexports, hidle⟩ := run_detour
  have hsound := blank_joined.run orderly_detour
  have htold : (blank.run detour).listener.db.table.told far.net = some (100, [0x0a000001]) := by
    rw [hsound.told_eq_held hidle, exported, hexports]
    rfl
  refine ⟨blank_joined, orderly_detour, hexports, hidle, htold, ?_⟩
  intro hall
  have hfar := hall far.net
  rw [htold] at hfar
  revert hfar
  decide

end Feed

end TagExchange
