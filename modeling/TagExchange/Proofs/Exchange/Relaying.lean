import TagExchange.Proofs.Exchange.Feed
import TagExchange.Proofs.Exchange.UpdateSizes
import TagExchange.Proofs.Session.Attribution
import TagExchange.Proofs.Session.Exports

/-!
# Passing on what was learned

What came with an update of version 4 leaves room for 21 bytes beside its load, for the frame that
it came in was within the limit (`Learned.mem`). On the way out it needs 25, since the id of this
node goes in front of its path. A database that was learned from such updates can be exported
exactly when no new binding has a load between the two bounds (`Session.relays_iff`); a single one
that has keeps all the others from being sent.
-/

namespace TagExchange

namespace Attribute

theorem le_size (a : Attribute) : 3 + a.value.bytes.length ≤ a.size := by
  rw [size]
  cases a.layout <;> simp only [Layout.headerSize] <;> omega

/-- A long value has a long header. -/
theorem le_size_of_long {a : Attribute} (h : 255 < a.value.bytes.length) :
    4 + a.value.bytes.length ≤ a.size := by
  simp only [size, layout, Layout.for, h, if_true]
  split <;> simp only [Layout.headerSize] <;> omega

theorem length_of_announced {a : Attribute} {net : Network} (h : net ∈ a.announced) :
    1 + net.covered ≤ a.value.bytes.length := by
  have hnets {w : Nat} (hw : w % 8 = 0) {nets : List (Net w)} {n : Net w} (hn : n ∈ nets) :
      1 + octetsFor (min n.length.toNat w) ≤ (nets.flatMap Net.bytes).length := by
    rw [← Net.length_bytes hw, List.length_flatMap]
    exact List.single_le_sum (by simp) _ (List.mem_map_of_mem hn)
  obtain ⟨flags, value⟩ := a
  cases value with
  | announce4 nets =>
    obtain ⟨n, hn, rfl⟩ := List.mem_map.1 h
    exact hnets (by decide) hn
  | announce6 nets =>
    obtain ⟨n, hn, rfl⟩ := List.mem_map.1 h
    exact hnets (by decide) hn
  | _ => cases h

theorem value_of_path? {a : Attribute} {path : List NodeId} (h : a.path? = some path) :
    a.value = .path path := by
  obtain ⟨flags, value⟩ := a
  cases value <;> cases h
  rfl

theorem value_of_tag? {a : Attribute} {tag : Tag} (h : a.tag? = some tag) :
    a.value = .tag tag := by
  obtain ⟨flags, value⟩ := a
  cases value <;> cases h
  rfl

end Attribute

namespace Update

open Attribute (listSize)

theorem listSize_pair_le {attrs : List Attribute} {a b : Attribute} (ha : a ∈ attrs)
    (hb : b ∈ attrs) (hne : a ≠ b) : a.size + b.size ≤ listSize attrs := by
  induction attrs with
  | nil => cases ha
  | cons c attrs ih =>
    rw [Attribute.listSize_cons]
    rcases List.mem_cons.1 ha with rfl | ha'
    · rcases List.mem_cons.1 hb with rfl | hb'
      · exact absurd rfl hne
      · exact Nat.add_le_add_left (Attribute.size_le_listSize hb') _
    · rcases List.mem_cons.1 hb with rfl | hb'
      · rw [Nat.add_comm a.size]
        exact Nat.add_le_add_left (Attribute.size_le_listSize ha') _
      · exact (ih ha' hb').trans (Nat.le_add_left _ _)

/-- The path, the tag and the network of an announcement are in three attributes of the update. -/
theorem Announces.le_listSize {attrs : List Attribute} {net : Network} {path : List NodeId}
    {tag : Tag} (h : Announces attrs net path tag) :
    (if 255 < 4 * path.length then 4 else 3) + 4 * path.length + 9 + net.covered ≤
      listSize attrs := by
  obtain ⟨front, a, back, rfl, hnet, hpath, htag⟩ := h
  obtain ⟨p, hp, hpath⟩ := List.mem_filterMap.1 (List.mem_of_getLast? hpath)
  obtain ⟨t, ht, htag⟩ := List.mem_filterMap.1 (List.mem_of_getLast? htag)
  have hpath := Attribute.value_of_path? hpath
  have htag := Attribute.value_of_tag? htag
  have hne : p ≠ t := by
    rintro rfl
    rw [hpath] at htag
    cases htag
  have hfront := listSize_pair_le hp ht hne
  have hpathLength : p.value.bytes.length = 4 * path.length := by
    rw [hpath, Attribute.length_path]
  have hpathSize : (if 255 < 4 * path.length then 4 else 3) + 4 * path.length ≤ p.size := by
    rw [← hpathLength]
    split
    · next hlong => exact Attribute.le_size_of_long hlong
    · exact p.le_size
  have htagSize : 5 ≤ t.size := by
    have hle := t.le_size
    rw [htag] at hle
    exact hle
  have hnetSize := (Nat.add_le_add_left (Attribute.length_of_announced hnet) 3).trans a.le_size
  rw [Attribute.listSize_append, Attribute.listSize_cons]
  omega

end Update

/-- A database that nothing but updates of version 4 has come into, each accepted by some connection
of the node. -/
inductive Learned : Database → Prop
  | empty {db : Database} (hnone : db.table = ∅) : Learned db
  | hear {c : Connection} {db : Database} {now : Instant} {frame : Bytes}
      {attributes : List Attribute} {n : Node} (h : Learned db)
      (hread : Message.ofFrame c.version frame = .ok (.update attributes))
      (hhear : Session.hear now frame ⟨c, db⟩ = .ok () n) : Learned n.db

/-- A frame has room for what is announced in it. -/
theorem Message.light_of_announces {v : Version} {frame : Bytes} {attributes : List Attribute}
    (hread : ofFrame v frame = .ok (.update attributes)) {net : Network} {path : List NodeId}
    {tag : Tag} (h : Update.Announces attributes net path tag) :
    4 * path.length + net.covered + 21 ≤ messageLimit := by
  obtain ⟨header, hheader, hpayload⟩ := Except.bind_eq_ok.1 hread
  obtain ⟨-, hlow, hhigh⟩ := Header.ofFrame_eq_ok hheader
  obtain ⟨-, -, payload, hwritten, hle⟩ := of_ofPayload hpayload id
  have hsize : payload.length = Attribute.listSize attributes :=
    Attribute.length_of_listBytes hwritten
  rw [hsize, List.length_drop] at hle
  have hannounced := h.le_listSize
  have hshort := net.covered_le
  simp only [headerSize, messageLimit] at *
  split at hannounced <;> omega

namespace Learned

variable {db : Database}

theorem filed (h : Learned db) : db.table.Filed := by
  induction h with
  | empty hnone =>
    rw [hnone]
    exact Table.Filed.empty
  | @hear conn db now frame attributes n _ hread hhear ih =>
    obtain ⟨-, -, c, -, hlearn⟩ := (Session.hear_update_eq_ok hread rfl).1 hhear
    have hsteady := (Session.learn_keeps c ⟨conn, db⟩).1
    rw [Session.outcome_of_ok hlearn] at hsteady
    exact hsteady.filed ih

/-- What came in has a tag that can be written, and fitted into a frame. -/
theorem mem (h : Learned db) : ∀ b ∈ db.bindings, b.Tagged ∧ b.load + 21 ≤ messageLimit := by
  induction h with
  | empty hnone =>
    intro b hb
    obtain ⟨net, hnet⟩ := Table.mem_bindings.1 hb
    rw [hnone] at hnet
    simp at hnet
  | @hear conn db now frame attributes n _ hread hhear ih =>
    intro b hb
    by_cases hold : b ∈ db.bindings
    · exact ih b hold
    · obtain ⟨-, -, c, hc, hlearn⟩ := (Session.hear_update_eq_ok hread rfl).1 hhear
      obtain ⟨q, hq, -, rfl⟩ := Session.learn_new hlearn hb hold
      obtain ⟨net, path, tag, hannounces, rfl⟩ := (Message.mem_add_changes hc).1 hq
      refine ⟨⟨tag, Tag.of?_value tag⟩, ?_⟩
      show 4 * path.length + net.clean.covered + 21 ≤ messageLimit
      rw [Network.covered_clean]
      exact Message.light_of_announces hread hannounces

end Learned

namespace Session

variable {n : Node}

/-- An export that fails on a line that takes every frame fails on size, and it has sent nothing and
noted nothing, when the messages for parts of its changes can only be too large. -/
theorem advertise_error_of_sized (hphase : n.conn.phase = .on)
    (hmode : n.conn.mode.isSpeaker = true) (hfree : n.conn.line.Free) {v : Version}
    (hsized : (n.conn.composer v).Sized (difference n.conn.advertised (exported n.conn n.db)).1
      (difference n.conn.advertised (exported n.conn n.db)).2) {f : Fault} {n' : Node}
    (h : advertise v n = .error f n') : f.kind = .tooLarge ∧ n' = n := by
  obtain ⟨hf, hn'⟩ := advertise_error hphase hmode hfree h
  exact ⟨Composer.kind_of_frames_error hsized hf, hn'⟩

/-- What is exported and new. -/
theorem mem_new (hfiled : n.db.table.Filed) {b : Binding} :
    b ∈ (difference n.conn.advertised (exported n.conn n.db)).2 ↔
      b ∈ n.db.bindings ∧ n.conn.holdsBack b = false ∧ n.conn.advertised[b.net]? ≠ some b := by
  rw [Exports.mem_add]
  show b ∈ (n.db.table.visible n.conn.remoteId).bindings ∧ _ ↔ _
  rw [Table.mem_visible hfiled, and_assoc]
  rfl

theorem composer_current (hversion : n.conn.version = .v4) : n.conn.composer n.conn.version =
    .current n.conn.localId n.conn.capabilities n.conn.holdsBack := by
  rw [Connection.composer, hversion]
  rfl

/-- A speaker of version 4 can export its database exactly when there is room for every new
binding. -/
theorem advertise_current_iff (hfiled : n.db.table.Filed)
    (htags : ∀ b ∈ n.db.bindings, b.Tagged) (hphase : n.conn.phase = .on)
    (hmode : n.conn.mode.isSpeaker = true) (hversion : n.conn.version = .v4)
    (hfree : n.conn.line.Free) :
    (∃ k n', advertise n.conn.version n = .ok k n') ↔
      ∀ b ∈ n.db.bindings, n.conn.holdsBack b = false → n.conn.advertised[b.net]? ≠ some b →
        b.load + 25 ≤ messageLimit := by
  rw [advertise_ok_iff hphase hmode hfree]
  simp only [Node.Exports, composer_current hversion]
  rw [Composer.current_frames_iff]
  · simp only [mem_new hfiled, and_imp]
  · exact fun b hb => htags b ((mem_new hfiled).1 hb).1
  · exact fun b hb => ((mem_new hfiled).1 hb).2.1

theorem advertise_current_error (hfiled : n.db.table.Filed)
    (htags : ∀ b ∈ n.db.bindings, b.Tagged) (hphase : n.conn.phase = .on)
    (hmode : n.conn.mode.isSpeaker = true) (hversion : n.conn.version = .v4)
    (hfree : n.conn.line.Free) {f : Fault} {n' : Node}
    (h : advertise n.conn.version n = .error f n') : f.kind = .tooLarge ∧ n' = n := by
  refine advertise_error_of_sized hphase hmode hfree ?_ h
  rw [composer_current hversion]
  exact Composer.current_sized fun b hb _ => htags b ((mem_new hfiled).1 hb).1

/-- What was learned fitted into frames. A speaker of version 4 can pass it on exactly when four
more bytes fit for every new binding; when they do not, nothing at all is sent. -/
theorem relays_iff (hlearned : Learned n.db) (hphase : n.conn.phase = .on)
    (hmode : n.conn.mode.isSpeaker = true) (hversion : n.conn.version = .v4)
    (hfree : n.conn.line.Free) :
    (∀ b ∈ n.db.bindings, b.load + 21 ≤ messageLimit) ∧
    ((∃ k n', advertise n.conn.version n = .ok k n') ↔
      ∀ b ∈ n.db.bindings, n.conn.holdsBack b = false → n.conn.advertised[b.net]? ≠ some b →
        b.load + 25 ≤ messageLimit) ∧
    ∀ f n', advertise n.conn.version n = .error f n' → f.kind = .tooLarge ∧ n' = n := by
  have htags : ∀ b ∈ n.db.bindings, b.Tagged := fun b hb => (hlearned.mem b hb).1
  refine ⟨fun b hb => (hlearned.mem b hb).2, ?_, fun f n' h => ?_⟩
  · exact advertise_current_iff hlearned.filed htags hphase hmode hversion hfree
  · exact advertise_current_error hlearned.filed htags hphase hmode hversion hfree h

/-- Another connection of the node that `attentive` is a connection of: to a listener of version 4,
and on. -/
def onward (db : Database) : Node where
  conn :=
    { Connection.of { peer := ⟨.v4 0x0A000003, 64999, 0⟩ } 0x0A000002
        ⟨"listener", ⟨.v4 0x0A000003, 64999, 0⟩, .speaker, .v4⟩ {} with
      phase := .on
      remoteNodeId := some 0x0A000003
      capabilities := Capability.ofVersion .v4 }
  db

theorem relays_iff_foreign : ∃ n', hear ⟨20, 0⟩ foreignFrame attentive = .ok () n' ∧
    Learned n'.db ∧ (onward n'.db).conn.phase = .on ∧
    (onward n'.db).conn.mode.isSpeaker = true ∧ (onward n'.db).conn.version = .v4 ∧
    (onward n'.db).conn.line.Free ∧
    ∃ k n'', advertise (onward n'.db).conn.version (onward n'.db) = .ok k n'' := by
  obtain ⟨n', hhear, hbindings⟩ := foreign_learned
  have hlearned : Learned n'.db := (Learned.empty rfl).hear foreignFrame_read hhear
  have hrelays := relays_iff (n := onward n'.db) hlearned rfl rfl rfl ⟨rfl, rfl⟩
  refine ⟨n', hhear, hlearned, rfl, rfl, rfl, ⟨rfl, rfl⟩, hrelays.2.1.2 fun b hb _ _ => ?_⟩
  have hb : b ∈ n'.db.bindings := hb
  rw [hbindings, List.mem_singleton] at hb
  subst hb
  decide

/-- A path so long that it fits into a frame, and does not with one more node. -/
def crowdedPath : List NodeId := List.replicate 1018 9

def crowdedAttributes : List Attribute :=
  [.wellKnown (.path crowdedPath), .wellKnown (.tag Message.plainTag),
    .wellKnown (.announce4 [⟨0x0A000000, 8⟩])]

/-- What is filed for it. -/
def crowdedBinding : Binding := ⟨.v4 ⟨0x0A000000, 8⟩, 100, crowdedPath, ⟨20, 0⟩⟩

theorem crowded_frame : ∃ frame, (Message.update crowdedAttributes).frame = .ok frame ∧
    Message.ofFrame attentive.conn.version frame = .ok (.update crowdedAttributes) := by
  have hcomposed : ∀ a ∈ crowdedAttributes, a.Composed := by
    intro a ha
    simp only [crowdedAttributes, List.mem_cons, List.not_mem_nil, or_false] at ha
    rcases ha with rfl | rfl | rfl <;>
      exact Attribute.composed_of (by decide) trivial
        (by simp [AttributeValue.code, AttributeKind.code])
  have hroom : headerSize + Attribute.listSize crowdedAttributes ≤ messageLimit := by
    have hpath := Attribute.size_path crowdedPath
    rw [crowdedPath, List.length_replicate, if_pos (by decide)] at hpath
    rw [crowdedAttributes, Attribute.listSize_cons, crowdedPath, hpath]
    decide
  have hwell : (Message.update crowdedAttributes).WellFormed .v4 :=
    announcement_wellFormed crowdedPath Message.plainTag Flags.wellKnown ⟨by decide, by decide⟩
  obtain ⟨frame, hframe⟩ := (Message.frame_update_iff hcomposed).2 hroom
  exact ⟨frame, hframe, Message.ofFrame_of_frame hwell hframe⟩

theorem crowded_learned {frame : Bytes}
    (hread : Message.ofFrame attentive.conn.version frame = .ok (.update crowdedAttributes)) :
    ∃ n', hear ⟨20, 0⟩ frame attentive = .ok () n' ∧ n'.db.bindings = [crowdedBinding] := by
  have hadded : (({} : Database).add
      ([crowdedBinding].filter fun b => !b.path.contains 0x0A000002)).toOption.any
      (fun r => decide (r.2.bindings = [crowdedBinding])) = true := by
    decide +kernel
  cases hadd : ({} : Database).add
      ([crowdedBinding].filter fun b => !b.path.contains 0x0A000002) with
  | error cause =>
    rw [hadd] at hadded
    cases hadded
  | ok r =>
    rw [hadd, Except.toOption, Option.any_some] at hadded
    have hlearn : learn ⟨[crowdedBinding], []⟩ attentive = .ok () { attentive with db := r.2 } :=
      learn_eq_ok.2 ⟨[], {}, r.1, r.2, rfl, hadd, rfl⟩
    exact ⟨_, (hear_update_eq_ok hread rfl).2 ⟨rfl, rfl, _, rfl, hlearn⟩,
      of_decide_eq_true hadded⟩

/-- The frame is within the limit and the node learns from it, and then its export to another peer
fails. -/
theorem crowded_not_relayed : ∃ frame n', frame.length ≤ messageLimit ∧
    Message.ofFrame attentive.conn.version frame = .ok (.update crowdedAttributes) ∧
    hear ⟨20, 0⟩ frame attentive = .ok () n' ∧ Learned n'.db ∧
    (onward n'.db).conn.line.peer ≠ attentive.conn.line.peer ∧
    (onward n'.db).conn.phase = .on ∧ (onward n'.db).conn.mode.isSpeaker = true ∧
    (onward n'.db).conn.version = .v4 ∧ (onward n'.db).conn.line.Free ∧
    ∃ f, advertise (onward n'.db).conn.version (onward n'.db) = .error f (onward n'.db) ∧
      f.kind = .tooLarge := by
  obtain ⟨frame, hframe, hread⟩ := crowded_frame
  obtain ⟨n', hhear, hbindings⟩ := crowded_learned hread
  have hlimit : frame.length ≤ messageLimit := by
    obtain ⟨payload, -, hframe⟩ := Except.bind_eq_ok.1 hframe
    exact (frame_eq_ok hframe).2.2
  have hlearned : Learned n'.db := (Learned.empty rfl).hear hread hhear
  have htags : ∀ b ∈ (onward n'.db).db.bindings, b.Tagged := fun b hb => (hlearned.mem b hb).1
  have hexport := advertise_current_iff (n := onward n'.db) hlearned.filed htags rfl rfl rfl
    ⟨rfl, rfl⟩
  have hmem : crowdedBinding ∈ (onward n'.db).db.bindings := by
    show crowdedBinding ∈ n'.db.bindings
    simp [hbindings]
  have hback : (onward n'.db).conn.holdsBack crowdedBinding = false := by
    show crowdedPath.contains (0x0A000003 : NodeId) = false
    decide +kernel
  have hnew : (onward n'.db).conn.advertised[crowdedBinding.net]? ≠ some crowdedBinding := by
    show (∅ : Table)[crowdedBinding.net]? ≠ _
    simp
  have hother : (onward n'.db).conn.line.peer ≠ attentive.conn.line.peer := by
    show ({ address := .v4 0x0A000003, port := 64999 } : Endpoint) ≠
      { address := .v4 0x0A000001, port := 64999 }
    decide
  refine ⟨frame, n', hlimit, hread, hhear, hlearned, hother, rfl, rfl, rfl, ⟨rfl, rfl⟩, ?_⟩
  cases hrun : advertise (onward n'.db).conn.version (onward n'.db) with
  | ok k n'' =>
    have hroom := hexport.1 ⟨k, n'', hrun⟩ crowdedBinding hmem hback hnew
    exact absurd hroom (by decide +kernel)
  | error f n'' =>
    obtain ⟨hkind, rfl⟩ := advertise_current_error (n := onward n'.db) hlearned.filed htags rfl rfl
      rfl ⟨rfl, rfl⟩ hrun
    exact ⟨f, rfl, hkind⟩

end Session

end TagExchange
