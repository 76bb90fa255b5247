import TagExchange.Proofs.Exchange.Copy
import TagExchange.Proofs.Session.Attribution

/-!
# Exports that break off

An export puts its frames on the line one by one and notes what the peer has been told in the end,
so an export that breaks off leaves no note of the frames that went out. What such a frame announces
is owed to the peer when no earlier export had noted it: no later export withdraws it unless one
that succeeds announces it too (`Node.owes_iff`).

An attempt takes on some contents, with room for some number of frames on the line, and breaks off
or not. A copy that is kept from the accepted frames shows what the peer has been told.
-/

namespace TagExchange

/-- A frame of version 4 announces a network. -/
def Copy.Announced (net : Network) (frame : Bytes) : Prop :=
  ∃ attrs path tag, Message.ofFrame .v4 frame = .ok (.update attrs) ∧
    Update.Announces attrs net path tag

namespace Copy

variable {goal : Copy} {id : NodeId} {caps : List Capability} {filter : Filter} {net : Network}

/-- A frame announces the networks of what it adds. -/
theorem Agrees.announced_iff {part : Part} (h : Agrees goal id filter part) {frame : Bytes}
    (hframe : Composer.Carries (.current id caps filter) part frame) :
    Announced net frame ↔ net ∈ part.2.map Binding.net := by
  obtain ⟨attrs, hread, hchanges⟩ := h.read hframe
  obtain ⟨c, hc, -, hadd⟩ := hchanges ⟨0, 0⟩
  have hnets : (c.add.map Binding.net).Perm (part.2.map Binding.net) := by
    have hperm := hadd.map Binding.net
    rw [List.map_map] at hperm
    exact hperm
  rw [← hnets.mem_iff, List.mem_map]
  constructor
  · rintro ⟨attrs', path, tag, hread', hannounces⟩
    rw [hread] at hread'
    cases hread'
    exact ⟨_, (Update.mem_add_changes hc).2 ⟨net, path, tag, hannounces, rfl⟩, rfl⟩
  · rintro ⟨b, hb, rfl⟩
    obtain ⟨net, path, tag, hannounces, rfl⟩ := (Update.mem_add_changes hc).1 hb
    exact ⟨attrs, path, tag, hread, hannounces⟩

theorem announced_carried {parts : List Part} {frames : List Bytes}
    (hcarried : List.Forall₂ (Composer.Carries (.current id caps filter)) parts frames)
    (hagrees : ∀ part ∈ parts, Agrees goal id filter part) :
    (∃ frame ∈ frames, Announced net frame) ↔
      net ∈ (parts.flatMap Prod.snd).map Binding.net := by
  induction hcarried with
  | nil => simp
  | @cons part frame parts frames hframe _ ih =>
    rw [List.flatMap_cons, List.map_append, List.mem_append,
      ← ih fun p hp => hagrees p (by simp [hp]),
      ← (hagrees part (by simp)).announced_iff hframe]
    simp

end Copy

theorem Session.not_error_of_ok {α : Type} {s : Session α} {n : Node}
    (hok : ∃ a n', s n = .ok a n') : ¬∃ f n', s n = .error f n' := by
  obtain ⟨a, n', hok⟩ := hok
  rintro ⟨f, n'', herror⟩
  rw [hok] at herror
  cases herror

/-- Contents of the database, and the room that there is on the line. -/
structure Attempt where
  db : Database
  credit : Option Nat

namespace Node

/-- The node when an attempt is due. -/
def facing (n : Node) (a : Attempt) : Node := { n with db := a.db, conn.line.credit := a.credit }

/-- The node after an attempt to bring the peer up to date, however far it gets. -/
def attempt (n : Node) (a : Attempt) : Node :=
  (Session.advertise n.conn.version).outcome (n.facing a)

def attempts (n : Node) (as : List Attempt) : Node := as.foldl attempt n

theorem attempts_concat (n : Node) (as : List Attempt) (a : Attempt) :
    n.attempts (as ++ [a]) = (n.attempts as).attempt a := by
  rw [attempts, List.foldl_append]
  rfl

/-- The frames that the line has accepted between two nodes. -/
def since (n n' : Node) : List Bytes := n'.conn.line.sent.drop n.conn.line.sent.length

/-- An attempt breaks off after a frame that announces a network which has not been noted. -/
def Leaks (n : Node) (a : Attempt) (net : Network) : Prop :=
  (∃ f n', Session.advertise n.conn.version (n.facing a) = .error f n') ∧
    (∃ frame ∈ n.since (n.attempt a), Copy.Announced net frame) ∧
    n.conn.advertised[net]? = none

/-- An attempt succeeds with contents in which there is something for the peer under a network. -/
def Notes (n : Node) (a : Attempt) (net : Network) : Prop :=
  (∃ k n', Session.advertise n.conn.version (n.facing a) = .ok k n') ∧
    (a.db.table.visible n.conn.remoteId)[net]? ≠ none

/-- Some attempt has leaked a network, and none has noted it since. -/
def Forgets (n : Node) (as : List Attempt) (net : Network) : Prop :=
  ∃ front a back, as = front ++ a :: back ∧ (n.attempts front).Leaks a net ∧
    ¬∃ front' b back', back = front' ++ b :: back' ∧
      (n.attempts (front ++ a :: front')).Notes b net

theorem not_forgets_nil (n : Node) (net : Network) : ¬ n.Forgets [] net := by
  rintro ⟨front, a, back, hsplit, -⟩
  simp at hsplit

theorem forgets_concat (n : Node) (as : List Attempt) (a : Attempt) (net : Network) :
    n.Forgets (as ++ [a]) net ↔
      (n.attempts as).Leaks a net ∨ (n.Forgets as net ∧ ¬ (n.attempts as).Notes a net) := by
  rw [Forgets, exists_split_concat]
  apply or_congr
  · simp
  · simp only [exists_split_concat, not_or]
    constructor
    · rintro ⟨front, b, back, rfl, hleaks, hlast, hsince⟩
      exact ⟨⟨front, b, back, rfl, hleaks, hsince⟩, hlast⟩
    · rintro ⟨⟨front, b, back, rfl, hleaks, hsince⟩, hlast⟩
      exact ⟨front, b, back, rfl, hleaks, hlast, hsince⟩

/-- What an attempt is to leave the peer with. -/
def goal (n : Node) (a : Attempt) : Table := a.db.table.visible n.conn.remoteId

/-- The node after an attempt that has put some frames on the line. -/
structure Sent (n : Node) (a : Attempt) (parts : List Part) (frames : List Bytes) (n' : Node) :
    Prop where
  exporting : n'.Exporting
  localId : n'.conn.localId = n.conn.localId
  sent : n'.conn.line.sent = n.conn.line.sent ++ frames
  carried : List.Forall₂ (Composer.Carries
    (.current n.conn.localId n.conn.capabilities n.conn.holdsBack)) parts frames
  agrees : ∀ part ∈ parts,
    Copy.Agrees ((n.goal a).relayed n.conn.localId) n.conn.localId n.conn.holdsBack part
  /-- Only what has been noted is withdrawn. -/
  noted : ∀ b ∈ parts.flatMap Prod.fst, n.conn.advertised[b.net]? ≠ none

/-- An attempt sends the frames of the difference, as far as the line takes them. -/
theorem Exporting.advertise_facing {n : Node} (h : n.Exporting) (a : Attempt) :
    Session.advertise n.conn.version (n.facing a) =
      match (Composer.current n.conn.localId n.conn.capabilities n.conn.holdsBack).frames
          (Session.difference n.conn.advertised (n.goal a)).1
          (Session.difference n.conn.advertised (n.goal a)).2 with
      | .error f => .error f (n.facing a)
      | .ok frames =>
        match (n.facing a).conn.sendAll frames with
        | (.ok (), c) =>
          .ok frames.length { n.facing a with conn := { c with advertised := n.goal a } }
        | (.error f, c) => .error f { n.facing a with conn := c } := by
  have hcurrent : ¬Version.v4.isLegacy = true := by simp [Version.isLegacy]
  have hcomposer : (n.facing a).conn.composer n.conn.version =
      .current n.conn.localId n.conn.capabilities n.conn.holdsBack := by
    rw [Connection.composer, h.version, if_neg hcurrent]
    rfl
  have hgoal : Session.exported (n.facing a).conn (n.facing a).db = n.goal a := rfl
  have hadvertised : (n.facing a).conn.advertised = n.conn.advertised := rfl
  rw [Session.advertise_eq, if_neg (by simp [facing, h.phase, h.mode])]
  dsimp only
  rewrite [hcomposer, hgoal, hadvertised]
  cases (Composer.current n.conn.localId n.conn.capabilities n.conn.holdsBack).frames
    (Session.difference n.conn.advertised (n.goal a)).1
    (Session.difference n.conn.advertised (n.goal a)).2 with
  | error f => rfl
  | ok frames =>
    rcases hsent : (n.facing a).conn.sendAll frames with ⟨_ | _, c⟩ <;> simp only [hsent]

/-- Any parts of the difference agree with the goal and withdraw only what has been noted. -/
theorem Exporting.parts_agree {n : Node} (h : n.Exporting) {a : Attempt}
    (ha : a.db.table.Regular) {parts : List Part}
    (hdelete : ∀ b ∈ parts.flatMap Prod.fst,
      b ∈ (Session.difference n.conn.advertised (n.goal a)).1)
    (hadd : ∀ b ∈ parts.flatMap Prod.snd,
      b ∈ (Session.difference n.conn.advertised (n.goal a)).2) :
    (∀ part ∈ parts, Copy.Agrees ((n.goal a).relayed n.conn.localId) n.conn.localId
      n.conn.holdsBack part) ∧
    ∀ b ∈ parts.flatMap Prod.fst, n.conn.advertised[b.net]? ≠ none := by
  have hpasses : ∀ b ∈ (n.goal a).bindings, n.conn.holdsBack b = false :=
    fun b hb => ((Table.mem_visible ha.filed).1 hb).2
  refine ⟨fun part hpart => ?_, fun b hb => ?_⟩
  · exact Table.agrees_difference h.regular (ha.visible _) hpasses
      (fun b hb => hdelete b (List.mem_flatMap.2 ⟨part, hpart, hb⟩))
      (fun b hb => hadd b (List.mem_flatMap.2 ⟨part, hpart, hb⟩))
  · rw [h.regular.filed.mem_bindings.1 (Exports.mem_delete.1 (hdelete b hb)).1]
    simp

/-- An attempt that succeeds has sent the whole difference and notes its goal. One that breaks off
notes nothing. -/
theorem Exporting.attempt {n : Node} (h : n.Exporting) {a : Attempt} (ha : a.db.table.Regular) :
    ∃ parts frames, n.Sent a parts frames (n.attempt a) ∧
      ((∃ k n', Session.advertise n.conn.version (n.facing a) = .ok k n') ∧
          (n.attempt a).conn.advertised = n.goal a ∧
          parts.flatMap Prod.fst = (Session.difference n.conn.advertised (n.goal a)).1 ∧
          parts.flatMap Prod.snd = (Session.difference n.conn.advertised (n.goal a)).2 ∨
        (∃ f n', Session.advertise n.conn.version (n.facing a) = .error f n') ∧
          (n.attempt a).conn.advertised = n.conn.advertised) := by
  have hrun := h.advertise_facing a
  split at hrun
  · next f _ =>
    have hout : n.attempt a = n.facing a := Session.outcome_of_error hrun
    rw [hout]
    refine ⟨[], [], ⟨⟨h.phase, h.mode, h.version, h.regular⟩, rfl, (List.append_nil _).symm, .nil,
      by simp, by simp⟩, .inr ⟨⟨f, _, hrun⟩, rfl⟩⟩
  next frames hframes =>
  obtain ⟨parts, hdelete, hadd, hcarried⟩ := Composer.frames_parts hframes
  obtain ⟨front, rest, line, rfl, hextends, hsent, hall⟩ :=
    Connection.sendAll_extends frames (n.facing a).conn
  split at hrun
  · next c hc =>
    rw [hc] at hsent hall
    obtain rfl := hall rfl
    rw [List.append_nil] at hcarried
    cases hsent
    have hout : n.attempt a = _ := Session.outcome_of_ok hrun
    obtain ⟨hagrees, hnoted⟩ :=
      h.parts_agree ha (fun b hb => hdelete ▸ hb) (fun b hb => hadd ▸ hb)
    rw [hout]
    exact ⟨parts, front, ⟨⟨h.phase, h.mode, h.version, ha.visible _⟩, rfl, hextends.sent, hcarried,
      hagrees, hnoted⟩, .inl ⟨⟨_, _, hrun⟩, rfl, hdelete, hadd⟩⟩
  · next f c hc =>
    rw [hc] at hsent
    cases hsent
    have hout : n.attempt a = _ := Session.outcome_of_error hrun
    have hfront := List.forall₂_take_append parts front rest hcarried
    have hsome {α : Type} (g : Part → List α) {x : α}
        (hx : x ∈ (parts.take front.length).flatMap g) : x ∈ parts.flatMap g := by
      obtain ⟨part, hpart, hx⟩ := List.mem_flatMap.1 hx
      exact List.mem_flatMap.2 ⟨part, List.mem_of_mem_take hpart, hx⟩
    obtain ⟨hagrees, hnoted⟩ := h.parts_agree ha (fun b hb => hdelete ▸ hsome Prod.fst hb)
      (fun b hb => hadd ▸ hsome Prod.snd hb)
    rw [hout]
    exact ⟨_, front, ⟨⟨h.phase, h.mode, h.version, h.regular⟩, rfl, hextends.sent, hfront, hagrees,
      hnoted⟩, .inr ⟨⟨f, _, hrun⟩, rfl⟩⟩

/-- The peer has been told of a network, and this is not noted. -/
def Owes (n : Node) (m : Copy) (net : Network) : Prop :=
  m net ≠ none ∧ n.conn.advertised[net]? = none

theorem Sent.since {n n' : Node} {a : Attempt} {parts : List Part} {frames : List Bytes}
    (h : n.Sent a parts frames n') : n.since n' = frames := by
  rw [Node.since, h.sent, List.drop_left]

/-- What a copy has under a network before and after the frames of an attempt: what was announced is
there, and elsewhere only what has been noted can have gone. -/
structure Follows (n : Node) (a : Attempt) (parts : List Part) (frames : List Bytes) (net : Network)
    (m m' : Copy) : Prop where
  announced : (∃ frame ∈ frames, Copy.Announced net frame) →
    m' net ≠ none ∧ (n.goal a)[net]? ≠ none
  withdrawn : net ∈ (parts.flatMap Prod.fst).map Binding.net →
    n.conn.advertised[net]? ≠ none ∧ m' net = (n.goal a).relayed n.conn.localId net
  untouched : net ∉ (parts.flatMap Prod.fst).map Binding.net →
    (¬∃ frame ∈ frames, Copy.Announced net frame) → m' net = m net

theorem Sent.follows {n n' : Node} {a : Attempt} {parts : List Part} {frames : List Bytes}
    (h : n.Sent a parts frames n') (m : Copy) (readings : List (Instant × Bytes))
    (hreadings : readings.map Prod.snd = frames) : ∃ m', m.hearAll readings = some m' ∧
      ∀ net, n.Follows a parts frames net m m' := by
  obtain ⟨m', hm', htowards⟩ := Copy.hearAll_carried h.carried h.agrees hreadings m
  refine ⟨m', hm', fun net => ?_⟩
  have hannounced : (∃ frame ∈ frames, Copy.Announced net frame) ↔
      net ∈ (parts.flatMap Prod.snd).map Binding.net := Copy.announced_carried h.carried h.agrees
  refine ⟨fun hadd => ?_, fun hdelete => ⟨?_, (htowards net).1 (.inl hdelete)⟩,
    fun hdelete hadd => (htowards net).2 (not_or.2 ⟨hdelete, fun h => hadd (hannounced.2 h)⟩)⟩
  · have hadd := hannounced.1 hadd
    rw [(htowards net).1 (.inr hadd)]
    obtain ⟨b, hb, rfl⟩ := List.mem_map.1 hadd
    obtain ⟨part, hpart, hb⟩ := List.mem_flatMap.1 hb
    have hgoal := (h.agrees part hpart).add b hb
    refine ⟨by rw [hgoal]; simp, fun hnone => ?_⟩
    rw [Table.relayed, hnone] at hgoal
    cases hgoal
  · obtain ⟨b, hb, rfl⟩ := List.mem_map.1 hdelete
    exact h.noted b hb

/-- An attempt that notes its goal pays off what is in there, and owes nothing new. -/
theorem Follows.owes_of_noted {n n' : Node} {a : Attempt} {parts : List Part} {frames : List Bytes}
    {net : Network} {m m' : Copy} (h : n.Follows a parts frames net m m')
    (hfiled : n.conn.advertised.Filed) (hadvertised : n'.conn.advertised = n.goal a)
    (hdelete : parts.flatMap Prod.fst = (Session.difference n.conn.advertised (n.goal a)).1) :
    n'.Owes m' net ↔ n.Owes m net ∧ (n.goal a)[net]? = none := by
  rw [Owes, Owes, hadvertised]
  by_cases hgoal : (n.goal a)[net]? = none
  · have hquiet : ¬∃ frame ∈ frames, Copy.Announced net frame :=
      fun hframe => (h.announced hframe).2 hgoal
    by_cases hgone : net ∈ (parts.flatMap Prod.fst).map Binding.net
    · obtain ⟨hnoted, hm⟩ := h.withdrawn hgone
      rw [Table.relayed, hgoal] at hm
      simp [hm, hnoted]
    · have hunnoted : n.conn.advertised[net]? = none := by
        by_contra hnoted
        obtain ⟨b, hb⟩ := Option.ne_none_iff_exists'.1 hnoted
        have hnet := hfiled net b hb
        subst hnet
        apply hgone
        rw [hdelete]
        exact List.mem_map.2 ⟨b, Exports.mem_delete.2 ⟨hfiled.mem_bindings.2 hb, hgoal⟩, rfl⟩
      simp [h.untouched hgone hquiet, hgoal, hunnoted]
  · simp [hgoal]

/-- An attempt that notes nothing owes what it has announced and what was owed before. -/
theorem Follows.owes_of_unnoted {n n' : Node} {a : Attempt} {parts : List Part}
    {frames : List Bytes} {net : Network} {m m' : Copy} (h : n.Follows a parts frames net m m')
    (hadvertised : n'.conn.advertised = n.conn.advertised) :
    n'.Owes m' net ↔ (∃ frame ∈ frames, Copy.Announced net frame) ∧
      n.conn.advertised[net]? = none ∨ n.Owes m net := by
  rw [Owes, Owes, hadvertised]
  by_cases hnoted : n.conn.advertised[net]? = none
  · have hgone : net ∉ (parts.flatMap Prod.fst).map Binding.net :=
      fun hgone => (h.withdrawn hgone).1 hnoted
    by_cases hframe : ∃ frame ∈ frames, Copy.Announced net frame
    · simp [hnoted, hframe, (h.announced hframe).1]
    · simp [hnoted, hframe, h.untouched hgone hframe]
  · simp [hnoted]

/-- One attempt: what is owed afterwards has leaked just now, or was owed before and has not been
noted. -/
theorem Exporting.owes_step {n : Node} (h : n.Exporting) {a : Attempt} (ha : a.db.table.Regular)
    (m : Copy) {readings : List (Instant × Bytes)}
    (hreadings : readings.map Prod.snd = n.since (n.attempt a)) :
    ∃ m', m.hearAll readings = some m' ∧ ∀ net, (n.attempt a).Owes m' net ↔
      n.Leaks a net ∨ (n.Owes m net ∧ ¬ n.Notes a net) := by
  obtain ⟨parts, frames, hsent, hresult⟩ := h.attempt ha
  rw [hsent.since] at hreadings
  obtain ⟨m', hm', hfollows⟩ := hsent.follows m readings hreadings
  refine ⟨m', hm', fun net => ?_⟩
  rw [Leaks, Notes, hsent.since]
  rcases hresult with ⟨hok, hadvertised, hdelete, -⟩ | ⟨herror, hadvertised⟩
  · rw [(hfollows net).owes_of_noted h.regular.filed hadvertised hdelete, and_iff_right hok,
      not_not]
    exact (or_iff_right fun hleaks => Session.not_error_of_ok hok hleaks.1).symm
  · have hnot : ¬ ((∃ k n', Session.advertise n.conn.version (n.facing a) = .ok k n') ∧
        (a.db.table.visible n.conn.remoteId)[net]? ≠ none) :=
      fun hnotes => Session.not_error_of_ok hnotes.1 herror
    rw [(hfollows net).owes_of_unnoted hadvertised, and_iff_right herror, and_iff_left hnot]

/-- After any attempts a copy kept from the accepted frames has a network that the speaker has not
noted exactly when an attempt broke off after it had announced the network, which had not been noted
until then, and no attempt that succeeded since had something for the peer under it. -/
theorem owes_iff {n : Node} (h : n.Exporting) {as : List Attempt}
    (has : ∀ a ∈ as, a.db.table.Regular) : (n.attempts as).Exporting ∧
      ∃ frames, (n.attempts as).conn.line.sent = n.conn.line.sent ++ frames ∧
        ∀ readings : List (Instant × Bytes), readings.map Prod.snd = frames →
          ∃ m, Copy.blank.hearAll readings = some m ∧
            ∀ net, (n.attempts as).Owes m net ↔ n.Forgets as net := by
  induction as using List.reverseRecOn with
  | nil =>
    refine ⟨h, [], (List.append_nil _).symm, fun readings hreadings => ?_⟩
    rw [List.map_eq_nil_iff] at hreadings
    subst hreadings
    exact ⟨Copy.blank, rfl, fun net => iff_of_false (fun howes => howes.1 rfl)
      (not_forgets_nil n net)⟩
  | append_singleton as a ih =>
    obtain ⟨hexporting, frames, hsent, hheard⟩ := ih fun b hb => has b (by simp [hb])
    have ha : a.db.table.Regular := has a (by simp)
    rw [attempts_concat]
    obtain ⟨parts, frames', hstep, -⟩ := hexporting.attempt ha
    refine ⟨hstep.exporting, frames ++ frames', ?_, fun readings hreadings => ?_⟩
    · rw [hstep.sent, hsent, List.append_assoc]
    · obtain ⟨front, back, rfl, hfront, hback⟩ := List.map_eq_append_iff.1 hreadings
      obtain ⟨m, hm, howes⟩ := hheard front hfront
      obtain ⟨m', hm', howes'⟩ := hexporting.owes_step ha m (hback.trans hstep.since.symm)
      refine ⟨m', ?_, fun net => ?_⟩
      · rw [Copy.hearAll, List.foldlM_append, ← Copy.hearAll, hm]
        exact hm'
      · rw [forgets_concat, ← howes]
        exact howes' net

/-- A path so long that two of them do not fit into one message. -/
def longPath : List NodeId := List.replicate 600 9

def firstBlock : Binding := ⟨.v4 ⟨0x0a050000, 16⟩, 100, longPath, ⟨10, 0⟩⟩

def secondBlock : Binding := ⟨.v4 ⟨0x0a060000, 16⟩, 200, longPath, ⟨10, 0⟩⟩

/-- There is room for one frame when there are two to send. -/
def cramped : Attempt := ⟨{ table := .ofBindings [firstBlock, secondBlock] }, some 1⟩

/-- There is nothing left to tell. -/
def cleared : Attempt := ⟨{}, none⟩

/-- The messages of the speaker. -/
def composer : Composer :=
  .current 0x0a000001 [] Feed.blank.speaker.conn.holdsBack

theorem difference_cramped :
    Session.difference ∅ (Feed.blank.speaker.goal cramped) = ([], [firstBlock, secondBlock]) := by
  have hadd : (Feed.blank.speaker.goal cramped).bindings.filter
      (fun b => (∅ : Table)[b.net]? ≠ some b) = [firstBlock, secondBlock] := by
    decide +kernel
  have hsorted : [firstBlock, secondBlock].Pairwise fun a b => Session.runOrder a b = true := by
    decide +kernel
  rw [Session.difference, hadd, List.mergeSort_of_pairwise hsorted]
  rfl

theorem exists_frame (b : Binding) (h : (composer [] [b] >>= Message.frame).isOk = true) :
    ∃ m frame, composer [] [b] = .ok m ∧ m.frame = .ok frame := by
  cases hframe : composer [] [b] >>= Message.frame with
  | error f =>
    rw [hframe] at h
    cases h
  | ok frame =>
    obtain ⟨m, hm, hframe⟩ := Except.bind_eq_ok.1 hframe
    exact ⟨m, frame, hm, hframe⟩

theorem both_tooLarge : ∃ m f, composer [] [firstBlock, secondBlock] = .ok m ∧
    m.frame = .error f ∧ f.kind = .tooLarge := by
  have hlarge : (composer [] [firstBlock, secondBlock]).toOption.any (fun m =>
      match m.frame with
      | .error f => f.kind = .tooLarge
      | .ok _ => false) = true := by
    decide +kernel
  cases hm : composer [] [firstBlock, secondBlock] with
  | error f =>
    rw [hm] at hlarge
    cases hlarge
  | ok m =>
    rw [hm, Except.toOption, Option.any_some] at hlarge
    cases hframe : m.frame with
    | ok frame =>
      rw [hframe] at hlarge
      cases hlarge
    | error f =>
      rw [hframe] at hlarge
      exact ⟨m, f, rfl, hframe, of_decide_eq_true hlarge⟩

/-- Both bindings do not fit into one message, and each does. -/
theorem frames_cramped : ∃ frame frame',
    composer.frames [] [firstBlock, secondBlock] = .ok [frame, frame'] ∧
      Composer.Carries composer ([], [firstBlock]) frame := by
  obtain ⟨m₁, frame, hm₁, hframe⟩ := exists_frame firstBlock (by decide +kernel)
  obtain ⟨m₂, frame', hm₂, hframe'⟩ := exists_frame secondBlock (by decide +kernel)
  obtain ⟨m, f, hm, hf, hlarge⟩ := both_tooLarge
  have hfirst := Composer.frames_of_frame (by simp) hm₁ hframe
  have hsecond := Composer.frames_of_frame (by simp) hm₂ hframe'
  refine ⟨frame, frame', ?_, m₁, hm₁, hframe⟩
  rw [Composer.frames, if_neg (by simp), hm]
  dsimp only
  rw [hf]
  dsimp only
  rw [if_pos ⟨hlarge, by decide⟩, if_neg (by simp), if_neg (by simp)]
  show (do return (← composer.frames [] [firstBlock]) ++ (← composer.frames [] [secondBlock])) = _
  rw [hfirst, hsecond]
  rfl

theorem regular_attempts : ∀ a ∈ [cramped, cleared], a.db.table.Regular := by
  intro a ha
  rcases List.mem_pair.1 ha with rfl | rfl
  · refine ⟨Table.Filed.ofBindings _, fun b hb => ?_⟩
    have hfirst : Net.Canonical (w := 32) ⟨0x0a050000, 16⟩ := by decide
    have hsecond : Net.Canonical (w := 32) ⟨0x0a060000, 16⟩ := by decide
    rcases List.mem_pair.1 (Table.mem_ofBindings hb) with rfl | rfl
    · exact hfirst
    · exact hsecond
  · exact Table.regular_empty

theorem speaker_exporting : Feed.blank.speaker.Exporting := ⟨rfl, rfl, rfl, Table.regular_empty⟩

/-- The first frame announces the first binding. -/
theorem announced_firstBlock {frame : Bytes}
    (h : Composer.Carries composer ([], [firstBlock]) frame) :
    Copy.Announced firstBlock.net frame := by
  have hregular : cramped.db.table.Regular := regular_attempts cramped (by simp)
  have hagrees : Copy.Agrees ((Feed.blank.speaker.goal cramped).relayed 0x0a000001) 0x0a000001
      Feed.blank.speaker.conn.holdsBack ([], [firstBlock]) := by
    apply Table.agrees_difference Table.regular_empty (hregular.visible _)
    · exact fun b hb => ((Table.mem_visible hregular.filed).1 hb).2
    · simp
    · intro b hb
      obtain rfl := List.mem_singleton.1 hb
      have hadd := congrArg Prod.snd difference_cramped
      rw [goal] at hadd
      rw [hadd]
      simp
  exact (hagrees.announced_iff h).2 (by simp)

/-- One frame goes out, and nothing is noted. -/
theorem attempt_cramped : ∃ frame, Copy.Announced firstBlock.net frame ∧
    Feed.blank.speaker.attempt cramped =
      { conn := { Feed.blank.speaker.conn with
          line := { Feed.blank.speaker.conn.line with credit := some 0, sent := [frame] } }
        db := cramped.db } := by
  obtain ⟨frame, frame', hframes, hcarries⟩ := frames_cramped
  refine ⟨frame, announced_firstBlock hcarries, ?_⟩
  have hrun := speaker_exporting.advertise_facing cramped
  have hdifference : Session.difference Feed.blank.speaker.conn.advertised
      (Feed.blank.speaker.goal cramped) = _ := difference_cramped
  have hframes : (Composer.current Feed.blank.speaker.conn.localId
      Feed.blank.speaker.conn.capabilities Feed.blank.speaker.conn.holdsBack).frames []
      [firstBlock, secondBlock] = _ := hframes
  rw [hdifference, hframes] at hrun
  exact Session.outcome_of_error hrun

/-- The next attempt has nothing to send, and what went out stays. -/
theorem attempts_cleared : ∃ frame, Copy.Announced firstBlock.net frame ∧
    (Feed.blank.speaker.attempts [cramped]).conn.line.sent = [frame] ∧
    (Feed.blank.speaker.attempts [cramped]).conn.advertised = ∅ ∧
    (Feed.blank.speaker.attempts [cramped, cleared]).conn.line.sent = [frame] ∧
    (Feed.blank.speaker.attempts [cramped, cleared]).conn.advertised = ∅ := by
  obtain ⟨frame, hannounced, hcramped⟩ := attempt_cramped
  have hfirst : Feed.blank.speaker.attempts [cramped] = _ := hcramped
  have hexporting : (Feed.blank.speaker.attempts [cramped]).Exporting := by
    rw [hfirst]
    exact ⟨rfl, rfl, rfl, Table.regular_empty⟩
  have hrun := hexporting.advertise_facing cleared
  have hnone : Session.difference (Feed.blank.speaker.attempts [cramped]).conn.advertised
      ((Feed.blank.speaker.attempts [cramped]).goal cleared) = ([], []) := by
    rw [hfirst]
    exact Exports.difference_self Table.Filed.empty
  rw [hnone, Composer.frames, if_pos ⟨rfl, rfl⟩] at hrun
  have hlast : Feed.blank.speaker.attempts [cramped, cleared] = _ := Session.outcome_of_ok hrun
  rw [hlast]
  refine ⟨frame, hannounced, ?_, ?_, ?_, rfl⟩
  · rw [hfirst]
  · rw [hfirst]
    rfl
  · show (Feed.blank.speaker.attempts [cramped]).conn.line.sent = _
    rw [hfirst]

/-- A copy has what the frame announces. -/
theorem copy_cramped {frame : Bytes} (hannounced : Copy.Announced firstBlock.net frame)
    (hsent : (Feed.blank.speaker.attempts [cramped]).conn.line.sent = [frame]) (now : Instant) :
    ∃ m, Copy.blank.hearAll [(now, frame)] = some m ∧ m firstBlock.net ≠ none := by
  obtain ⟨parts, frames, hstep, -⟩ :=
    speaker_exporting.attempt (regular_attempts cramped (by simp))
  have hframes : [frame] = frames := hsent.symm.trans hstep.sent
  subst hframes
  obtain ⟨m, hm, hfollows⟩ := hstep.follows Copy.blank [(now, frame)] rfl
  exact ⟨m, hm, ((hfollows firstBlock.net).announced ⟨frame, by simp, hannounced⟩).1⟩

theorem owes_iff_cramped : Feed.blank.speaker.Exporting ∧
    (∀ a ∈ [cramped, cleared], a.db.table.Regular) ∧
    Feed.blank.speaker.Forgets [cramped, cleared] firstBlock.net := by
  obtain ⟨frame, hannounced, hsent, -, hsent', hadvertised⟩ := attempts_cleared
  obtain ⟨-, frames, hframes, hheard⟩ := owes_iff speaker_exporting regular_attempts
  obtain ⟨m, hm, hheld⟩ := copy_cramped hannounced hsent ⟨20, 0⟩
  obtain ⟨m', hm', howes⟩ := hheard [(⟨20, 0⟩, frame)] (hsent'.symm.trans hframes)
  rw [hm] at hm'
  cases hm'
  refine ⟨speaker_exporting, regular_attempts, (howes firstBlock.net).1 ⟨hheld, ?_⟩⟩
  rw [hadvertised]
  simp

/-- The line has accepted a frame that announces the first binding. It is not noted, and when it has
gone from the database the next export does not withdraw it. -/
theorem cramped_leaks : Feed.blank.speaker.Exporting ∧
    (∀ a ∈ [cramped, cleared], a.db.table.Regular) ∧
    ∃ frame, Copy.Announced firstBlock.net frame ∧
      (Feed.blank.speaker.attempts [cramped]).conn.line.sent = [frame] ∧
      (Feed.blank.speaker.attempts [cramped]).conn.advertised[firstBlock.net]? = none ∧
      (Feed.blank.speaker.attempts [cramped, cleared]).conn.line.sent = [frame] := by
  obtain ⟨frame, hannounced, hsent, hadvertised, hsent', -⟩ := attempts_cleared
  refine ⟨speaker_exporting, regular_attempts, frame, hannounced, hsent, ?_, hsent'⟩
  rw [hadvertised]
  simp

end Node

end TagExchange
