import TagExchange.Proofs.Exchange.Feed

/-!
# The steps of a feed

Every act keeps `Feed.Sound`: a change of the speaker's database leaves all that the invariant
speaks of but the table, an export puts frames on their way that settle what is new, and hearing a
frame settles the part that it carries. Over a run the readings of the clock have to ascend.
-/

namespace TagExchange

namespace Feed

variable {id : NodeId} {conn : Connection} {f : Feed}

theorem change_of_ok (f : Feed) (op : Database → Except StoreError (List Binding × Database))
    {bs : List Binding} {db : Database} (h : op f.speaker.db = .ok (bs, db)) :
    f.change op = { f with speaker.db := db } := by
  rw [change, h]

/-- A change that leaves an announceable table leaves everything else. -/
theorem Sound.change (h : f.Sound id conn)
    {op : Database → Except StoreError (List Binding × Database)}
    (hop : ∀ bs db, op f.speaker.db = .ok (bs, db) → db.table.Announceable) :
    (f.change op).Sound id conn := by
  rw [Feed.change]
  split
  · next bs db hdb =>
    have hspeaking := h.speaking
    exact { h with speaking := { hspeaking with table := hop bs db hdb } }
  · exact h

theorem listener_change (op : Database → Except StoreError (List Binding × Database)) :
    (f.change op).listener = f.listener := by
  rw [change]
  split <;> rfl

end Feed

namespace Database

theorem announceable_add {db db' : Database} {batch winners : List Binding}
    (h : db.table.Announceable) (hbatch : ∀ b ∈ batch, b.clean.net.Canonical)
    (hadd : db.add batch = .ok (winners, db')) : db'.table.Announceable := by
  refine ⟨filed_add hadd h.filed, ?_, ?_⟩
  · intro b hb
    rcases mem_add hadd hb with hb | ⟨-, q, hq, rfl⟩
    · exact h.canonical b hb
    · exact hbatch q hq
  · intro b hb
    rcases mem_add hadd hb with hb | ⟨hspecific, -⟩
    · exact h.specific b hb
    · exact hspecific

theorem announceable_deleteWhere {db db' : Database} {selects : Binding → Bool}
    {nets : List Network} {doomed : List Binding} (h : db.table.Announceable)
    (hdelete : db.deleteWhere selects nets = .ok (doomed, db')) : db'.table.Announceable where
  filed := filed_deleteWhere hdelete h.filed
  canonical := fun b hb => h.canonical b (mem_deleteWhere hdelete hb)
  specific := fun b hb => h.specific b (mem_deleteWhere hdelete hb)

end Database

namespace Feed

variable {id : NodeId} {conn : Connection} {f : Feed}

/-- The frames that bring a listener from one export to the next. -/
theorem carried_parts {listener : NodeId} {caps : List Capability} {filter : Filter}
    {old next : Table} (hold : old.Announceable) (hnext : next.Announceable)
    (hfresh : ∀ b ∈ next.bindings, b.path.contains listener = false)
    (hfilter : ∀ b ∈ next.bindings, filter b = false) {frames : List Bytes}
    (hframes : (Composer.current id caps filter).frames (Session.difference old next).1
      (Session.difference old next).2 = .ok frames) :
    ∃ parts, List.Forall₂ (Carried id listener) parts frames ∧
      ∀ held n, Part.settleAll id parts held n =
        Part.settle id (Session.difference old next) held n := by
  obtain ⟨parts, hdelete, hadd, hcarries⟩ := Composer.frames_parts hframes
  have hnodup := Exports.nodup_add old hnext.filed
  have hadded : ∀ part ∈ parts, ∀ b ∈ part.2, b ∈ next.bindings := by
    intro part hpart b hb
    have hmem : b ∈ (Session.difference old next).2 := by
      rw [← hadd]
      exact List.mem_flatMap.2 ⟨part, hpart, hb⟩
    exact (Exports.mem_add.1 hmem).1
  have hdeleted : ∀ part ∈ parts, ∀ b ∈ part.1, b ∈ old.bindings := by
    intro part hpart b hb
    have hmem : b ∈ (Session.difference old next).1 := by
      rw [← hdelete]
      exact List.mem_flatMap.2 ⟨part, hpart, hb⟩
    exact (Exports.mem_delete.1 hmem).1
  have hsendable : ∀ part ∈ parts, Part.Sendable listener part := by
    intro part hpart
    refine ⟨?_, ?_, ?_, ?_, ?_⟩
    · exact fun b hb => hold.canonical b (hdeleted part hpart b hb)
    · exact fun b hb => hnext.canonical b (hadded part hpart b hb)
    · exact fun b hb => hnext.specific b (hadded part hpart b hb)
    · have hsublist : (part.2).Sublist (parts.flatMap Prod.snd) :=
        List.sublist_flatten_of_mem (List.mem_map.2 ⟨part, hpart, rfl⟩)
      rw [hadd] at hsublist
      exact hnodup.sublist (hsublist.map Binding.net)
    · exact fun b hb => hfresh b (hadded part hpart b hb)
  refine ⟨parts, ?_, ?_⟩
  · rw [List.forall₂_iff_zip] at hcarries ⊢
    refine ⟨hcarries.1, fun {part frame} hzip => ?_⟩
    have hpart := (List.of_mem_zip hzip).1
    exact ⟨hsendable part hpart, caps, filter,
      fun b hb => hfilter b (hadded part hpart b hb), hcarries.2 hzip⟩
  · intro held n
    exact Part.settleAll_eq hdelete hadd hnodup
      (fun m hm => Exports.disjoint_add hnext.filed hm) held n

/-- What is new for the listener. -/
def news (f : Feed) : List Binding × List Binding :=
  Session.difference f.speaker.conn.advertised
    (f.speaker.db.table.visible f.speaker.conn.remoteId)

/-- After an export that puts frames on their way. -/
def sending (f : Feed) (frames : List Bytes) : Feed :=
  { f with
    speaker.conn.line.sent := f.speaker.conn.line.sent ++ frames
    speaker.conn.advertised := f.speaker.db.table.visible f.speaker.conn.remoteId
    exports := f.speaker.db.table :: f.exports }

/-- An export sends what is new, in frames that go out together. -/
theorem advertise_eq {listener : NodeId} (h : f.speaker.Speaking listener) : f.advertise =
    match (f.speaker.conn.composer .v4).frames f.news.1 f.news.2 with
    | .error _ => f
    | .ok frames => f.sending frames := by
  have hactive : ¬(f.speaker.conn.phase ≠ .on ∨ ¬f.speaker.conn.mode.isSpeaker = true) := by
    simp [h.phase, h.mode]
  have hrun := Session.advertise_eq f.speaker.conn.version f.speaker
  rw [if_neg hactive, h.version] at hrun
  change _ = match (f.speaker.conn.composer .v4).frames f.news.1 f.news.2 with
    | .error fault => _
    | .ok frames => _ at hrun
  rw [advertise, h.version, hrun]
  cases (f.speaker.conn.composer .v4).frames f.news.1 f.news.2 with
  | error fault => rfl
  | ok frames =>
    dsimp only
    rw [Connection.sendAll_open ⟨h.isOpen, h.credit⟩]
    rfl

theorem Sound.sending (h : f.Sound id conn) {frames : List Bytes}
    (hframes : (f.speaker.conn.composer .v4).frames f.news.1 f.news.2 = .ok frames) :
    (f.sending frames).Sound id conn := by
  have hs := h.speaking
  obtain ⟨parts, hparts, hsettled⟩ := h.pending
  have hvisible : (f.speaker.db.table.visible conn.localId).Announceable := hs.table.visible
  have hfresh : ∀ b ∈ (f.speaker.db.table.visible conn.localId).bindings,
      b.path.contains conn.localId = false :=
    fun b hb => ((Table.mem_visible hs.table.filed).1 hb).2
  have hfilter : ∀ b ∈ (f.speaker.db.table.visible conn.localId).bindings,
      f.speaker.conn.holdsBack b = false := by
    intro b hb
    rw [Connection.holdsBack, hs.peer]
    exact hfresh b hb
  rw [news, hs.peer, h.advertised, Connection.composer, if_neg (by simp [Version.isLegacy]),
    h.speakerId] at hframes
  obtain ⟨added, hadded, hdifference⟩ :=
    carried_parts h.announceable hvisible hfresh hfilter hframes
  have hexported : (f.sending frames).exported conn.localId =
      f.speaker.db.table.visible conn.localId :: f.exported conn.localId := rfl
  exact {
    speakerId := h.speakerId
    listenerConn := h.listenerConn
    speaking := { hs with }
    listening := h.listening
    taken := by
      rw [Feed.sending, List.length_append]
      exact Nat.le_add_right_of_le h.taken
    advertised := by
      rw [hexported, Feed.sending, hs.peer]
      rfl
    announceable := hvisible
    filed := by
      intro t ht
      rcases List.mem_cons.1 ht with rfl | ht
      · exact hs.table.filed
      · exact h.filed t ht
    pending := by
      refine ⟨parts ++ added, ?_, ?_⟩
      · rw [Feed.sending, Line.pending, List.drop_append_of_le_length h.taken]
        exact List.rel_append hparts hadded
      · intro n
        have happend : Part.settleAll id (parts ++ added) f.listener.db.table.told =
            Part.settleAll id added (Part.settleAll id parts f.listener.db.table.told) :=
          List.foldl_append
        rw [hexported]
        show Part.settleAll id (parts ++ added) f.listener.db.table.told n = _
        rw [happend, hdifference, funext hsettled]
        exact Exports.settle_difference hvisible.filed h.announceable.filed n }

theorem Sound.advertise (h : f.Sound id conn) : f.advertise.Sound id conn := by
  rw [advertise_eq h.speaking]
  split
  · exact h
  · next frames hframes => exact h.sending hframes

theorem listener_advertise (h : f.Sound id conn) : f.advertise.listener = f.listener := by
  rw [advertise_eq h.speaking]
  split <;> rfl

/-- Hearing the next frame is never a fault, and only the database changes. -/
theorem deliver_cases (h : f.Sound id conn) {now : Instant}
    (hnow : ∀ b ∈ f.listener.db.bindings, b.stamp < now) :
    (f.speaker.conn.line.pending = [] ∧ f.deliver now = f) ∨
      ∃ part frame rest db, f.speaker.conn.line.pending = frame :: rest ∧
        Session.hear now frame f.listener = .ok () { f.listener with db } ∧
        f.deliver now = { f with
          speaker.conn.line.taken := f.speaker.conn.line.taken + 1
          listener := { f.listener with db } } ∧
        Node.Listening id { f.listener with db } ∧
        (∀ b ∈ db.bindings, b ∈ f.listener.db.bindings ∨ b.stamp = now) ∧
        (∀ n, db.table.told n = part.settle id f.listener.db.table.told n) ∧
        ∃ parts, List.Forall₂ (Carried id conn.localId) parts rest ∧
          ∀ n, Part.settleAll id (part :: parts) f.listener.db.table.told n =
            Exports.held id (f.exported conn.localId) n := by
  cases hpending : f.speaker.conn.line.pending with
  | nil =>
    left
    rw [deliver, hpending]
    exact ⟨rfl, rfl⟩
  | cons frame rest =>
    obtain ⟨parts, hparts, hsettled⟩ := h.pending
    rw [hpending] at hparts
    obtain ⟨part, parts, ⟨hpart, caps, filter, hfilter, hframe⟩, hrest, rfl⟩ :=
      List.forall₂_cons_right_iff.1 hparts
    rw [← h.listenerConn] at hpart
    obtain ⟨db, hhear, hlistening, hstamps, htold⟩ :=
      h.listening.hear hnow hpart hfilter hframe
    refine .inr ⟨part, frame, rest, db, rfl, hhear, ?_, hlistening, hstamps, htold, parts, hrest,
      hsettled⟩
    rw [deliver, hpending]
    dsimp only
    rw [Session.outcome_of_ok hhear]

theorem Sound.deliver (h : f.Sound id conn) {now : Instant}
    (hnow : ∀ b ∈ f.listener.db.bindings, b.stamp < now) :
    (f.deliver now).Sound id conn ∧ ∀ b ∈ (f.deliver now).listener.db.bindings,
      b ∈ f.listener.db.bindings ∨ b.stamp = now := by
  rcases deliver_cases h hnow with ⟨-, heq⟩ | ⟨part, frame, rest, db, hpending, -, heq, hlistening,
    hstamps, htold, parts, hrest, hsettled⟩
  · rw [heq]
    exact ⟨h, fun b hb => .inl hb⟩
  · rw [heq]
    have hlt : f.speaker.conn.line.taken < f.speaker.conn.line.sent.length := by
      by_contra hge
      rw [Line.pending, List.drop_of_length_le (Nat.not_lt.1 hge)] at hpending
      cases hpending
    have hs := h.speaking
    refine ⟨?_, hstamps⟩
    exact { h with
      speaking := { hs with }
      listening := hlistening
      taken := hlt
      pending := by
        refine ⟨parts, ?_, ?_⟩
        · rw [Line.pending, ← List.tail_drop]
          rw [Line.pending] at hpending
          rw [hpending]
          exact hrest
        · intro n
          have hheld : db.table.told = part.settle id f.listener.db.table.told := funext htold
          rw [hheld]
          exact hsettled n }

/-- One step keeps the invariant, and the listener learns nothing but what it hears then. -/
theorem Sound.step (h : f.Sound id conn) {a : Act} (ha : a.Proper)
    (hnow : ∀ now, a.reading? = some now → ∀ b ∈ f.listener.db.bindings, b.stamp < now) :
    (f.step a).Sound id conn ∧ ∀ b ∈ (f.step a).listener.db.bindings,
      b ∈ f.listener.db.bindings ∨ a.reading? = some b.stamp := by
  have hchange (op : Database → Except StoreError (List Binding × Database)) :
      ∀ b ∈ (f.change op).listener.db.bindings, b ∈ f.listener.db.bindings := by
    rw [listener_change]
    exact fun b hb => hb
  cases a with
  | add batch =>
    rw [Feed.step]
    refine ⟨h.change fun bs db hadd => ?_, fun b hb => .inl (hchange _ b hb)⟩
    exact Database.announceable_add h.speaking.table ha hadd
  | delete nets =>
    rw [Feed.step]
    refine ⟨h.change fun bs db hdelete => ?_, fun b hb => .inl (hchange _ b hb)⟩
    exact Database.announceable_deleteWhere h.speaking.table hdelete
  | purge peer =>
    rw [Feed.step]
    refine ⟨h.change fun bs db hpurge => ?_, fun b hb => .inl (hchange _ b hb)⟩
    exact Database.announceable_deleteWhere h.speaking.table hpurge
  | advertise =>
    rw [Feed.step]
    refine ⟨h.advertise, fun b hb => .inl ?_⟩
    rwa [listener_advertise h] at hb
  | deliver now =>
    obtain ⟨hsound, hstamps⟩ := h.deliver (hnow now rfl)
    refine ⟨hsound, fun b hb => ?_⟩
    rcases hstamps b hb with hb | hb
    · exact .inl hb
    · exact .inr (congrArg some hb.symm)

/-- By induction on the acts: what is heard is always later than what the listener has. -/
theorem Sound.run (h : f.Sound id conn) {acts : List Act} (hacts : Act.Orderly acts)
    (hlater : ∀ now ∈ acts.filterMap Act.reading?, ∀ b ∈ f.listener.db.bindings, b.stamp < now) :
    (f.run acts).Sound id conn := by
  induction acts generalizing f with
  | nil => exact h
  | cons a acts ih =>
    have hnow : ∀ now, a.reading? = some now → ∀ b ∈ f.listener.db.bindings, b.stamp < now :=
      fun now ha => hlater now (List.mem_filterMap.2 ⟨a, by simp, ha⟩)
    obtain ⟨hsound, hstamps⟩ := h.step (hacts.proper a (by simp)) hnow
    refine ih hsound hacts.tail ?_
    intro later hmem b hb
    rcases hstamps b hb with hb | hb
    · obtain ⟨c, hc, hreading⟩ := List.mem_filterMap.1 hmem
      exact hlater later (List.mem_filterMap.2 ⟨c, by simp [hc], hreading⟩) b hb
    · exact hacts.head_lt hb hmem

theorem Joined.run (h : f.Joined) {acts : List Act} (hacts : Act.Orderly acts) :
    (f.run acts).Sound f.speaker.conn.localId f.listener.conn := by
  refine h.sound.run hacts ?_
  intro now _ b hb
  rw [Database.bindings, h.empty, Table.mem_bindings] at hb
  simp at hb

end Feed

end TagExchange
