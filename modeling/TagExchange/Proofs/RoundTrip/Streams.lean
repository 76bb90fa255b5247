import TagExchange.Proofs.RoundTrip.Sizes

/-!
# Cutting a stream that comes in chunks

The declared length is judged from four bytes on and given from eight, and what was once said of a
stream stays said when more of it comes in (`frameLength_append_of_some`,
`frameLength_append_of_error`). So it makes no difference in which chunks a stream comes in: what is
cut on the way is what is cut from the whole (`cutChunks_eq`), for a stream of frames these frames
(`cutFrames_flatten`). A frame that is cut short or goes on is not read (`stream_exact`).
-/

namespace TagExchange

variable {bs : Bytes} {n : Nat} {fault : Fault}

theorem frameLength_of_length_lt (h : bs.length < 4) : frameLength bs = .ok none := by
  rw [frameLength, split?_eq_none_iff.2 h]

/-- The four bytes at the front decide, and whether there is a whole header. -/
theorem frameLength_of_front {front : Bytes} (h : front.length = 4) (rest : Bytes) :
    frameLength (front ++ rest) =
      if messageLimit < word front then .error (.declaredBeyondLimit (word front))
      else if word front < headerSize then .error (.declaredBelowHeader (word front))
      else if rest.length < 4 then .ok none
      else .ok (some (word front)) := by
  have hsplit : split? 4 (front ++ rest) = some (front, rest) := h ▸ split?_append front rest
  have hshort : (front ++ rest).length < headerSize ↔ rest.length < 4 := by
    rw [List.length_append, h, headerSize]
    omega
  simp only [frameLength, hsplit, hshort]

/-- A stream that is too short to be judged, or one with four bytes at its front. -/
theorem length_lt_or_exists_front (bs : Bytes) :
    bs.length < 4 ∨ ∃ front rest, bs = front ++ rest ∧ front.length = 4 := by
  by_cases h : bs.length < 4
  · exact .inl h
  · exact .inr ⟨bs.take 4, bs.drop 4, by simp, by simp; omega⟩

theorem frameLength_append_of_some (h : frameLength bs = .ok (some n)) (more : Bytes) :
    frameLength (bs ++ more) = .ok (some n) := by
  rcases length_lt_or_exists_front bs with hshort | ⟨front, rest, rfl, hfront⟩
  · simp [frameLength_of_length_lt hshort] at h
  · rw [frameLength_of_front hfront] at h
    rw [List.append_assoc, frameLength_of_front hfront]
    split_ifs at h ⊢ <;> simp_all
    omega

theorem frameLength_append_of_error (h : frameLength bs = .error fault) (more : Bytes) :
    frameLength (bs ++ more) = .error fault := by
  rcases length_lt_or_exists_front bs with hshort | ⟨front, rest, rfl, hfront⟩
  · simp [frameLength_of_length_lt hshort] at h
  · rw [frameLength_of_front hfront] at h
    rw [List.append_assoc, frameLength_of_front hfront]
    split_ifs at h ⊢ <;> simp_all

theorem cutFrames_of_error (h : frameLength bs = .error fault) :
    cutFrames bs = ([], some fault, bs) := by
  rw [cutFrames, h]

theorem cutFrames_of_none (h : frameLength bs = .ok none) : cutFrames bs = ([], none, bs) := by
  rw [cutFrames, h]

theorem cutFrames_of_lt (h : frameLength bs = .ok (some n)) (hn : bs.length < n) :
    cutFrames bs = ([], none, bs) := by
  have hnot : ¬(0 < n ∧ n ≤ bs.length) := by omega
  rw [cutFrames, h]
  simp [hnot]

theorem cutFrames_of_le (h : frameLength bs = .ok (some n)) (hn : n ≤ bs.length) :
    cutFrames bs = (bs.take n :: (cutFrames (bs.drop n)).1, (cutFrames (bs.drop n)).2) := by
  have hpos : 0 < n := Nat.lt_of_lt_of_le (by decide) (frameLength_bounds h).1
  rw [cutFrames, h]
  simp [hpos, hn]

/-- The frames so far, the fault that has ended the stream if any, and what is left. A further chunk
goes behind what is left, and is cut with it as long as there was no fault. -/
def cutNext : List Bytes × Option Fault × Bytes → Bytes → List Bytes × Option Fault × Bytes
  | (frames, some fault, left), chunk => (frames, some fault, left ++ chunk)
  | (frames, none, left), chunk =>
    let (later, fault, rest) := cutFrames (left ++ chunk)
    (frames ++ later, fault, rest)

/-- Cuts a stream chunk by chunk, as it comes in. -/
def cutChunks (chunks : List Bytes) : List Bytes × Option Fault × Bytes :=
  chunks.foldl cutNext ([], none, [])

theorem cutNext_cons (frame : Bytes) (frames : List Bytes) (state : Option Fault × Bytes)
    (chunk : Bytes) : cutNext (frame :: frames, state) chunk =
      (frame :: (cutNext (frames, state) chunk).1, (cutNext (frames, state) chunk).2) := by
  obtain ⟨_ | fault, left⟩ := state <;> rfl

/-- The induction follows the cutting of what was there before. -/
theorem cutNext_cutFrames (bs chunk : Bytes) :
    cutNext (cutFrames bs) chunk = cutFrames (bs ++ chunk) := by
  fun_induction cutFrames bs with
  | case1 bs fault h => rw [cutFrames_of_error (frameLength_append_of_error h chunk)]; rfl
  | case2 bs h => rfl
  | case3 bs n h hn frames fault rest hrest ih =>
    have hlong : n ≤ (bs ++ chunk).length := by simp; omega
    rw [cutFrames_of_le (frameLength_append_of_some h chunk) hlong,
      List.take_append_of_le_length hn.2, List.drop_append_of_le_length hn.2, ← ih, hrest,
      cutNext_cons]
  | case4 bs n h hn => rfl

theorem foldl_cutNext (chunks : List Bytes) (bs : Bytes) :
    chunks.foldl cutNext (cutFrames bs) = cutFrames (bs ++ chunks.flatten) := by
  induction chunks generalizing bs with
  | nil => simp
  | cons chunk chunks ih => simp [cutNext_cutFrames, ih]

/-- It makes no difference in which chunks a stream comes in. -/
theorem cutChunks_eq (chunks : List Bytes) : cutChunks chunks = cutFrames chunks.flatten := by
  have hstart : cutFrames [] = ([], none, []) := cutFrames_of_none rfl
  rw [cutChunks, ← hstart, foldl_cutNext, List.nil_append]

/-- The bytes of a message. -/
def IsFrame (bs : Bytes) : Prop := ∃ m : Message, m.frame = .ok bs

/-- The beginning of a frame that has not come in as a whole. -/
def IsCut (tail : Bytes) : Prop := ∃ frame, IsFrame frame ∧ tail <+: frame ∧ tail ≠ frame

theorem IsFrame.frameLength {frame : Bytes} (h : IsFrame frame) :
    frameLength frame = .ok (some frame.length) := by
  obtain ⟨m, hm⟩ := h
  obtain ⟨payload, -, hframe⟩ := Except.bind_eq_ok.1 hm
  exact frameLength_of_frame hframe

/-- What stands behind a frame does not change what is said of it. -/
theorem IsFrame.frameLength_append {frame : Bytes} (h : IsFrame frame) (rest : Bytes) :
    TagExchange.frameLength (frame ++ rest) = .ok (some frame.length) :=
  frameLength_append_of_some h.frameLength rest

/-- Of a beginning nothing is said yet, or that more has to come. -/
theorem IsCut.frameLength {tail : Bytes} (h : IsCut tail) :
    frameLength tail = .ok none ∨
      ∃ n, TagExchange.frameLength tail = .ok (some n) ∧ tail.length < n := by
  obtain ⟨frame, hframe, ⟨more, rfl⟩, hcut⟩ := h
  have hmore : 0 < more.length := List.length_pos_iff.2 (by simpa using hcut)
  have hwhole := hframe.frameLength
  cases hlength : TagExchange.frameLength tail with
  | error fault => simp [frameLength_append_of_error hlength] at hwhole
  | ok answer =>
    cases answer with
    | none => exact .inl rfl
    | some n =>
      refine .inr ⟨n, rfl, ?_⟩
      simp [frameLength_append_of_some hlength] at hwhole
      omega

theorem IsCut.cutFrames {tail : Bytes} (h : IsCut tail) : cutFrames tail = ([], none, tail) := by
  rcases h.frameLength with hnone | ⟨n, hsome, hn⟩
  · exact cutFrames_of_none hnone
  · exact cutFrames_of_lt hsome hn

/-- Frames are cut off one by one. -/
theorem cutFrames_flatten {frames : List Bytes} (h : ∀ frame ∈ frames, IsFrame frame)
    (rest : Bytes) :
    cutFrames (frames.flatten ++ rest) = (frames ++ (cutFrames rest).1, (cutFrames rest).2) := by
  induction frames with
  | nil => rfl
  | cons frame frames ih =>
    obtain ⟨hframe, hframes⟩ := List.forall_mem_cons.1 h
    have hlong : frame.length ≤ (frame ++ (frames.flatten ++ rest)).length := by simp
    rw [List.flatten_cons, List.append_assoc,
      cutFrames_of_le (hframe.frameLength_append (frames.flatten ++ rest)) hlong,
      List.take_left, List.drop_left, ih hframes]
    rfl

/-- A beginning of a stream of frames is not found at fault. -/
theorem frameLength_of_isPrefix {frames : List Bytes} {buffer : Bytes}
    (h : ∀ frame ∈ frames, IsFrame frame) (hbuffer : buffer <+: frames.flatten) :
    ∃ answer, frameLength buffer = .ok answer := by
  obtain ⟨more, hmore⟩ := hbuffer
  cases hlength : frameLength buffer with
  | ok answer => exact ⟨answer, rfl⟩
  | error fault =>
    have hstream := frameLength_append_of_error hlength more
    rw [hmore] at hstream
    cases frames with
    | nil => cases hstream
    | cons frame frames =>
      rw [List.flatten_cons, (h frame (by simp)).frameLength_append] at hstream
      cases hstream

/-- What is read declares its own length. -/
theorem Message.frameLength_of_ofFrame {v : Version} {m : Message} (h : ofFrame v bs = .ok m) :
    frameLength bs = .ok (some bs.length) := by
  obtain ⟨header, hheader, -⟩ := Except.bind_eq_ok.1 h
  obtain ⟨declared, hlength, hheader⟩ := Except.bind_eq_ok.1 hheader
  cases declared with
  | none => cases hheader
  | some n =>
    dsimp only at hheader
    split at hheader
    · cases hheader
    · next hsame => rw [hlength, not_not.1 hsame]

/-- A frame that is cut short or goes on is not read as a message, under any version. -/
theorem Message.ofFrame_error {frame part : Bytes} (hframe : IsFrame frame) (hne : part ≠ frame)
    (hpart : part <+: frame ∨ frame <+: part) (v : Version) :
    ∃ fault, ofFrame v part = .error fault := by
  rw [Except.exists_error_iff]
  rintro ⟨m, hm⟩
  have hlength := frameLength_of_ofFrame hm
  rcases hpart with hshort | ⟨more, rfl⟩
  · rcases IsCut.frameLength ⟨frame, hframe, hshort, hne⟩ with hnone | ⟨n, hsome, hn⟩
    · simp [hnone] at hlength
    · simp [hsome] at hlength
      omega
  · simp [hframe.frameLength_append] at hlength
    simp [hlength] at hne

/-- Frames come out of a stream as they went in, in whatever chunks it comes, and the beginning of a
further one is left. What is said of a buffer stays said when more comes in, and of the beginning of
a stream of frames no fault is found. No frame is read that is cut short or goes on. -/
theorem stream_exact :
    (∀ (frames chunks : List Bytes) (tail : Bytes), (∀ frame ∈ frames, IsFrame frame) →
      IsCut tail → chunks.flatten = frames.flatten ++ tail →
      cutChunks chunks = (frames, none, tail)) ∧
    (∀ (buffer more : Bytes) (n : Nat), frameLength buffer = .ok (some n) →
      frameLength (buffer ++ more) = .ok (some n)) ∧
    (∀ (buffer more : Bytes) (fault : Fault), frameLength buffer = .error fault →
      frameLength (buffer ++ more) = .error fault) ∧
    (∀ (frames : List Bytes) (buffer : Bytes), (∀ frame ∈ frames, IsFrame frame) →
      buffer <+: frames.flatten → ∃ answer, frameLength buffer = .ok answer) ∧
    ∀ (v : Version) (frame part : Bytes), IsFrame frame → part ≠ frame →
      (part <+: frame ∨ frame <+: part) → ∃ fault, Message.ofFrame v part = .error fault := by
  refine ⟨?_, fun buffer more n h => frameLength_append_of_some h more,
    fun buffer more fault h => frameLength_append_of_error h more,
    fun frames buffer => frameLength_of_isPrefix,
    fun v frame part hframe hne hpart => Message.ofFrame_error hframe hne hpart v⟩
  intro frames chunks tail hframes htail hchunks
  rw [cutChunks_eq, hchunks, cutFrames_flatten hframes, htail.cutFrames, List.append_nil]

/-- A keepalive and a purge, in chunks that fit neither, with two bytes of a third message. -/
def tornFrames : List Bytes := [[0, 0, 0, 8, 0, 0, 0, 6], [0, 0, 0, 8, 0, 0, 0, 5]]
def tornChunks : List Bytes :=
  [[0, 0, 0], [8, 0, 0, 0], [], [6, 0, 0, 0, 8, 0, 0, 0, 5, 0], [0]]

theorem stream_exact_torn : (∀ frame ∈ tornFrames, IsFrame frame) ∧ IsCut [0, 0] ∧
    cutChunks tornChunks = (tornFrames, none, [0, 0]) ∧
    ∃ fault, Message.ofFrame .v4 [0, 0, 0, 8, 0, 0, 0] = .error fault := by
  have hkeepalive : IsFrame [0, 0, 0, 8, 0, 0, 0, 6] := ⟨.keepalive, rfl⟩
  have hpurge : IsFrame [0, 0, 0, 8, 0, 0, 0, 5] := ⟨.purgeAll, rfl⟩
  have hframes : ∀ frame ∈ tornFrames, IsFrame frame := by
    simp [tornFrames, hkeepalive, hpurge]
  have htail : IsCut [0, 0] := ⟨_, hkeepalive, by decide, by decide⟩
  obtain ⟨hcut, -, -, -, hread⟩ := stream_exact
  exact ⟨hframes, htail, hcut tornFrames tornChunks [0, 0] hframes htail rfl,
    hread .v4 _ _ hkeepalive (by decide) (.inl (by decide))⟩

end TagExchange
