import TagExchange.Attribute.Codec
import TagExchange.Mapping
import TagExchange.Proofs.RoundTrip.Items

/-!
# Lists read piece by piece

A reader that knows where to stop (`Delimits`) knows it in lists as well: a loop over items is
finished after as many passes as there are bytes, and behind a piece that was read it goes on as if
it started there (`ItemReader.orderly`). All readers of items on the wire are of this kind.
-/

namespace TagExchange

/-- A loop over items, stopped after so many passes. Each pass reads an item off the front and takes
it into account; `none` when bytes are left in the end. -/
def passes {α σ : Type} (read : Bytes → Except Fault (α × Bytes)) (step : σ → α → Except Fault σ) :
    Nat → σ → Bytes → Option (Except Fault σ)
  | _, s, [] => some (.ok s)
  | 0, _, _ :: _ => none
  | n + 1, s, b :: bs =>
    match read (b :: bs) with
    | .error f => some (.error f)
    | .ok (x, rest) =>
      match step s x with
      | .error f => some (.error f)
      | .ok s => passes read step n s rest

/-- Putting an item behind those that were read before. -/
def push {α : Type} (xs : List α) (x : α) : Except Fault (List α) := .ok (xs ++ [x])

namespace ItemReader

variable {α σ : Type} {k : Nat} {r : ItemReader α}

theorem foldAll_of_error {step : σ → α → Except Fault σ} {s : σ} {bs : Bytes} {f : Fault}
    (hne : bs ≠ []) (h : r.read bs = .error f) : r.foldAll step s bs = .error f := by
  rw [foldAll, if_neg hne]
  split
  · simp_all
  · simp_all

/-- The loop is done after as many passes as there are bytes. -/
theorem passes_eq (step : σ → α → Except Fault σ) {n : Nat} (s : σ) {bs : Bytes}
    (h : bs.length ≤ n) : passes r.read step n s bs = some (r.foldAll step s bs) := by
  induction n generalizing s bs with
  | zero =>
    rw [List.eq_nil_of_length_eq_zero (Nat.le_zero.1 h), foldAll_nil]
    rfl
  | succ n ih =>
    cases bs with
    | nil => rw [foldAll_nil]; rfl
    | cons b bs =>
      cases hread : r.read (b :: bs) with
      | error f =>
        rw [foldAll_of_error (List.cons_ne_nil b bs) hread]
        simp only [passes, hread]
      | ok p =>
        obtain ⟨x, rest⟩ := p
        have hle : rest.length ≤ n := Nat.le_of_lt_succ ((r.shorter hread).trans_le h)
        rw [foldAll_of_read hread]
        cases hstep : step s x with
        | error f => simp only [passes, hread, hstep, Except.bind]
        | ok s' => simp only [passes, hread, hstep, ih s' hle, Except.bind]

/-- A list is a fold that keeps every item. -/
theorem foldAll_push (xs : List α) (bs : Bytes) :
    r.foldAll push xs bs = (r.readAll bs).map (xs ++ ·) := by
  fun_induction readAll r bs generalizing xs with
  | case1 => simp [Except.map]
  | case2 bs hne f hread => rw [foldAll_of_error hne hread]; rfl
  | case3 bs hne x rest hread _ f hrest ih =>
    rw [foldAll_of_read hread]
    show r.foldAll push (xs ++ [x]) rest = _
    rw [ih, hrest]
    rfl
  | case4 bs hne x rest hread _ ys hrest ih =>
    rw [foldAll_of_read hread]
    show r.foldAll push (xs ++ [x]) rest = _
    rw [ih, hrest]
    simp [Except.map]

theorem foldAll_push_nil (bs : Bytes) : r.foldAll push [] bs = r.readAll bs := by
  rw [foldAll_push]
  cases r.readAll bs <;> rfl

/-- What is folded goes on where the fold of a piece has ended. -/
theorem foldAll_append_of_ok (h : Delimits k r.read) {step : σ → α → Except Fault σ} {s s' : σ}
    {bs : Bytes} (hfold : r.foldAll step s bs = .ok s') (more : Bytes) :
    r.foldAll step s (bs ++ more) = r.foldAll step s' more := by
  fun_induction foldAll r step s bs with
  | case1 s => cases hfold; rfl
  | case2 => cases hfold
  | case3 => cases hfold
  | case4 s bs hne x rest hread _ s₁ hstep ih =>
    obtain ⟨front, rfl, -, hfront⟩ := h hread
    rw [List.append_assoc, foldAll_of_read (hfront (rest ++ more)), hstep]
    exact ih hfold

/-- A reader whose lists can be read piece by piece: an item ends where its own bytes end, a loop
over items ends, and behind a piece that was read it goes on as if it started there. -/
structure Orderly (r : ItemReader α) : Prop where
  suffix : ∀ {bs x rest}, r.read bs = .ok (x, rest) → rest <:+ bs ∧ rest ≠ bs
  append : ∀ {bs x rest}, r.read bs = .ok (x, rest) →
    ∀ more, r.read (bs ++ more) = .ok (x, rest ++ more)
  readAll_ends : ∀ bs, passes r.read push bs.length [] bs = some (r.readAll bs)
  readAll_append : ∀ {bs xs}, r.readAll bs = .ok xs →
    ∀ more, r.readAll (bs ++ more) = (r.readAll more).map (xs ++ ·)
  foldAll_ends : ∀ {σ : Type} (step : σ → α → Except Fault σ) (s : σ) (bs : Bytes),
    passes r.read step bs.length s bs = some (r.foldAll step s bs)
  foldAll_append : ∀ {σ : Type} {step : σ → α → Except Fault σ} {s s' : σ} {bs : Bytes},
    r.foldAll step s bs = .ok s' → ∀ more, r.foldAll step s (bs ++ more) = r.foldAll step s' more

theorem orderly (h : Delimits k r.read) : r.Orderly where
  suffix hread := by
    obtain ⟨front, rfl, -, -⟩ := h hread
    refine ⟨List.suffix_append front _, fun hsame => ?_⟩
    have hshorter := r.shorter hread
    rw [← hsame] at hshorter
    exact Nat.lt_irrefl _ hshorter
  append hread more := by
    obtain ⟨front, rfl, -, hfront⟩ := h hread
    rw [List.append_assoc, hfront]
  readAll_ends bs := by rw [passes_eq push [] le_rfl, foldAll_push_nil]
  readAll_append {bs xs} hread more := by
    rw [← foldAll_push_nil] at hread
    rw [← foldAll_push_nil, foldAll_append_of_ok h hread, foldAll_push]
  foldAll_ends step s _ := passes_eq step s le_rfl
  foldAll_append hfold := foldAll_append_of_ok h hfold

end ItemReader

/-- Every reader of items on the wire reads lists piece by piece: attributes, mapping records and
their parts, networks of either family and capabilities. -/
theorem readers_orderly :
    Attribute.reader.Orderly ∧ MappingRecord.reader.Orderly ∧ MappingPart.reader.Orderly ∧
      (∀ w, (Net.reader w).Orderly) ∧ Capability.reader.Orderly :=
  ⟨ItemReader.orderly Attribute.delimits_read, ItemReader.orderly MappingRecord.delimits_read,
    ItemReader.orderly MappingPart.delimits_read,
    fun w => ItemReader.orderly (Net.delimits_read w), ItemReader.orderly Capability.delimits_read⟩

end TagExchange
