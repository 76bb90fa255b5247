import TagExchange.Fault

/-!
# Reading from the wire

A reader takes something off the front of a byte string and gives back the rest. What it takes says
itself where it ends: with other bytes behind it the same is read, and these bytes are left
(`Delimits`). This is kept when one reader goes on where another has stopped (`Delimits.bind`). An
item reader is one that never succeeds without using up a byte, so a list of items can be read to
the end of any byte string.
-/

namespace TagExchange

theorem Except.bind_eq_ok {ε α β : Type} {x : Except ε α} {f : α → Except ε β} {b : β} :
    (x >>= f) = .ok b ↔ ∃ a, x = .ok a ∧ f a = .ok b := by
  cases x <;> simp [bind, Except.bind]

/-- The next `n` bytes. -/
def readBytes (n : Nat) (bs : Bytes) : Except Fault (Bytes × Bytes) :=
  match split? n bs with
  | some r => .ok r
  | none => .error .parse

/-- The next `n` bytes as a number. -/
def readWord (n : Nat) (bs : Bytes) : Except Fault (Nat × Bytes) :=
  match split? n bs with
  | some (x, rest) => .ok (word x, rest)
  | none => .error .parse

theorem readBytes_eq_ok {n : Nat} {bs x rest : Bytes} :
    readBytes n bs = .ok (x, rest) ↔ bs = x ++ rest ∧ x.length = n := by
  rw [← split?_eq_some_iff, readBytes]
  split <;> simp_all

theorem readWord_eq_ok {n v : Nat} {bs rest : Bytes} :
    readWord n bs = .ok (v, rest) ↔ ∃ x, bs = x ++ rest ∧ x.length = n ∧ word x = v := by
  rw [readWord]
  constructor
  · intro h
    split at h
    · next x r hs =>
      simp only [Except.ok.injEq, Prod.mk.injEq] at h
      obtain ⟨rfl, rfl⟩ := h
      obtain ⟨hb, hl⟩ := split?_eq_some_iff.1 hs
      exact ⟨x, hb, hl, rfl⟩
    · simp at h
  · rintro ⟨x, rfl, rfl, rfl⟩
    simp

theorem length_of_readBytes {n : Nat} {bs x rest : Bytes} (h : readBytes n bs = .ok (x, rest)) :
    bs.length = n + rest.length := by
  obtain ⟨rfl, rfl⟩ := readBytes_eq_ok.1 h
  simp

theorem length_of_readWord {n v : Nat} {bs rest : Bytes} (h : readWord n bs = .ok (v, rest)) :
    bs.length = n + rest.length := by
  obtain ⟨x, rfl, rfl, -⟩ := readWord_eq_ok.1 h
  simp

/-- A word that is written is read back as far as it fits. -/
@[simp] theorem readWord_wordBytes (n v : Nat) (rest : Bytes) :
    readWord n (wordBytes n v ++ rest) = .ok (word (wordBytes n v), rest) :=
  readWord_eq_ok.2 ⟨wordBytes n v, rfl, length_wordBytes n v, rfl⟩

/-- What is read does not depend on what stands behind it, and takes at least so many bytes. -/
def Delimits {α : Type} (k : Nat) (read : Bytes → Except Fault (α × Bytes)) : Prop :=
  ∀ ⦃bs x rest⦄, read bs = .ok (x, rest) →
    ∃ front, bs = front ++ rest ∧ k ≤ front.length ∧ ∀ more, read (front ++ more) = .ok (x, more)

section Delimits

variable {α β : Type} {k : Nat}

theorem delimits_readBytes (n : Nat) : Delimits n (readBytes n) := by
  intro bs x rest h
  obtain ⟨rfl, hx⟩ := readBytes_eq_ok.1 h
  exact ⟨x, rfl, Nat.le_of_eq hx.symm, fun more => readBytes_eq_ok.2 ⟨rfl, hx⟩⟩

theorem delimits_readWord (n : Nat) : Delimits n (readWord n) := by
  intro bs v rest h
  obtain ⟨x, rfl, hx, hv⟩ := readWord_eq_ok.1 h
  exact ⟨x, rfl, Nat.le_of_eq hx.symm, fun more => readWord_eq_ok.2 ⟨x, rfl, hx, hv⟩⟩

theorem delimits_error {fault : Bytes → Fault} :
    Delimits k fun bs => (.error (fault bs) : Except Fault (α × Bytes)) := nofun

/-- A result that is made without reading on. -/
theorem delimits_return {v : Except Fault α} {f : α → β} :
    Delimits 0 fun bs => v >>= fun x => pure (f x, bs) := by
  intro bs y rest h
  obtain ⟨x, rfl, h⟩ := Except.bind_eq_ok.1 h
  cases h
  exact ⟨[], rfl, Nat.zero_le _, fun _ => rfl⟩

theorem delimits_pure {x : α} :
    Delimits 0 fun bs => (pure (x, bs) : Except Fault (α × Bytes)) :=
  delimits_return (v := pure x) (f := id)

/-- A reader goes on where another has stopped, and so many bytes are taken by the first. -/
theorem Delimits.bind {j : α → Nat} {read : Bytes → Except Fault (α × Bytes)}
    {next : α × Bytes → Except Fault (β × Bytes)} (h : Delimits k read)
    (hnext : ∀ x, Delimits (j x) fun bs => next (x, bs)) :
    Delimits k fun bs => read bs >>= next := by
  intro bs y rest hread
  obtain ⟨⟨x, bs'⟩, hfirst, hsecond⟩ := Except.bind_eq_ok.1 hread
  obtain ⟨front, rfl, hk, hfront⟩ := h hfirst
  obtain ⟨front', rfl, -, hfront'⟩ := hnext x hsecond
  refine ⟨front ++ front', (List.append_assoc ..).symm, ?_, fun more => ?_⟩
  · rw [List.length_append]
    exact Nat.le_add_right_of_le hk
  · rw [List.append_assoc]
    exact Except.bind_eq_ok.2 ⟨_, hfront (front' ++ more), hfront' more⟩

theorem Delimits.ite {c : Prop} [Decidable c] {a b : Bytes → Except Fault (α × Bytes)}
    (ha : Delimits k a) (hb : Delimits k b) : Delimits k fun bs => if c then a bs else b bs := by
  by_cases hc : c
  · simpa only [if_pos hc] using ha
  · simpa only [if_neg hc] using hb

/-- A check that enough is left, in front of a reader that takes as much. -/
theorem Delimits.guard {fault : Bytes → Fault} {read : Bytes → Except Fault (α × Bytes)}
    (h : Delimits k read) : Delimits k fun bs => if bs.length < k then .error (fault bs)
      else read bs := by
  intro bs x rest hread
  dsimp only at hread
  split at hread
  · cases hread
  · obtain ⟨front, rfl, hk, hfront⟩ := h hread
    refine ⟨front, rfl, hk, fun more => ?_⟩
    have henough : ¬(front ++ more).length < k := by
      rw [List.length_append]
      omega
    simp only [henough, if_false, hfront more]

/-- A reader that takes a byte leaves less than it was given. -/
theorem Delimits.shorter {read : Bytes → Except Fault (α × Bytes)} (h : Delimits k read)
    (hk : 0 < k) {bs rest : Bytes} {x : α} (hread : read bs = .ok (x, rest)) :
    rest.length < bs.length := by
  obtain ⟨front, rfl, hlength, -⟩ := h hread
  rw [List.length_append]
  omega

end Delimits

structure ItemReader (α : Type) where
  read : Bytes → Except Fault (α × Bytes)
  shorter : ∀ {bs x rest}, read bs = .ok (x, rest) → rest.length < bs.length

namespace ItemReader

variable {α : Type}

/-- Items one after the other until no byte is left. -/
def readAll (r : ItemReader α) (bs : Bytes) : Except Fault (List α) :=
  if bs = [] then .ok []
  else
    match h : r.read bs with
    | .error f => .error f
    | .ok (x, rest) =>
      have := r.shorter h
      match r.readAll rest with
      | .error f => .error f
      | .ok xs => .ok (x :: xs)
termination_by bs.length

/-- Items one after the other until no byte is left, each taken into account at once. -/
def foldAll {σ : Type} (r : ItemReader α) (step : σ → α → Except Fault σ) (s : σ) (bs : Bytes) :
    Except Fault σ :=
  if bs = [] then .ok s
  else
    match h : r.read bs with
    | .error f => .error f
    | .ok (x, rest) =>
      have := r.shorter h
      match step s x with
      | .error f => .error f
      | .ok s => r.foldAll step s rest
termination_by bs.length

@[simp] theorem readAll_nil (r : ItemReader α) : r.readAll [] = .ok [] := by
  rw [readAll, if_pos rfl]

/-- Reading a list starts with reading an item. -/
theorem readAll_of_read {r : ItemReader α} {bs rest : Bytes} {x : α}
    (h : r.read bs = .ok (x, rest)) : r.readAll bs = (r.readAll rest).map (x :: ·) := by
  have hne : bs ≠ [] := by
    rintro rfl
    exact absurd (r.shorter h) (by simp)
  rw [readAll, if_neg hne]
  split
  · simp_all
  · next y rest' hy =>
    rw [h] at hy
    cases hy
    cases r.readAll rest <;> rfl

end ItemReader

end TagExchange
