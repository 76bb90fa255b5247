import Mathlib
import TagExchange.Connection

/-!
# What goes out on a line

A line only ever gets longer: sending appends frames to those that have been sent, as many as the
line takes (`Line.Extends`), and changes nothing else of the connection.
-/

namespace TagExchange

/-- A line after some frames have been sent. -/
structure Line.Extends (l : Line) (frames : List Bytes) (l' : Line) : Prop where
  peer : l'.peer = l.peer
  taken : l'.taken = l.taken
  sent : l'.sent = l.sent ++ frames

namespace Line.Extends

theorem refl (l : Line) : l.Extends [] l := ⟨rfl, rfl, (List.append_nil _).symm⟩

theorem trans {l₁ l₂ l₃ : Line} {frames frames' : List Bytes} (h : l₁.Extends frames l₂)
    (h' : l₂.Extends frames' l₃) : l₁.Extends (frames ++ frames') l₃ :=
  ⟨h'.peer.trans h.peer, h'.taken.trans h.taken, by rw [h'.sent, h.sent, List.append_assoc]⟩

end Line.Extends

/-- An open line without a limit takes every frame. -/
structure Line.Free (l : Line) : Prop where
  closed : l.closed = false
  credit : l.credit = none

theorem Line.Free.send {l : Line} (h : l.Free) (frame : Bytes) :
    l.send frame = .ok { l with sent := l.sent ++ [frame] } := by
  simp [Line.send, h.closed, h.credit]

theorem Line.send_extends {l l' : Line} {frame : Bytes} (h : l.send frame = .ok l') :
    l.Extends [frame] l' := by
  rw [Line.send] at h
  split at h
  · cases h
  · split at h <;> cases h <;> exact ⟨rfl, rfl, rfl⟩

namespace Connection

theorem send_ok {m : Message} {c c' : Connection} (h : c.send m = .ok c') :
    ∃ frame line, m.frame = .ok frame ∧ c.line.Extends [frame] line ∧ c' = { c with line } := by
  obtain ⟨frame, hframe, h⟩ := Except.bind_eq_ok.1 h
  obtain ⟨line, hline, h⟩ := Except.bind_eq_ok.1 h
  cases h
  exact ⟨frame, line, hframe, Line.send_extends hline, rfl⟩

/-- Some of the frames go out, from the first on, and all of them unless there is a fault. -/
theorem sendAll_extends (frames : List Bytes) (c : Connection) : ∃ front rest line,
    frames = front ++ rest ∧ c.line.Extends front line ∧ (c.sendAll frames).2 = { c with line } ∧
      ((c.sendAll frames).1 = .ok () → rest = []) := by
  induction frames generalizing c with
  | nil => exact ⟨[], [], c.line, rfl, .refl _, rfl, fun _ => rfl⟩
  | cons frame frames ih =>
    rw [sendAll]
    split
    · next line hline =>
      obtain ⟨front, rest, line', hfront, hextends, hsent, hall⟩ := ih { c with line }
      refine ⟨frame :: front, rest, line', ?_, ?_, hsent, hall⟩
      · rw [hfront]
        rfl
      · exact (Line.send_extends hline).trans hextends
    · refine ⟨[], frame :: frames, c.line, rfl, .refl _, rfl, ?_⟩
      intro h
      cases h

theorem sendAll_open {c : Connection} (h : c.line.Free) (frames : List Bytes) : c.sendAll frames =
    (.ok (), { c with line := { c.line with sent := c.line.sent ++ frames } }) := by
  induction frames generalizing c with
  | nil => simp [sendAll]
  | cons frame frames ih =>
    let line := { c.line with sent := c.line.sent ++ [frame] }
    have hrest : { c with line }.sendAll frames = _ := ih ⟨h.closed, h.credit⟩
    rw [sendAll, h.send]
    dsimp only
    rw [hrest]
    simp [line]

/-- What a fault leaves of a connection: it is off, and at most a notice has been sent. -/
theorem shutDown_extends (v : Version) (f : Fault) (c : Connection) : ∃ frames line,
    c.line.Extends frames line ∧ c.shutDown v f = { c with line, phase := .off } ∧
      ∀ frame ∈ frames, ∃ notice, (Message.error notice).frame = .ok frame := by
  have hnone : ∃ frames line, c.line.Extends frames line ∧
      { c with phase := .off, line := c.line.close } = { c with line, phase := .off } ∧
      ∀ frame ∈ frames, ∃ notice, (Message.error notice).frame = .ok frame :=
    ⟨[], c.line.close, ⟨rfl, rfl, (List.append_nil _).symm⟩, rfl, by simp⟩
  rw [shutDown]
  split
  · exact hnone
  · next notice _ =>
    split
    · next c' hc' =>
      obtain ⟨frame, line, hframe, hextends, rfl⟩ := send_ok hc'
      refine ⟨[frame], line.close, ⟨hextends.peer, hextends.taken, hextends.sent⟩, rfl, ?_⟩
      intro frame' hmem
      obtain rfl := List.mem_singleton.1 hmem
      exact ⟨notice, hframe⟩
    · exact hnone

end Connection

end TagExchange
