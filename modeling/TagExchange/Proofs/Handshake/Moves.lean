import TagExchange.Exchange
import TagExchange.Pipe
import TagExchange.Proofs.Session.Steps

/-!
# Two nodes that move in any order

The nodes of an exchange move one at a time: one opens its connection, hears the next frame that is
on its way to it, makes an export, or has its database changed. Which one moves when is up to
nobody, so what is to hold in every state has to be kept by every move (`Exchange.play_induction`).
The moves of the right node are those of the left one in the exchange seen from the other side.
-/

namespace TagExchange

/-- What can happen at one end of a line. -/
inductive Move where
  | activate
  /-- The next frame, if one is on its way, is heard at an instant. -/
  | hear (now : Instant)
  | advertise
  /-- The database becomes another. -/
  | change (db : Database)

namespace Exchange

/-- Carries out a step at the left node. -/
def onLeft {α : Type} (s : Session α) (x : Exchange) : Except Fault Unit × Exchange :=
  match s x.left with
  | .ok _ left => (.ok (), { x with left })
  | .error f left => (.error f, { x with left })

/-- The next frame for the left node is off the line. -/
def taken (x : Exchange) : Exchange :=
  { x with right.conn.line.taken := x.right.conn.line.taken + 1 }

/-- The next frame for the left node. -/
def next? (x : Exchange) : Option Bytes := x.right.conn.line.pending.head?

/-- A move of the left node, under the version in effect on its connection. -/
def moveLeft (m : Move) (x : Exchange) : Except Fault Unit × Exchange :=
  match m with
  | .activate => x.onLeft (Session.activate x.left.conn.version)
  | .hear now =>
    match x.next? with
    | none => (.ok (), x)
    | some frame => x.taken.onLeft (Session.hear now frame)
  | .advertise => x.onLeft (Session.advertise x.left.conn.version)
  | .change db => (.ok (), { x with left.db := db })

def move (s : Side) (m : Move) (x : Exchange) : Except Fault Unit × Exchange :=
  match s with
  | .first => x.moveLeft m
  | .second => ((x.swap.moveLeft m).1, (x.swap.moveLeft m).2.swap)

/-- Moves one after the other, each taken as far as it gets. -/
def play (moves : List (Side × Move)) (x : Exchange) : Exchange :=
  moves.foldl (fun x m => (x.move m.1 m.2).2) x

@[simp] theorem play_nil (x : Exchange) : x.play [] = x := rfl

@[simp] theorem play_cons (m : Side × Move) (moves : List (Side × Move)) (x : Exchange) :
    x.play (m :: moves) = (x.move m.1 m.2).2.play moves := rfl

theorem onLeft_of_ok {α : Type} {s : Session α} {x : Exchange} {a : α} {left : Node}
    (h : s x.left = .ok a left) : x.onLeft s = (.ok (), { x with left }) := by
  rw [onLeft, h]

theorem onLeft_snd {α : Type} (s : Session α) (x : Exchange) :
    (x.onLeft s).2 = { x with left := s.outcome x.left } := by
  rw [onLeft, Session.outcome]
  cases s x.left <;> rfl

/-- What every move of the left node keeps, seen from either side, holds all along. -/
theorem play_induction {I : Exchange → Exchange → Prop}
    (hswap : ∀ x₀ x, I x₀ x → I x₀.swap x.swap)
    (hleft : ∀ x₀ x m, I x₀ x → I x₀ (x.moveLeft m).2) {x₀ x : Exchange} (h : I x₀ x)
    (moves : List (Side × Move)) : I x₀ (x.play moves) := by
  induction moves generalizing x with
  | nil => exact h
  | cons m moves ih =>
    apply ih
    obtain ⟨s, m⟩ := m
    cases s with
    | first => exact hleft x₀ x m h
    | second => exact hswap _ _ (hleft x₀.swap x.swap m (hswap x₀ x h))

end Exchange

end TagExchange
