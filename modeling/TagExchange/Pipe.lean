import TagExchange.Endpoint
import TagExchange.Fault

/-!
# Pipes

A channel in memory between two ends. What one end sends the other receives in order. Closing an
end stops it from sending only; an end that goes away loses what it has not received, and the
other end finds out when it sends.
-/

namespace TagExchange

structure PipeEnd where
  address : Endpoint
  peer : Endpoint
  closed : Bool := false
  inbox : List Bytes := []
  deriving DecidableEq, Repr

inductive Side where
  | first
  | second
  deriving DecidableEq, Repr

def Side.other : Side → Side
  | .first => .second
  | .second => .first

structure Pipe where
  first : Option PipeEnd
  second : Option PipeEnd
  deriving DecidableEq, Repr

namespace Pipe

def between (a b : Endpoint) : Pipe :=
  ⟨some { address := a, peer := b }, some { address := b, peer := a }⟩

def get (p : Pipe) : Side → Option PipeEnd
  | .first => p.first
  | .second => p.second

def set (p : Pipe) (e : Option PipeEnd) : Side → Pipe
  | .first => { p with first := e }
  | .second => { p with second := e }

def update (p : Pipe) (s : Side) (f : PipeEnd → PipeEnd) : Pipe := p.set ((p.get s).map f) s

/-- An end that is gone sends nothing. -/
def send (p : Pipe) (s : Side) (frame : Bytes) : Except Fault Pipe :=
  match p.get s, p.get s.other with
  | none, _ => .error .channelClosed
  | some sender, other =>
    if sender.closed then .error .channelClosed
    else if other.isNone then .error .channelAbandoned
    else .ok (p.update s.other fun e => { e with inbox := e.inbox ++ [frame] })

/-- The next frame that waits at an end. -/
def receive? (p : Pipe) (s : Side) : Option Bytes × Pipe :=
  (((p.get s).map PipeEnd.inbox).bind List.head?,
    p.update s fun e => { e with inbox := e.inbox.tail })

/-- All frames that wait at an end. -/
def drain (p : Pipe) (s : Side) : List Bytes × Pipe :=
  (((p.get s).map PipeEnd.inbox).getD [], p.update s fun e => { e with inbox := [] })

def close (p : Pipe) (s : Side) : Pipe := p.update s fun e => { e with closed := true }

def leave (p : Pipe) (s : Side) : Pipe := p.set none s

end Pipe

end TagExchange
