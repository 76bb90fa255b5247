import TagExchange.Endpoint
import TagExchange.Fault

/-!
# Lines

The sending side of a connection's transport. A line keeps the frames it has accepted, in order,
and how many of them the other side has taken. It may have credit for a limited number of
further frames, and a closed line accepts none.
-/

namespace TagExchange

structure Line where
  peer : Endpoint
  closed : Bool := false
  credit : Option Nat := none
  sent : List Bytes := []
  taken : Nat := 0
  deriving DecidableEq, Repr

namespace Line

def send (l : Line) (frame : Bytes) : Except Fault Line :=
  if l.closed then .error .channelClosed
  else
    match l.credit with
    | some 0 => .error .channelFull
    | some (k + 1) => .ok { l with credit := some k, sent := l.sent ++ [frame] }
    | none => .ok { l with sent := l.sent ++ [frame] }

/-- The frames on their way. -/
def pending (l : Line) : List Bytes := l.sent.drop l.taken

def take (l : Line) : Line := { l with taken := l.sent.length }

def close (l : Line) : Line := { l with closed := true }

/-- A new line to the same peer; what was on its way is lost. -/
def reconnect (l : Line) : Line := { l.take with closed := false, credit := none }

end Line

end TagExchange
