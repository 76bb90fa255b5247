import TagExchange.Session

/-!
# Two nodes on a line

Frames that one node has sent are delivered to the other in order, each at a later instant than
the one before.
-/

namespace TagExchange

namespace Node

/-- Hears frames until one is a fault; the rest of them is lost. -/
def hearAll (clock : Clock) (frames : List Bytes) (n : Node) : Except Fault Unit × Node × Clock :=
  match frames with
  | [] => (.ok (), n, clock)
  | frame :: rest =>
    let (now, clock) := clock.read
    match Session.hear now frame n with
    | .ok () n => hearAll clock rest n
    | .error f n => (.error f, n, clock)

end Node

/-- Two nodes and the clock they share. -/
structure Exchange where
  left : Node
  right : Node
  clock : Clock

namespace Exchange

def swap (x : Exchange) : Exchange := { x with left := x.right, right := x.left }

/-- Delivers to the left node all that the right one has on its way; gives the number of
frames. -/
def deliverLeft (x : Exchange) : Except Fault Nat × Exchange :=
  let frames := x.right.conn.line.pending
  let right := { x.right with conn := { x.right.conn with line := x.right.conn.line.take } }
  let (result, left, clock) := x.left.hearAll x.clock frames
  (result.map fun _ => frames.length, { left, right, clock })

def deliverRight (x : Exchange) : Except Fault Nat × Exchange :=
  let (result, x) := x.swap.deliverLeft
  (result, x.swap)

/-- Delivers to the left and then to the right node. -/
def round (x : Exchange) : Except Fault Nat × Exchange :=
  match x.deliverLeft with
  | (.error f, x) => (.error f, x)
  | (.ok m, x) =>
    match x.deliverRight with
    | (.error f, x) => (.error f, x)
    | (.ok n, x) => (.ok (m + n), x)

/-- Rounds until one delivers nothing, as many as are allowed; gives the number of frames. -/
def rounds : Nat → Exchange → Except Fault Nat × Exchange
  | 0, x => (.ok 0, x)
  | limit + 1, x =>
    match x.round with
    | (.error f, x) => (.error f, x)
    | (.ok 0, x) => (.ok 0, x)
    | (.ok (m + 1), x) =>
      match rounds limit x with
      | (.error f, x) => (.error f, x)
      | (.ok n, x) => (.ok (m + 1 + n), x)

/-- Delivers until nothing is on its way. A frame that is heard without a fault is answered by an
opening's reply and updates, a reply by updates, and nothing else by anything, so eight rounds are
more than any exchange takes. -/
def settle (x : Exchange) : Except Fault Nat × Exchange := x.rounds 8

end Exchange

end TagExchange
