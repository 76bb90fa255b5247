import TagExchange.Wire

/-!
# Frames

A message travels as a frame: four bytes of length, three reserved bytes, a byte of type and the
payload. The length counts the header and is at most 4096. `frameLength` judges the front of a
stream; it answers as soon as the length is known to be wrong, and gives a length only when a
whole header is there.
-/

namespace TagExchange

inductive MessageType where
  | opening
  | reply
  | update
  | error
  | purgeAll
  | keepalive
  deriving DecidableEq, Repr

namespace MessageType

def code : MessageType → Nat
  | opening => 1
  | reply => 2
  | update => 3
  | error => 4
  | purgeAll => 5
  | keepalive => 6

def ofCode? : Nat → Option MessageType
  | 1 => some opening
  | 2 => some reply
  | 3 => some update
  | 4 => some error
  | 5 => some purgeAll
  | 6 => some keepalive
  | _ => none

@[simp] theorem ofCode?_code (t : MessageType) : ofCode? t.code = some t := by
  cases t <;> rfl

def text : MessageType → String
  | opening => "OPEN"
  | reply => "RESP"
  | update => "UPDATE"
  | error => "ERROR"
  | purgeAll => "PURGEALL"
  | keepalive => "KEEPALIVE"

end MessageType

/-- The bytes of a header. -/
def headerSize : Nat := 8

/-- The most bytes of a message, its header included. -/
def messageLimit : Nat := 4096

/-- The declared length of the frame that a stream starts with. -/
def frameLength (bs : Bytes) : Except Fault (Option Nat) :=
  match split? 4 bs with
  | none => .ok none
  | some (front, _) =>
    let length := word front
    if messageLimit < length then .error (.declaredBeyondLimit length)
    else if length < headerSize then .error (.declaredBelowHeader length)
    else if bs.length < headerSize then .ok none
    else .ok (some length)

structure Header where
  length : Nat
  type : MessageType
  deriving DecidableEq, Repr

namespace Header

def of? (length : Nat) (type : MessageType) : Except Fault Header :=
  if length < headerSize then .error (.belowHeader length)
  else if messageLimit < length then .error (.messageTooLarge length)
  else .ok ⟨length, type⟩

def bytes (h : Header) : Bytes := wordBytes 4 h.length ++ wordBytes 4 h.type.code

/-- The header of a byte string that holds exactly one message. Reserved bytes are not looked
at. -/
def ofFrame (bs : Bytes) : Except Fault Header := do
  match ← frameLength bs with
  | none => throw (.headerCut bs.length)
  | some length =>
    if length ≠ bs.length then throw (.sizeMismatch length bs.length)
    let code := ((bs[7]?).getD 0).toNat
    match MessageType.ofCode? code with
    | none => throw (.unknownMessageType code)
    | some type => return ⟨length, type⟩

end Header

/-- A payload behind its header. -/
def frame (type : MessageType) (payload : Bytes) : Except Fault Bytes :=
  (Header.of? (headerSize + payload.length) type).map fun h => h.bytes ++ payload

/-- The bytes of a frame in decimal, with a bar after the header. -/
def frameText (bs : Bytes) : String :=
  let numbers := bs.map fun b => toString b.toNat
  let body := numbers.drop headerSize
  " ".intercalate (numbers.take headerSize ++ if body = [] then [] else "|" :: body)

end TagExchange
