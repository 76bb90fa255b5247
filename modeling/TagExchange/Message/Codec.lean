import TagExchange.Attribute.Codec
import TagExchange.Message

/-!
# The wire form of messages

The version in force decides how the payload of an update is read; an opening and its reply say
their version themselves. Keepalives exist in version 4 only.
-/

namespace TagExchange

namespace ErrorNotice

/-- The bit that marks the extended form in the first byte. -/
def extendedBit : Nat := 128

def extended? (code : ErrorCode) (subcode : ErrorSubcode) (data : Bytes) :
    Except Fault ErrorNotice :=
  if dataLimit < data.length then .error (.errorDataLength data.length)
  else .ok (extended code subcode data)

def bytes : ErrorNotice → Except Fault Bytes
  | extended code subcode data =>
    if dataLimit < data.length then .error (.errorDataLength data.length)
    else .ok (wordBytes 1 (extendedBit + code.number) ++ wordBytes 1 subcode.number ++
      wordBytes 2 0 ++ data)
  | legacy code data => .ok (wordBytes 2 0 ++ wordBytes 2 code.number ++ data)

def ofExtended (first : Nat) (rest : Bytes) : Except Fault ErrorNotice := do
  match ErrorCode.ofNumber? (first - extendedBit) with
  | none => throw .errorCode
  | some code =>
    let (subcode, rest) ← readWord 1 rest
    match ErrorSubcode.ofNumber? subcode with
    | none => throw .errorSubcode
    | some subcode =>
      let (_, data) ← readBytes 2 rest
      extended? code subcode data

def ofLegacy (bs : Bytes) : Except Fault ErrorNotice := do
  let (code, data) ← readWord 4 bs
  if 65535 < code then throw .parse
  match LegacyErrorCode.ofNumber? code with
  | none => throw .legacyErrorCode
  | some code => return legacy code data

def ofBytes (bs : Bytes) : Except Fault ErrorNotice := do
  let (first, rest) ← readWord 1 bs
  if extendedBit ≤ first then ofExtended first rest else ofLegacy bs

end ErrorNotice

namespace Version

def ofWord (n : Nat) : Except Fault Version :=
  match ofNumber? n with
  | some v => .ok v
  | none => .error (.unsupportedVersion n)

/-- The version at the front of an opening. -/
def ofPayload (bs : Bytes) : Except Fault Version := do
  let (n, _) ← readWord 4 bs
  ofWord n

end Version

def Mode.ofWord (n : Nat) : Except Fault Mode :=
  match Mode.ofNumber? n with
  | some m => .ok m
  | none => .error (.unknownMode n)

namespace Opening

def bytes (o : Opening) : Except Fault Bytes := do
  let attributes ← if o.version.isLegacy then pure [] else Attribute.listBytes o.attributes
  return wordBytes 4 o.version.number ++ wordBytes 4 o.mode.number ++ attributes

/-- The part that every version has. -/
def readFixed (bs : Bytes) : Except Fault ((Version × Mode) × Bytes) := do
  let (version, bs) ← readWord 4 bs
  let (mode, rest) ← readWord 4 bs
  let version ← Version.ofWord version
  return ((version, ← Mode.ofWord mode), rest)

def ofBytes (bs : Bytes) : Except Fault Opening := do
  let ((version, mode), rest) ← readFixed bs
  return ⟨version, mode, ← Attribute.ofBytes rest⟩

/-- What follows the fixed part of a legacy opening is not looked at. -/
def ofLegacyBytes (bs : Bytes) : Except Fault Opening := do
  let ((version, mode), _) ← readFixed bs
  return ⟨version, mode, []⟩

/-- An opening in the form of the version it gives. -/
def ofPayload (bs : Bytes) : Except Fault Opening := do
  let version ← Version.ofPayload bs
  if version.isLegacy then ofLegacyBytes bs else ofBytes bs

end Opening

namespace Message

def payload : Message → Except Fault Bytes
  | opening o | reply o => o.bytes
  | update attributes => Attribute.listBytes attributes
  | legacyUpdate version records => .ok (records.flatMap (MappingRecord.bytes version))
  | error notice => notice.bytes
  | purgeAll | keepalive => .ok []

def frame (m : Message) : Except Fault Bytes := do
  TagExchange.frame m.type (← m.payload)

def ofPayload (version : Version) (type : MessageType) (bs : Bytes) : Except Fault Message :=
  match type with
  | .opening => (Opening.ofPayload bs).map opening
  | .reply => (Opening.ofPayload bs).map reply
  | .update =>
    if version.isLegacy then (MappingRecord.reader.readAll bs).map (legacyUpdate version)
    else (Attribute.ofBytes bs).map update
  | .error => (ErrorNotice.ofBytes bs).map error
  | .purgeAll => .ok purgeAll
  | .keepalive =>
    if version.isLegacy then .error (.unknownMessageType MessageType.keepalive.code)
    else .ok keepalive

/-- The message of a byte string that is exactly one frame, under the version in force. -/
def ofFrame (version : Version) (bs : Bytes) : Except Fault Message := do
  let header ← Header.ofFrame bs
  ofPayload version header.type (bs.drop headerSize)

end Message

/-- Cuts a stream into frames as long as whole ones are there, and gives back what is left. A wrong
length ends the stream. -/
def cutFrames (bs : Bytes) : List Bytes × Option Fault × Bytes :=
  match frameLength bs with
  | .error f => ([], some f, bs)
  | .ok none => ([], none, bs)
  | .ok (some n) =>
    if _h : 0 < n ∧ n ≤ bs.length then
      let (frames, fault, rest) := cutFrames (bs.drop n)
      (bs.take n :: frames, fault, rest)
    else ([], none, bs)
termination_by bs.length
decreasing_by
  simp only [List.length_drop]
  omega

end TagExchange
