import TagExchange.Bytes

/-!
# Error notices

What a node tells its peer before it closes a connection. The extended form, of version 4, has a
code, a subcode and up to ten bytes of data; the legacy form has a code of its own.
-/

namespace TagExchange

inductive ErrorCode where
  | messageHeader
  | openMessage
  | updateMessage
  deriving DecidableEq, Repr

namespace ErrorCode

def number : ErrorCode → Nat
  | messageHeader => 1
  | openMessage => 2
  | updateMessage => 3

def ofNumber? : Nat → Option ErrorCode
  | 1 => some messageHeader
  | 2 => some openMessage
  | 3 => some updateMessage
  | _ => none

@[simp] theorem ofNumber?_number (c : ErrorCode) : ofNumber? c.number = some c := by
  cases c <;> rfl

def name : ErrorCode → String
  | messageHeader => "MessageHeaderError"
  | openMessage => "OpenMessageError"
  | updateMessage => "UpdateMessageError"

end ErrorCode

inductive ErrorSubcode where
  | unspecified
  | malformedAttributeList
  | unexpectedAttribute
  | missingWellKnownAttribute
  | attributeFlags
  | attributeLength
  | malformedAttribute
  | optionalAttribute
  | unsupportedVersionNumber
  | unsupportedOptionalAttribute
  | unacceptableHoldTime
  deriving DecidableEq, Repr

namespace ErrorSubcode

def number : ErrorSubcode → Nat
  | unspecified => 0
  | malformedAttributeList => 1
  | unexpectedAttribute => 2
  | missingWellKnownAttribute => 3
  | attributeFlags => 4
  | attributeLength => 5
  | malformedAttribute => 6
  | optionalAttribute => 7
  | unsupportedVersionNumber => 8
  | unsupportedOptionalAttribute => 9
  | unacceptableHoldTime => 10

def ofNumber? : Nat → Option ErrorSubcode
  | 0 => some unspecified
  | 1 => some malformedAttributeList
  | 2 => some unexpectedAttribute
  | 3 => some missingWellKnownAttribute
  | 4 => some attributeFlags
  | 5 => some attributeLength
  | 6 => some malformedAttribute
  | 7 => some optionalAttribute
  | 8 => some unsupportedVersionNumber
  | 9 => some unsupportedOptionalAttribute
  | 10 => some unacceptableHoldTime
  | _ => none

@[simp] theorem ofNumber?_number (c : ErrorSubcode) : ofNumber? c.number = some c := by
  cases c <;> rfl

def name : ErrorSubcode → String
  | unspecified => "Unspecified"
  | malformedAttributeList => "MalformedAttributeList"
  | unexpectedAttribute => "UnexpectedAttribute"
  | missingWellKnownAttribute => "MissingWellKnownAttribute"
  | attributeFlags => "AttributeFlagsError"
  | attributeLength => "AttributeLengthError"
  | malformedAttribute => "MalformedAttribute"
  | optionalAttribute => "OptionalAttributeError"
  | unsupportedVersionNumber => "UnsupportedVersionNumber"
  | unsupportedOptionalAttribute => "UnsupportedOptionalAttribute"
  | unacceptableHoldTime => "UnacceptableHoldTime"

end ErrorSubcode

inductive LegacyErrorCode where
  | versionMismatch
  | messageParse
  deriving DecidableEq, Repr

namespace LegacyErrorCode

def number : LegacyErrorCode → Nat
  | versionMismatch => 1
  | messageParse => 2

def ofNumber? : Nat → Option LegacyErrorCode
  | 1 => some versionMismatch
  | 2 => some messageParse
  | _ => none

@[simp] theorem ofNumber?_number (c : LegacyErrorCode) : ofNumber? c.number = some c := by
  cases c <;> rfl

def name : LegacyErrorCode → String
  | versionMismatch => "VersionMismatch"
  | messageParse => "MessageParseError"

end LegacyErrorCode

inductive ErrorNotice where
  | extended (code : ErrorCode) (subcode : ErrorSubcode) (data : Bytes)
  | legacy (code : LegacyErrorCode) (data : Bytes)
  deriving DecidableEq, Repr

namespace ErrorNotice

/-- The most bytes of data in an extended notice. -/
def dataLimit : Nat := 10

def dataText (data : Bytes) : String :=
  "[" ++ ", ".intercalate (data.map fun b => toString b.toNat) ++ "]"

def text : ErrorNotice → String
  | extended code subcode data => s!"{code.name} | {subcode.name} {dataText data}"
  | legacy code data => s!"{code.name} {dataText data}"

end ErrorNotice

end TagExchange
