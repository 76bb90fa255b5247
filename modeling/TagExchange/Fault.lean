import TagExchange.Address.Text
import TagExchange.Attribute.Kind
import TagExchange.ErrorNotice
import TagExchange.Store
import TagExchange.Version

/-!
# Faults

Everything that can go wrong between two nodes, as a cause with its data. Causes fall into kinds,
and the kind alone decides what, if anything, the peer is told about a fault (`notice?`). The
wording of every cause is in `message`.
-/

namespace TagExchange

/-- The kinds of fault. -/
inductive FaultKind where
  | framing
  | tooLarge
  | unknownMessageType
  | unsupportedVersion
  | unknownMode
  | addressLength
  | attributeLength
  | attributeNotFound
  | attributeVariant
  | capabilityLength
  | tlvNotFound
  | holdTimeMin
  | holdTimeMax
  | tagRange
  | errorDataLength
  | messageType
  | capabilityCode
  | errorCode
  | errorSubcode
  | legacyErrorCode
  | mappingType
  | parse
  | modeMismatch
  | updatePhase
  | peerError
  | unacceptableHoldTime
  | noInterfaces
  | store
  | channelSend
  deriving DecidableEq, Repr

/-- The kinds of fault that carry a description. -/
inductive Topic where
  | framing
  | tooLarge
  | attributeLength
  | attributeNotFound
  | attributeVariant
  | tlvNotFound
  | unacceptableHoldTime
  | channelSend
  deriving DecidableEq, Repr

namespace Topic

def kind : Topic → FaultKind
  | framing => .framing
  | tooLarge => .tooLarge
  | attributeLength => .attributeLength
  | attributeNotFound => .attributeNotFound
  | attributeVariant => .attributeVariant
  | tlvNotFound => .tlvNotFound
  | unacceptableHoldTime => .unacceptableHoldTime
  | channelSend => .channelSend

def heading : Topic → String
  | framing => "framing"
  | tooLarge => "too large"
  | attributeLength => "attribute length"
  | attributeNotFound => "attribute not found"
  | attributeVariant => "attribute variant"
  | tlvNotFound => "tlv not found"
  | unacceptableHoldTime => "unacceptable hold time"
  | channelSend => "channel send"

end Topic

inductive Fault where
  /-- A message would be shorter than its header. -/
  | belowHeader (size : Nat)
  /-- A header declares more than a message may hold. -/
  | declaredBeyondLimit (declared : Nat)
  /-- A header declares less than itself. -/
  | declaredBelowHeader (declared : Nat)
  /-- The bytes end before the header does. -/
  | headerCut (size : Nat)
  | sizeMismatch (declared size : Nat)
  | messageTooLarge (size : Nat)
  | attributeTooLarge (size : Nat)
  | unknownMessageType (code : Nat)
  | unsupportedVersion (number : Nat)
  | unknownMode (number : Nat)
  | addressLength (length top : Nat)
  | nodeIdSize (size : Nat)
  | holdTimeSize (size : Nat)
  | peerSequenceSize (size : Nat)
  | tagSize (size : Nat)
  /-- The bytes end before the value of an attribute does. -/
  | attributeCut (code declared size : Nat)
  /-- A mapping record is too short for its address. -/
  | recordCut (size : Nat)
  | attributeMissing (kind : AttributeKind)
  | capabilitiesMissing
  /-- Networks are announced before any peer sequence. -/
  | peerSequenceMissing
  /-- Networks are announced before any tag. -/
  | tagMissing
  | codeNotCompact (code : Nat)
  | codeTooWide (code : Nat)
  | capabilityLength (code : Nat)
  /-- A mapping record adds an address without a tag. -/
  | recordTagMissing (address : Address)
  | holdTimeMin (min : Nat)
  | holdTimeMax (min max : Nat)
  | tagRange (value : Nat)
  | errorDataLength (size : Nat)
  | messageTypeCode
  | capabilityCode
  | errorCode
  | errorSubcode
  | legacyErrorCode
  | mappingType
  /-- The bytes end too early, or a reserved field is set. -/
  | parse
  | modeMismatch (here there : Mode)
  | updatePhase (phase : Phase)
  /-- The peer sent an error notice. -/
  | peerError (notice : ErrorNotice)
  /-- This node accepts no hold time as short as the peer's longest. -/
  | acceptableAboveMaximum (acceptable max : Nat)
  /-- The peer accepts no hold time as short as this node's longest. -/
  | minimumAboveMaximum (min max : Nat)
  | noInterfaces
  | store (cause : StoreError)
  | channelClosed
  /-- The channel takes no more frames. -/
  | channelFull
  /-- The other end of the channel is gone. -/
  | channelAbandoned
  /-- A fault known by its description alone. -/
  | described (topic : Topic) (text : String)
  deriving DecidableEq, Repr

namespace Fault

def kind : Fault → FaultKind
  | belowHeader _ | declaredBeyondLimit _ | declaredBelowHeader _ | headerCut _
  | sizeMismatch _ _ => .framing
  | messageTooLarge _ | attributeTooLarge _ => .tooLarge
  | unknownMessageType _ => .unknownMessageType
  | unsupportedVersion _ => .unsupportedVersion
  | unknownMode _ => .unknownMode
  | addressLength _ _ => .addressLength
  | nodeIdSize _ | holdTimeSize _ | peerSequenceSize _ | tagSize _ | attributeCut _ _ _
  | recordCut _ => .attributeLength
  | attributeMissing _ | capabilitiesMissing | peerSequenceMissing | tagMissing =>
    .attributeNotFound
  | codeNotCompact _ | codeTooWide _ => .attributeVariant
  | capabilityLength _ => .capabilityLength
  | recordTagMissing _ => .tlvNotFound
  | holdTimeMin _ => .holdTimeMin
  | holdTimeMax _ _ => .holdTimeMax
  | tagRange _ => .tagRange
  | errorDataLength _ => .errorDataLength
  | messageTypeCode => .messageType
  | capabilityCode => .capabilityCode
  | errorCode => .errorCode
  | errorSubcode => .errorSubcode
  | legacyErrorCode => .legacyErrorCode
  | mappingType => .mappingType
  | parse => .parse
  | modeMismatch _ _ => .modeMismatch
  | updatePhase _ => .updatePhase
  | peerError _ => .peerError
  | acceptableAboveMaximum _ _ | minimumAboveMaximum _ _ => .unacceptableHoldTime
  | noInterfaces => .noInterfaces
  | store _ => .store
  | channelClosed | channelFull | channelAbandoned => .channelSend
  | described topic _ => topic.kind

/-- A description under its heading. -/
def under (topic : Topic) (text : String) : String := topic.heading ++ ": " ++ text

def message : Fault → String
  | belowHeader n => under .framing s!"length {n} below header"
  | declaredBeyondLimit n => under .framing s!"declared length {n} exceeds 4096"
  | declaredBelowHeader n => under .framing s!"declared length {n}"
  | headerCut n => under .framing s!"{n} bytes is not a header"
  | sizeMismatch l n => under .framing s!"declared length {l} but {n} bytes present"
  | messageTooLarge n => under .tooLarge s!"message of {n} bytes"
  | attributeTooLarge n => under .tooLarge s!"attribute of {n} bytes"
  | unknownMessageType t => s!"unknown message type {t}"
  | unsupportedVersion v => s!"unsupported version {v}"
  | unknownMode m => s!"unknown connection mode {m}"
  | addressLength l top => s!"address length {l} exceeds {top}"
  | nodeIdSize n => under .attributeLength s!"node id of {n} bytes"
  | holdTimeSize n => under .attributeLength s!"hold time of {n} bytes"
  | peerSequenceSize n => under .attributeLength s!"peer sequence of {n} bytes"
  | tagSize n => under .attributeLength s!"sgt of {n} bytes"
  | attributeCut t l n =>
    under .attributeLength s!"attribute {t} declares {l} bytes, {n} remain"
  | recordCut n => under .attributeLength s!"mapping record of {n} bytes"
  | attributeMissing k => under .attributeNotFound k.name
  | capabilitiesMissing => under .attributeNotFound "capabilities"
  | peerSequenceMissing => under .attributeNotFound "peer sequence"
  | tagMissing => under .attributeNotFound "source group tag"
  | codeNotCompact t => under .attributeVariant s!"type {t} does not fit a compact attribute"
  | codeTooWide t => under .attributeVariant s!"type {t} does not fit 24 bits"
  | capabilityLength c => s!"capability {c} has a non-zero length"
  | recordTagMissing a => under .tlvNotFound s!"sgt for {a.text}"
  | holdTimeMin m => s!"hold time min {m} out of range"
  | holdTimeMax min max => s!"hold time max {max} out of range for min {min}"
  | tagRange v => s!"security group tag {v} out of range"
  | errorDataLength n => s!"error data is {n} bytes, at most 10 allowed"
  | messageTypeCode => "message type error"
  | capabilityCode => "capability code error"
  | errorCode => "error code"
  | errorSubcode => "error subcode"
  | legacyErrorCode => "legacy error code"
  | mappingType => "legacy mapping type error"
  | parse => "message parse error"
  | modeMismatch here there =>
    s!"connection modes {here.text} and {there.text} are not complementary"
  | updatePhase p => s!"update received in state {p.text}"
  | peerError n => s!"peer sent error: {n.text}"
  | acceptableAboveMaximum a m => under .unacceptableHoldTime s!"{a} above peer maximum {m}"
  | minimumAboveMaximum a m => under .unacceptableHoldTime s!"peer minimum {a} above {m}"
  | noInterfaces => "no network interfaces"
  | store cause => s!"datastore error: {cause.message}"
  | channelClosed => under .channelSend "channel closed"
  | channelFull => under .channelSend "channel full"
  | channelAbandoned => under .channelSend "sending on a closed channel"
  | described topic text => under topic text

end Fault

namespace FaultKind

/-- The code and subcode that a peer is told, unless the fault is a local one. -/
def code? : FaultKind → Option (ErrorCode × ErrorSubcode)
  | framing | tooLarge | unknownMessageType | messageType => some (.messageHeader, .unspecified)
  | unsupportedVersion => some (.openMessage, .unsupportedVersionNumber)
  | unknownMode | modeMismatch => some (.openMessage, .unspecified)
  | unacceptableHoldTime => some (.openMessage, .unacceptableHoldTime)
  | holdTimeMin | holdTimeMax => some (.openMessage, .malformedAttribute)
  | attributeLength | capabilityLength => some (.updateMessage, .attributeLength)
  | attributeNotFound => some (.updateMessage, .missingWellKnownAttribute)
  | attributeVariant => some (.updateMessage, .attributeFlags)
  | addressLength | tagRange | capabilityCode => some (.updateMessage, .malformedAttribute)
  | tlvNotFound | mappingType | errorCode | errorSubcode | legacyErrorCode | parse =>
    some (.updateMessage, .malformedAttributeList)
  | updatePhase => some (.updateMessage, .unspecified)
  | errorDataLength | peerError | noInterfaces | store | channelSend => none

end FaultKind

/-- What a peer of the given version is told about a fault; nothing about local faults. -/
def Fault.notice? (f : Fault) (v : Version) : Option ErrorNotice :=
  match f.kind.code? with
  | none => none
  | some (code, subcode) =>
    if !v.isLegacy then some (.extended code subcode [])
    else if f.kind = .unsupportedVersion then some (.legacy .versionMismatch [])
    else some (.legacy .messageParse [])

end TagExchange
