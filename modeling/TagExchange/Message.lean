import TagExchange.Attribute
import TagExchange.Frame
import TagExchange.Mapping

/-!
# Messages

A connection starts with an opening and the reply to it. After that a speaker sends updates, in
the form of its version. Error notices end a connection, and a listener told to purge forgets
what it learned from the peer.
-/

namespace TagExchange

/-- What a node says when a connection opens. Only version 4 has attributes. -/
structure Opening where
  version : Version
  mode : Mode
  attributes : List Attribute
  deriving DecidableEq, Repr

namespace Opening

/-- A speaker gives its node id, a listener its capabilities, either its hold time. -/
def of (version : Version) (mode : Mode) (id : NodeId) (holdTime : Option HoldTime) : Opening :=
  let attributes : List Attribute :=
    if version.isLegacy then []
    else
      (if mode.isSpeaker then [.wellKnown (.nodeId id)] else []) ++
      (if mode.isListener then [.wellKnown (.capabilities (Capability.ofVersion version))]
        else []) ++
      holdTime.toList.map fun h => .wellKnown (.holdTime h)
  ⟨version, mode, attributes⟩

def nodeId? (o : Opening) : Option NodeId :=
  match Attribute.find o.attributes .nodeId with
  | .ok (.nodeId id) => some id
  | _ => none

def holdTime? (o : Opening) : Option HoldTime :=
  match Attribute.find o.attributes .holdTime with
  | .ok (.holdTime h) => some h
  | _ => none

/-- The capabilities listed in the attributes. -/
def declared (o : Opening) : Except Fault (List Capability) :=
  match Attribute.find o.attributes .capabilities with
  | .ok (.capabilities list) => .ok list
  | .ok _ => .error .capabilitiesMissing
  | .error f => .error f

/-- The capabilities of the sender; a legacy sender has those of its version. -/
def capabilities (o : Opening) : Except Fault (List Capability) :=
  if o.version.isLegacy then .ok (Capability.ofVersion o.version) else o.declared

def text (o : Opening) : String :=
  " ".intercalate
    (s!"v{o.version.text} {o.mode.text}" :: o.attributes.map fun a => s!"[{a.value.text}]")

end Opening

inductive Message where
  | opening (o : Opening)
  | reply (o : Opening)
  | update (attributes : List Attribute)
  | legacyUpdate (version : Version) (records : List MappingRecord)
  | error (notice : ErrorNotice)
  | purgeAll
  | keepalive
  deriving DecidableEq, Repr

namespace Message

def type : Message → MessageType
  | opening _ => .opening
  | reply _ => .reply
  | update _ => .update
  | legacyUpdate _ _ => .update
  | error _ => .error
  | purgeAll => .purgeAll
  | keepalive => .keepalive

def updateText (attributes : List Attribute) : String :=
  " ".intercalate (attributes.map fun a => s!"[{a.value.text}]")

def legacyText (version : Version) (records : List MappingRecord) : String :=
  " ".intercalate (s!"v{version.text}" :: records.map MappingRecord.text)

def text (m : Message) : String :=
  match m with
  | opening o | reply o => s!"{m.type.text} {o.text}"
  | update attributes => s!"{m.type.text} {updateText attributes}"
  | legacyUpdate version records => s!"{m.type.text} {legacyText version records}"
  | error notice => s!"{m.type.text} {notice.text}"
  | purgeAll | keepalive => m.type.text

end Message

end TagExchange
