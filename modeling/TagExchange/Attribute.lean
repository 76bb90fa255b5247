import TagExchange.HoldTime
import TagExchange.Network.Text
import TagExchange.Tag

/-!
# Attributes

Open and update messages of version 4 are made of attributes: a byte of flags and a value. The
extended length flag belongs to the written form, so an attribute never has it set when it is made
by `Attribute.of`.
-/

namespace TagExchange

namespace Flags

def optional : UInt8 := 0x80
def nonTransitive : UInt8 := 0x40
def partialUse : UInt8 := 0x20
def compact : UInt8 := 0x10
def extended : UInt8 := 0x08

/-- For attributes that every node understands. -/
def wellKnown : UInt8 := nonTransitive ||| compact

/-- For networks announced to a peer that did not say it takes their family. -/
def optionalCompact : UInt8 := optional ||| compact

def has (flags bit : UInt8) : Bool := flags &&& bit != 0

end Flags

inductive AttributeValue where
  | nodeId (id : NodeId)
  | capabilities (list : List Capability)
  | holdTime (range : HoldTime)
  | announce4 (nets : List (Net 32))
  | announce6 (nets : List (Net 128))
  | withdraw4 (nets : List (Net 32))
  | withdraw6 (nets : List (Net 128))
  | path (ids : List NodeId)
  | tag (tag : Tag)
  /-- A value of any other type, kept as it is. -/
  | raw (code : Nat) (bytes : Bytes)
  deriving DecidableEq, Repr

namespace AttributeValue

def code : AttributeValue → Nat
  | nodeId _ => AttributeKind.nodeId.code
  | capabilities _ => AttributeKind.capabilities.code
  | holdTime _ => AttributeKind.holdTime.code
  | announce4 _ => AttributeKind.ipv4Add.code
  | announce6 _ => AttributeKind.ipv6Add.code
  | withdraw4 _ => AttributeKind.ipv4Delete.code
  | withdraw6 _ => AttributeKind.ipv6Delete.code
  | path _ => AttributeKind.peerSequence.code
  | tag _ => AttributeKind.sourceGroupTag.code
  | raw code _ => code

def words (items : List String) : String := " ".intercalate items

def text : AttributeValue → String
  | nodeId id => s!"node-id {id.text}"
  | capabilities list => "capabilities [" ++ ", ".intercalate (list.map Capability.name) ++ "]"
  | holdTime range => s!"hold-time {range.text}"
  | announce4 nets => "add4 " ++ words (nets.map Net.text4)
  | announce6 nets => "add6 " ++ words (nets.map Net.text6)
  | withdraw4 nets => "del4 " ++ words (nets.map Net.text4)
  | withdraw6 nets => "del6 " ++ words (nets.map Net.text6)
  | path ids => "peers " ++ words (ids.map Addr4.text)
  | tag t => s!"sgt {t.text}"
  | raw code bytes => s!"type {code} ({bytes.length} bytes)"

end AttributeValue

structure Attribute where
  flags : UInt8
  value : AttributeValue
  deriving DecidableEq, Repr

namespace Attribute

def of (flags : UInt8) (value : AttributeValue) : Attribute := ⟨flags &&& ~~~Flags.extended, value⟩

def wellKnown (value : AttributeValue) : Attribute := of Flags.wellKnown value

/-- The value of the first attribute of a kind. -/
def find (attrs : List Attribute) (kind : AttributeKind) : Except Fault AttributeValue :=
  match attrs.find? fun a => a.value.code == kind.code with
  | some a => .ok a.value
  | none => .error (.attributeMissing kind)

end Attribute

end TagExchange
