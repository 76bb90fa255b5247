/-!
# Attribute kinds

The attributes that have a name. Those that carry no value of a known form are read as raw
bytes.
-/

namespace TagExchange

inductive AttributeKind where
  | addIpv4
  | addIpv6
  | delIpv4
  | delIpv6
  | nodeId
  | capabilities
  | holdTime
  | ipv4Add
  | ipv6Add
  | ipv4Delete
  | ipv6Delete
  | peerSequence
  | sourceGroupTag
  | ipv4AddTable
  | ipv6AddTable
  deriving DecidableEq, Repr

namespace AttributeKind

def code : AttributeKind → Nat
  | addIpv4 => 1
  | addIpv6 => 2
  | delIpv4 => 3
  | delIpv6 => 4
  | nodeId => 5
  | capabilities => 6
  | holdTime => 7
  | ipv4Add => 11
  | ipv6Add => 12
  | ipv4Delete => 13
  | ipv6Delete => 14
  | peerSequence => 16
  | sourceGroupTag => 17
  | ipv4AddTable => 18
  | ipv6AddTable => 19

def ofCode? : Nat → Option AttributeKind
  | 1 => some addIpv4
  | 2 => some addIpv6
  | 3 => some delIpv4
  | 4 => some delIpv6
  | 5 => some nodeId
  | 6 => some capabilities
  | 7 => some holdTime
  | 11 => some ipv4Add
  | 12 => some ipv6Add
  | 13 => some ipv4Delete
  | 14 => some ipv6Delete
  | 16 => some peerSequence
  | 17 => some sourceGroupTag
  | 18 => some ipv4AddTable
  | 19 => some ipv6AddTable
  | _ => none

@[simp] theorem ofCode?_code (k : AttributeKind) : ofCode? k.code = some k := by
  cases k <;> rfl

def name : AttributeKind → String
  | addIpv4 => "AddIpv4"
  | addIpv6 => "AddIpv6"
  | delIpv4 => "DelIpv4"
  | delIpv6 => "DelIpv6"
  | nodeId => "SxpNodeId"
  | capabilities => "Capabilities"
  | holdTime => "HoldTime"
  | ipv4Add => "Ipv4AddPrefix"
  | ipv6Add => "Ipv6AddPrefix"
  | ipv4Delete => "Ipv4DeletePrefix"
  | ipv6Delete => "Ipv6DeletePrefix"
  | peerSequence => "PeerSequence"
  | sourceGroupTag => "SourceGroupTag"
  | ipv4AddTable => "Ipv4AddTable"
  | ipv6AddTable => "Ipv6AddTable"

end AttributeKind

end TagExchange
