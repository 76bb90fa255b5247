import TagExchange.Network.Text
import TagExchange.Tag
import TagExchange.Wire

/-!
# Mapping records

Updates of versions 1 to 3 are lists of mapping records. A record gives a type, the size of its
body, an address and then parts of their own type and size: a tag, a length of the network, or
anything else, which is skipped. Without a length part the record is about a single address. Only
version 3 writes the length part, and only for networks with open bits.
-/

namespace TagExchange

inductive MappingType where
  | addIpv4
  | addIpv6
  | delIpv4
  | delIpv6
  deriving DecidableEq, Repr

namespace MappingType

def code : MappingType → Nat
  | addIpv4 => 1
  | addIpv6 => 2
  | delIpv4 => 3
  | delIpv6 => 4

def ofCode? : Nat → Option MappingType
  | 1 => some addIpv4
  | 2 => some addIpv6
  | 3 => some delIpv4
  | 4 => some delIpv6
  | _ => none

@[simp] theorem ofCode?_code (t : MappingType) : ofCode? t.code = some t := by
  cases t <;> rfl

def name : MappingType → String
  | addIpv4 => "AddIpv4"
  | addIpv6 => "AddIpv6"
  | delIpv4 => "DelIpv4"
  | delIpv6 => "DelIpv6"

def isAdd : MappingType → Bool
  | addIpv4 | addIpv6 => true
  | delIpv4 | delIpv6 => false

/-- The width of the addresses in records of a type. -/
def width : MappingType → Nat
  | addIpv4 | delIpv4 => 32
  | addIpv6 | delIpv6 => 128

def adding : Network → MappingType
  | .v4 _ => addIpv4
  | .v6 _ => addIpv6

def deleting : Network → MappingType
  | .v4 _ => delIpv4
  | .v6 _ => delIpv6

/-- The address in a body of a type. -/
def address (t : MappingType) (bs : Bytes) : Address :=
  match t with
  | addIpv4 | delIpv4 => .v4 (ofOctets 32 bs)
  | addIpv6 | delIpv6 => .v6 (ofOctets 128 bs)

end MappingType

/-- A part of a mapping record. -/
inductive MappingPart where
  | tag (tag : Tag)
  | length (bits : Nat)
  | other
  deriving DecidableEq, Repr

namespace MappingPart

def tagCode : Nat := 1
def lengthCode : Nat := 2

def bytesOf (code : Nat) (value : Bytes) : Bytes :=
  wordBytes 4 code ++ wordBytes 4 value.length ++ value

/-- The value may be longer than the part needs; the rest of it is not looked at. -/
def ofValue (code : Nat) (value : Bytes) : Except Fault MappingPart := do
  if code = tagCode then
    let (v, _) ← readWord 2 value
    return tag (← Tag.of? v)
  else if code = lengthCode then
    let (v, _) ← readWord 1 value
    return length v
  else return other

def read (bs : Bytes) : Except Fault (MappingPart × Bytes) := do
  let (code, bs) ← readWord 4 bs
  let (size, bs) ← readWord 4 bs
  let (value, rest) ← readBytes size bs
  return (← ofValue code value, rest)

theorem delimits_read : Delimits 4 read :=
  (delimits_readWord 4).bind fun _ => (delimits_readWord 4).bind fun size =>
    (delimits_readBytes size).bind fun _ => delimits_return

theorem read_shorter {bs rest : Bytes} {p : MappingPart} (h : read bs = .ok (p, rest)) :
    rest.length < bs.length :=
  delimits_read.shorter (by decide) h

def reader : ItemReader MappingPart := ⟨read, read_shorter⟩

/-- What the parts read so far say: the tag, and the length, which a further part can only
lower. -/
structure Summary where
  tag : Option Tag := none
  bits : Nat

def Summary.add (s : Summary) : MappingPart → Except Fault Summary
  | .tag t => .ok { s with tag := some t }
  | .length bits =>
    if s.bits < bits then .error (.addressLength bits s.bits) else .ok { s with bits }
  | .other => .ok s

end MappingPart

structure MappingRecord where
  type : MappingType
  net : Network
  tag : Option Tag
  deriving DecidableEq, Repr

namespace MappingRecord

def tagPart : Option Tag → Bytes
  | none => []
  | some t => MappingPart.bytesOf MappingPart.tagCode (wordBytes 2 t.value.toNat)

def lengthPart (v : Version) (net : Network) : Bytes :=
  if v = .v3 ∧ ¬net.isHost then MappingPart.bytesOf MappingPart.lengthCode [net.length] else []

def bytes (v : Version) (r : MappingRecord) : Bytes :=
  let body := r.net.addr.octets ++ tagPart r.tag ++ lengthPart v r.net
  wordBytes 4 r.type.code ++ wordBytes 4 body.length ++ body

/-- The record of a body; a record that adds must carry a tag. -/
def ofBody (type : MappingType) (body : Bytes) : Except Fault MappingRecord := do
  if body.length < type.width / 8 then throw (.recordCut body.length)
  let (front, parts) ← readBytes (type.width / 8) body
  let address := type.address front
  let s ← MappingPart.reader.foldAll MappingPart.Summary.add { bits := type.width } parts
  if type.isAdd ∧ s.tag = none then throw (.recordTagMissing address)
  return ⟨type, .of address (UInt8.ofNat s.bits), s.tag⟩

def read (bs : Bytes) : Except Fault (MappingRecord × Bytes) := do
  let (code, bs) ← readWord 4 bs
  match MappingType.ofCode? code with
  | none => throw .mappingType
  | some type =>
    let (size, bs) ← readWord 4 bs
    let (body, rest) ← readBytes size bs
    return (← ofBody type body, rest)

theorem delimits_read : Delimits 4 read := by
  refine (delimits_readWord 4).bind (j := fun _ => 4) fun code => ?_
  dsimp only
  cases MappingType.ofCode? code with
  | none => exact delimits_error
  | some type =>
    exact (delimits_readWord 4).bind fun size => (delimits_readBytes size).bind fun body =>
      delimits_return (v := ofBody type body) (f := id)

theorem read_shorter {bs rest : Bytes} {r : MappingRecord} (h : read bs = .ok (r, rest)) :
    rest.length < bs.length :=
  delimits_read.shorter (by decide) h

def reader : ItemReader MappingRecord := ⟨read, read_shorter⟩

def text (r : MappingRecord) : String :=
  let tag := match r.tag with
    | some t => " " ++ t.text
    | none => ""
  s!"[{r.type.name} {r.net.text}{tag}]"

end MappingRecord

end TagExchange
