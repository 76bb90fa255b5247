import TagExchange.Attribute
import TagExchange.Wire

/-!
# The wire form of attributes

An attribute is written in one of three layouts. Without the compact flag the type takes three
bytes and the length four. With it the type takes one byte, and the length one byte up to 255 and
two beyond, which the extended length flag announces. Networks are written as a length and as many
octets as the length covers; octets left out are zero.
-/

namespace TagExchange

/-- The octets that a length of so many bits covers. -/
def octetsFor (bits : Nat) : Nat := (bits + 7) / 8

namespace Net

variable {w : Nat}

def bytes (n : Net w) : Bytes :=
  let bits := min n.length.toNat w
  UInt8.ofNat bits :: (octets n.addr).take (octetsFor bits)

def read (w : Nat) (bs : Bytes) : Except Fault (Net w × Bytes) := do
  let (bits, bs) ← readWord 1 bs
  if w < bits then throw (.addressLength bits w)
  let (part, rest) ← readBytes (octetsFor bits) bs
  let gap := List.replicate (w / 8 - part.length) 0
  return (.of (ofOctets w (part ++ gap)) (UInt8.ofNat bits), rest)

theorem delimits_read (w : Nat) : Delimits 1 (read w) :=
  (delimits_readWord 1).bind fun _ => delimits_error.ite <|
    (delimits_readBytes _).bind fun _ => delimits_pure

theorem read_shorter {bs rest : Bytes} {n : Net w} (h : read w bs = .ok (n, rest)) :
    rest.length < bs.length :=
  (delimits_read w).shorter Nat.one_pos h

def reader (w : Nat) : ItemReader (Net w) := ⟨read w, read_shorter⟩

end Net

namespace Capability

/-- A capability is its code and a length of zero. -/
def bytes (c : Capability) : Bytes := [UInt8.ofNat c.code, 0]

def read (bs : Bytes) : Except Fault (Capability × Bytes) := do
  let (code, bs) ← readWord 1 bs
  let (length, rest) ← readWord 1 bs
  match ofCode? code with
  | none => throw .capabilityCode
  | some c => if length = 0 then return (c, rest) else throw (.capabilityLength code)

theorem delimits_read : Delimits 1 read := by
  refine (delimits_readWord 1).bind fun code => (delimits_readWord 1).bind (j := fun _ => 0) ?_
  intro length
  cases ofCode? code with
  | none => exact delimits_error
  | some c => exact delimits_pure.ite delimits_error

theorem read_shorter {bs rest : Bytes} {c : Capability} (h : read bs = .ok (c, rest)) :
    rest.length < bs.length :=
  delimits_read.shorter Nat.one_pos h

def reader : ItemReader Capability := ⟨read, read_shorter⟩

end Capability

/-- The node ids in a byte string, four bytes each; what is left over is not read. -/
def nodeIds : Bytes → List NodeId
  | a :: b :: c :: d :: rest => ofOctets 32 [a, b, c, d] :: nodeIds rest
  | _ => []

namespace AttributeValue

def bytes : AttributeValue → Bytes
  | nodeId id => octets id
  | capabilities list => list.flatMap Capability.bytes
  | holdTime range => range.bytes
  | announce4 nets => nets.flatMap Net.bytes
  | announce6 nets => nets.flatMap Net.bytes
  | withdraw4 nets => nets.flatMap Net.bytes
  | withdraw6 nets => nets.flatMap Net.bytes
  | path ids => ids.flatMap octets
  | tag t => wordBytes 2 t.value.toNat
  | raw _ bytes => bytes

def ofBytes (code : Nat) (bs : Bytes) : Except Fault AttributeValue :=
  match AttributeKind.ofCode? code with
  | some .nodeId =>
    if bs.length = 4 then .ok (nodeId (ofOctets 32 bs)) else .error (.nodeIdSize bs.length)
  | some .capabilities => (Capability.reader.readAll bs).map capabilities
  | some .holdTime => (HoldTime.ofBytes bs).map holdTime
  | some .ipv4Add => ((Net.reader 32).readAll bs).map announce4
  | some .ipv6Add => ((Net.reader 128).readAll bs).map announce6
  | some .ipv4Delete => ((Net.reader 32).readAll bs).map withdraw4
  | some .ipv6Delete => ((Net.reader 128).readAll bs).map withdraw6
  | some .peerSequence =>
    if bs.length % 4 = 0 then .ok (path (nodeIds bs)) else .error (.peerSequenceSize bs.length)
  | some .sourceGroupTag =>
    if bs.length = 2 then (Tag.of? (word bs)).map tag else .error (.tagSize bs.length)
  | _ => .ok (raw code bs)

end AttributeValue

inductive Layout where
  | compact
  | compactExtended
  | wide
  deriving DecidableEq, Repr

/-- The layout for a value of so many bytes. -/
def Layout.for (flags : UInt8) (size : Nat) : Layout :=
  if !Flags.has flags Flags.compact then .wide
  else if 255 < size then .compactExtended
  else .compact

namespace Attribute

def layout (a : Attribute) : Layout := .for a.flags a.value.bytes.length

def header (flags : UInt8) (code size : Nat) : Except Fault Bytes :=
  match Layout.for flags size with
  | .compact =>
    if 255 < code then .error (.codeNotCompact code)
    else .ok (flags :: wordBytes 1 code ++ wordBytes 1 size)
  | .compactExtended =>
    if 65535 < size then .error (.attributeTooLarge size)
    else if 255 < code then .error (.codeNotCompact code)
    else .ok ((flags ||| Flags.extended) :: wordBytes 1 code ++ wordBytes 2 size)
  | .wide =>
    if 0xFFFFFF < code then .error (.codeTooWide code)
    else if 0xFFFFFFFF < size then .error (.attributeTooLarge size)
    else .ok (flags :: wordBytes 3 code ++ wordBytes 4 size)

def bytes (a : Attribute) : Except Fault Bytes :=
  let value := a.value.bytes
  (header a.flags a.value.code value.length).map (· ++ value)

/-- The widths of the type and the length that follow the flags. -/
def widths (flags : UInt8) : Nat × Nat :=
  if !Flags.has flags Flags.compact then (3, 4)
  else if Flags.has flags Flags.extended then (1, 2)
  else (1, 1)

def read (bs : Bytes) : Except Fault (Attribute × Bytes) := do
  let (flags, bs) ← readWord 1 bs
  let flags := UInt8.ofNat flags
  let (code, bs) ← readWord (widths flags).1 bs
  let (size, bs) ← readWord (widths flags).2 bs
  if bs.length < size then throw (.attributeCut code size bs.length)
  let (value, rest) ← readBytes size bs
  return (of flags (← AttributeValue.ofBytes code value), rest)

theorem delimits_read : Delimits 1 read :=
  (delimits_readWord 1).bind fun _ => (delimits_readWord _).bind fun _ =>
    (delimits_readWord _).bind fun size => Delimits.guard <|
      (delimits_readBytes size).bind fun _ => delimits_return

theorem read_shorter {bs rest : Bytes} {a : Attribute} (h : read bs = .ok (a, rest)) :
    rest.length < bs.length :=
  delimits_read.shorter Nat.one_pos h

def reader : ItemReader Attribute := ⟨read, read_shorter⟩

/-- The bytes of a list of attributes, one after the other. -/
def listBytes : List Attribute → Except Fault Bytes
  | [] => .ok []
  | a :: rest => do return (← a.bytes) ++ (← listBytes rest)

def ofBytes (bs : Bytes) : Except Fault (List Attribute) := reader.readAll bs

end Attribute

end TagExchange
