import TagExchange.Network

/-!
# Store keys of networks

A network is stored under its octets followed by its length, so keys of one family sort as the
networks do. A key of 5 bytes is an IPv4 network, one of 17 bytes an IPv6 network. Reading
refuses a length beyond the family and takes the address as it stands.
-/

namespace TagExchange

/-- Why bytes are no store key. -/
inductive KeyError where
  | short4 (size : Nat)
  | short6 (size : Nat)
  | length4 (length : Nat)
  | length6 (length : Nat)
  | size (size : Nat)
  deriving DecidableEq, Repr

def KeyError.detail : KeyError → String
  | short4 n => s!"buffer to short for prefix 4 key {n} < 5"
  | short6 n => s!"buffer too short for prefix 6 key {n} < 17"
  | length4 l => s!"prefix 4 key length {l}"
  | length6 l => s!"prefix 6 key length {l}"
  | size n => s!"bad prefix key length {n}"

namespace Net

variable {w : Nat}

def key (n : Net w) : Bytes := octets n.addr ++ [n.length]

/-- The network at the front of a byte string; what follows the length is not looked at. -/
def ofKeyWith (short length : Nat → KeyError) (bs : Bytes) : Except KeyError (Net w) :=
  match split? (w / 8) bs with
  | some (addr, l :: _) =>
    if w < l.toNat then .error (length l.toNat) else .ok ⟨ofOctets w addr, l⟩
  | _ => .error (short bs.length)

def ofKey4 : Bytes → Except KeyError (Net 32) := ofKeyWith .short4 .length4
def ofKey6 : Bytes → Except KeyError (Net 128) := ofKeyWith .short6 .length6

end Net

namespace Network

def key : Network → Bytes
  | v4 n => n.key
  | v6 n => n.key

/-- The family of a key is told by its size. -/
def ofKey (bs : Bytes) : Except KeyError Network :=
  if bs.length = 5 then (Net.ofKey4 bs).map v4
  else if bs.length = 17 then (Net.ofKey6 bs).map v6
  else .error (.size bs.length)

end Network

end TagExchange
