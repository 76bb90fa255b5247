import TagExchange.Network
import TagExchange.Address.Text

/-!
# The text of a network

A network is written as its address, a slash and its length. Reading gives the canonical
network: the length must lie within the family, and bits beyond it are cleared.
-/

namespace TagExchange

/-- Why a text is no network. -/
inductive NetworkTextError where
  | shape
  | address
  | length
  | exceeds (length width : Nat)
  deriving DecidableEq, Repr

def NetworkTextError.message : NetworkTextError → String
  | shape => "malformed prefix"
  | address => "malformed ip addr"
  | length => "malformed length"
  | exceeds l w => s!"prefix length {l} exceeds {w}"

/-- The text before and after the first slash. -/
def splitSlash? : List Char → Option (List Char × List Char)
  | [] => none
  | '/' :: cs => some ([], cs)
  | c :: cs => (splitSlash? cs).map fun (before, after) => (c :: before, after)

namespace Net

variable {w : Nat}

/-- Reads a network whose address is read by the given reader. The length is a decimal number
up to 255, with an optional plus sign and any leading zeros. -/
def parseWith (readAddr : List Char → Option (BitVec w × List Char)) (s : String) :
    Except NetworkTextError (Net w) :=
  match splitSlash? s.toList with
  | none => .error .shape
  | some (before, after) =>
    match whole readAddr before with
    | none => .error .address
    | some addr =>
      match Numeral.ofSigned? 255 after with
      | none => .error .length
      | some l => if w < l then .error (.exceeds l w) else .ok (.of addr (UInt8.ofNat l))

def textWith (addrText : BitVec w → String) (n : Net w) : String :=
  addrText n.addr ++ "/" ++ toString n.length.toNat

def parse4 : String → Except NetworkTextError (Net 32) := parseWith Addr4.read
def parse6 : String → Except NetworkTextError (Net 128) := parseWith Addr6.read

def text4 : Net 32 → String := textWith Addr4.text
def text6 : Net 128 → String := textWith Addr6.text

end Net

namespace Network

/-- A text of either family. The reason for a refusal is not kept. -/
def parse (s : String) : Except NetworkTextError Network :=
  match Net.parse4 s with
  | .ok n => .ok (v4 n)
  | .error _ =>
    match Net.parse6 s with
    | .ok n => .ok (v6 n)
    | .error _ => .error .shape

def text : Network → String
  | v4 n => n.text4
  | v6 n => n.text6

end Network

end TagExchange
