import TagExchange.Address
import TagExchange.Text.Numeral

/-!
# The text of an address

IPv4 is written as four decimal octets. IPv6 is written as eight hexadecimal groups without
leading zeros, the longest run of at least two zero groups (the first of equals) left out; an
address in `::ffff:0:0/96` ends in a dotted IPv4 address. Reading takes more spellings than
writing makes: leading zeros in a group, capitals, `::` for any run of groups, and a dotted
ending anywhere.
-/

namespace TagExchange

/-- What follows a given character. -/
def expect (c : Char) : List Char → Option (List Char)
  | [] => none
  | d :: cs => if d = c then some cs else none

namespace Addr4

/-- A decimal octet: 0 to 255, no leading zero. -/
def readOctet (cs : List Char) : Option (Nat × List Char) := Numeral.readPlain? 10 255 3 cs

def read (cs : List Char) : Option (Addr4 × List Char) := do
  let (a, cs) ← readOctet cs
  let (b, cs) ← readOctet (← expect '.' cs)
  let (c, cs) ← readOctet (← expect '.' cs)
  let (d, cs) ← readOctet (← expect '.' cs)
  return (BitVec.ofNat 32 (((a * 256 + b) * 256 + c) * 256 + d), cs)

def chars (a : Addr4) : List Char :=
  ['.'].intercalate ((octets a).map fun b => Nat.toDigits 10 b.toNat)

end Addr4

namespace Addr6

/-- The eight 16 bit groups, most significant first. -/
def groups (a : Addr6) : List Nat :=
  (List.range 8).map fun i => (a.extractLsb' (16 * (7 - i)) 16).toNat

def ofGroups (gs : List Nat) : Addr6 :=
  BitVec.ofNat 128 (gs.foldl (fun n g => n * 65536 + g) 0)

/-- A group of one to four hexadecimal digits. -/
def readGroup (cs : List Char) : Option (Nat × List Char) := Numeral.readWithin? 16 65535 4 cs

/-- Reads up to `limit` groups with colons between them. A dotted address stands for two groups,
needs room for two and is the last thing read; the flag says whether there was one. -/
def readGroups : (limit : Nat) → (first : Bool) → List Char → List Nat × Bool × List Char
  | 0, _, cs => ([], false, cs)
  | limit + 1, first, cs =>
    match (if first then some cs else expect ':' cs) with
    | none => ([], false, cs)
    | some start =>
      match (if limit = 0 then none else Addr4.read start) with
      | some (a, rest) => ([a.toNat / 65536, a.toNat % 65536], true, rest)
      | none =>
        match readGroup start with
        | none => ([], false, cs)
        | some (g, rest) =>
          let (gs, dotted, rest) := readGroups limit false rest
          (g :: gs, dotted, rest)

/-- Eight groups, or fewer around a `::` that stands for at least one. Before a `::` nothing may
be dotted. -/
def read (cs : List Char) : Option (Addr6 × List Char) :=
  match readGroups 8 true cs with
  | (head, dotted, rest) =>
    if head.length = 8 then some (ofGroups head, rest)
    else if dotted then none
    else
      match rest with
      | ':' :: ':' :: rest =>
        let (tail, _, rest) := readGroups (7 - head.length) true rest
        let gap := List.replicate (8 - head.length - tail.length) 0
        some (ofGroups (head ++ gap ++ tail), rest)
      | _ => none

/-- Where the longest run of zero groups starts, and its length; the first of equals. -/
def longestRun (gs : List Nat) : Nat × Nat :=
  (List.range gs.length).foldl
    (fun best i =>
      let run := ((gs.drop i).takeWhile (· == 0)).length
      if best.2 < run then (i, run) else best)
    (0, 0)

def groupChars (gs : List Nat) : List Char := [':'].intercalate (gs.map (Nat.toDigits 16))

/-- The IPv4 address that an address in `::ffff:0:0/96` stands for. -/
def mapped? (a : Addr6) : Option Addr4 :=
  if (a.extractLsb' 32 96).toNat = 65535 then some (a.setWidth 32) else none

def chars (a : Addr6) : List Char :=
  match mapped? a with
  | some b => "::ffff:".toList ++ b.chars
  | none =>
    let (start, run) := longestRun a.groups
    if 1 < run then
      groupChars (a.groups.take start) ++ [':', ':'] ++ groupChars (a.groups.drop (start + run))
    else groupChars a.groups

end Addr6

/-- What a reader makes of a text when it reaches the end of it. -/
def whole {α : Type} (read : List Char → Option (α × List Char)) (cs : List Char) : Option α :=
  match read cs with
  | some (a, []) => some a
  | _ => none

def Addr4.parse? (s : String) : Option Addr4 := whole Addr4.read s.toList
def Addr6.parse? (s : String) : Option Addr6 := whole Addr6.read s.toList

def Addr4.text (a : Addr4) : String := String.ofList a.chars
def Addr6.text (a : Addr6) : String := String.ofList a.chars

namespace Address

def text : Address → String
  | v4 a => Addr4.text a
  | v6 a => Addr6.text a

/-- IPv4 is tried first; no text is an address of both families. -/
def parse? (s : String) : Option Address :=
  match Addr4.parse? s with
  | some a => some (v4 a)
  | none => (Addr6.parse? s).map v6

end Address

end TagExchange
