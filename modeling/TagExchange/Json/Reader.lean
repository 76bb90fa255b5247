import TagExchange.Json
import TagExchange.Text.Numeral

/-!
# Reading JSON

The grammar of RFC 8259: no comments, no trailing commas, no leading zeros, no raw control
characters in strings. The text must hold one value and nothing but white space around it.
-/

namespace TagExchange.Json

def isSpace (c : Char) : Bool := c == ' ' || c == '\n' || c == '\t' || c == '\r'

def skipSpace (cs : List Char) : List Char := cs.dropWhile isSpace

/-- Four hexadecimal digits. -/
def hex4? : List Char → Option (Nat × List Char)
  | a :: b :: c :: d :: rest => do
    let ds ← [a, b, c, d].mapM (Numeral.digit? 16)
    return (Numeral.value 16 ds, rest)
  | _ => none

/-- The character of a one-letter escape. -/
def escape? : Char → Option Char
  | '"' => some '"'
  | '\\' => some '\\'
  | '/' => some '/'
  | 'b' => some '\x08'
  | 'f' => some '\x0c'
  | 'n' => some '\n'
  | 'r' => some '\r'
  | 't' => some '\t'
  | _ => none

/-- The code units of a string up to its closing quote. An escape gives one UTF-16 unit, any other
character its code point. -/
def units? : (fuel : Nat) → List Char → Option (List Nat × List Char)
  | 0, _ => none
  | fuel + 1, cs =>
    match cs with
    | [] => none
    | '"' :: rest => some ([], rest)
    | '\\' :: 'u' :: rest => do
      let (unit, rest) ← hex4? rest
      let (units, rest) ← units? fuel rest
      return (unit :: units, rest)
    | '\\' :: c :: rest => do
      let c ← escape? c
      let (units, rest) ← units? fuel rest
      return (c.toNat :: units, rest)
    | c :: rest => do
      if c.toNat < 0x20 then none
      let (units, rest) ← units? fuel rest
      return (c.toNat :: units, rest)

/-- The text of code units: surrogates must come in pairs, the leading one first. -/
def decodeUnits : List Nat → Option (List Char)
  | [] => some []
  | u :: us =>
    if 0xDC00 ≤ u ∧ u ≤ 0xDFFF then none
    else if 0xD800 ≤ u ∧ u ≤ 0xDBFF then
      match us with
      | v :: us =>
        if 0xDC00 ≤ v ∧ v ≤ 0xDFFF then
          (decodeUnits us).map (Char.ofNat (0x10000 + (u - 0xD800) * 0x400 + (v - 0xDC00)) :: ·)
        else none
      | [] => none
    else (decodeUnits us).map (Char.ofNat u :: ·)

/-- A string after its opening quote. -/
def readString (cs : List Char) : Option (Option String × List Char) := do
  let (units, rest) ← units? (cs.length + 1) cs
  return ((decodeUnits units).map String.ofList, rest)

/-- At least one digit. -/
def skipDigits? (cs : List Char) : Option (List Char) :=
  match Numeral.span 10 cs with
  | ([], _) => none
  | (_, rest) => some rest

/-- An optional fraction and an optional exponent; the flag says that there was neither. -/
def skipFraction? (cs : List Char) : Option (Bool × List Char) := do
  let (plain, cs) ← match cs with
    | '.' :: rest => (skipDigits? rest).map (false, ·)
    | _ => some (true, cs)
  match cs with
  | 'e' :: rest | 'E' :: rest =>
    let digits := match rest with
      | '+' :: rest | '-' :: rest => rest
      | _ => rest
    return (false, ← skipDigits? digits)
  | _ => some (plain, cs)

/-- A number; only one without sign, fraction and exponent keeps its value. -/
def readNumber (cs : List Char) : Option (Option Nat × List Char) := do
  let (negative, cs) := match cs with
    | '-' :: rest => (true, rest)
    | _ => (false, cs)
  let (ds, rest) := Numeral.span 10 cs
  let value ← match ds with
    | [] => none
    | 0 :: _ :: _ => none
    | _ => some (Numeral.value 10 ds)
  let (plain, rest) ← skipFraction? rest
  return (if plain && !negative then some value else none, rest)

mutual

/-- A value, with white space before it. -/
def readValue : (fuel : Nat) → List Char → Option (Json × List Char)
  | 0, _ => none
  | fuel + 1, cs =>
    match skipSpace cs with
    | 'n' :: 'u' :: 'l' :: 'l' :: rest => some (null, rest)
    | 't' :: 'r' :: 'u' :: 'e' :: rest => some (bool true, rest)
    | 'f' :: 'a' :: 'l' :: 's' :: 'e' :: rest => some (bool false, rest)
    | '"' :: rest => do
      let (s, rest) ← readString rest
      return (string s, rest)
    | '[' :: rest =>
      match skipSpace rest with
      | ']' :: rest => some (array [], rest)
      | _ => do
        let (items, rest) ← readItems fuel rest
        return (array items, rest)
    | '\x7b' :: rest =>
      match skipSpace rest with
      | '\x7d' :: rest => some (object [], rest)
      | _ => do
        let (members, rest) ← readMembers fuel rest
        return (object members, rest)
    | rest => do
      let (n, rest) ← readNumber rest
      return (number n, rest)

/-- The items of an array up to its closing bracket; at least one. -/
def readItems : (fuel : Nat) → List Char → Option (List Json × List Char)
  | 0, _ => none
  | fuel + 1, cs => do
    let (v, rest) ← readValue fuel cs
    match skipSpace rest with
    | ',' :: rest => do
      let (vs, rest) ← readItems fuel rest
      return (v :: vs, rest)
    | ']' :: rest => some ([v], rest)
    | _ => none

/-- The members of an object up to its closing brace; at least one. -/
def readMembers : (fuel : Nat) → List Char → Option (List (Option String × Json) × List Char)
  | 0, _ => none
  | fuel + 1, cs =>
    match skipSpace cs with
    | '"' :: rest => do
      let (name, rest) ← readString rest
      match skipSpace rest with
      | ':' :: rest => do
        let (v, rest) ← readValue fuel rest
        match skipSpace rest with
        | ',' :: rest => do
          let (ms, rest) ← readMembers fuel rest
          return ((name, v) :: ms, rest)
        | '\x7d' :: rest => some ([(name, v)], rest)
        | _ => none
      | _ => none
    | _ => none

end

/-- The one value of a text. A step reads a character or goes from a list to its first item, so
twice the length of the text is steps enough. -/
def parseChars? (cs : List Char) : Option Json :=
  match readValue (2 * cs.length + 2) cs with
  | some (v, rest) => if skipSpace rest = [] then some v else none
  | none => none

def parse? (s : String) : Option Json := parseChars? s.toList

end TagExchange.Json
