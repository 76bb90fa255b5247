/-!
# Numerals

Reading unsigned numbers from the front of a text. A run of digits is always read to its end,
so a number is never cut in the middle.
-/

namespace TagExchange.Numeral

/-- The value of an ASCII digit or letter, when it is a digit of the base. -/
def digit? (base : Nat) (c : Char) : Option Nat :=
  let v :=
    if '0' ≤ c ∧ c ≤ '9' then c.toNat - '0'.toNat
    else if 'a' ≤ c ∧ c ≤ 'z' then c.toNat - 'a'.toNat + 10
    else if 'A' ≤ c ∧ c ≤ 'Z' then c.toNat - 'A'.toNat + 10
    else base
  if v < base then some v else none

/-- The longest run of digits in front, and what follows it. -/
def span (base : Nat) : List Char → List Nat × List Char
  | [] => ([], [])
  | c :: cs =>
    match digit? base c with
    | none => ([], c :: cs)
    | some d =>
      let (ds, rest) := span base cs
      (d :: ds, rest)

def value (base : Nat) (ds : List Nat) : Nat := ds.foldl (fun n d => n * base + d) 0

/-- A number of at least one digit and at most `top`, leading zeros allowed. -/
def read? (base top : Nat) (cs : List Char) : Option (Nat × List Char) :=
  let (ds, rest) := span base cs
  if ds = [] ∨ top < value base ds then none else some (value base ds, rest)

/-- As `read?`, with at most `width` digits. -/
def readWithin? (base top width : Nat) (cs : List Char) : Option (Nat × List Char) :=
  if width < (span base cs).1.length then none else read? base top cs

/-- As `readWithin?`, and only the number zero may start with a zero. -/
def readPlain? (base top width : Nat) (cs : List Char) : Option (Nat × List Char) :=
  match (span base cs).1 with
  | 0 :: _ :: _ => none
  | _ => readWithin? base top width cs

/-- A decimal number that is the whole text, after an optional plus sign. -/
def ofSigned? (top : Nat) (cs : List Char) : Option Nat :=
  let digits := match cs with
    | '+' :: rest => rest
    | _ => cs
  match read? 10 top digits with
  | some (n, []) => some n
  | _ => none

end TagExchange.Numeral
