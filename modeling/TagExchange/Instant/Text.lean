import TagExchange.Instant
import TagExchange.Instant.Calendar
import TagExchange.Text.Blank
import TagExchange.Text.Numeral

/-!
# The text of an instant

Written as RFC 3339 in UTC: `2020-01-01T00:00:00Z`, with a fraction of 3, 6 or 9 digits when
there is one, and with a sign in front of a year outside 0 to 9999. Read with any offset, blanks
around the numbers and separators, one-digit fields, signed years of any size, and a fraction of
any length of which nine digits count. Second 60 is the leap second after second 59.
-/

namespace TagExchange.Instant

open Calendar

/-- Decimal digits of a number, with zeros in front up to the given width. -/
def padded (width n : Nat) : String :=
  let ds := Nat.toDigits 10 n
  String.ofList (List.replicate (width - ds.length) '0' ++ ds)

def yearText (y : Int) : String :=
  if y < 0 then "-" ++ padded 4 y.natAbs
  else if 9999 < y then "+" ++ padded 4 y.natAbs
  else padded 4 y.natAbs

/-- The shortest of no digits, milliseconds, microseconds and nanoseconds that is exact. -/
def fractionText (nanos : Nat) : String :=
  if nanos = 0 then ""
  else if nanos % 1000000 = 0 then "." ++ padded 3 (nanos / 1000000)
  else if nanos % 1000 = 0 then "." ++ padded 6 (nanos / 1000)
  else "." ++ padded 9 nanos

def text (t : Instant) : String :=
  let date := Date.ofDayNumber (t.seconds / 86400)
  let clock := (t.seconds % 86400).toNat
  let leap := t.nanos / 1000000000
  yearText date.year ++ "-" ++ padded 2 date.month ++ "-" ++ padded 2 date.day ++ "T" ++
    padded 2 (clock / 3600) ++ ":" ++ padded 2 (clock / 60 % 60) ++ ":" ++
    padded 2 (clock % 60 + leap) ++ fractionText (t.nanos % 1000000000) ++ "Z"

def decimal (ds : List Char) : Nat := ds.foldl (fun n d => n * 10 + (d.toNat - '0'.toNat)) 0

/-- The digits in front, `width` of them at most. -/
def digits (width : Nat) (cs : List Char) : List Char := (cs.take width).takeWhile Char.isDigit

/-- A number of one digit up to `width` digits; further digits are left. -/
def number? (width : Nat) (cs : List Char) : Option (Nat × List Char) :=
  let ds := digits width cs
  if ds = [] then none else some (decimal ds, cs.drop ds.length)

/-- Blanks, then a year: four digits at most, or a sign and any number of digits. -/
def readYear (cs : List Char) : Option (Int × List Char) :=
  match skipBlank cs with
  | '-' :: rest => (number? rest.length rest).map fun (n, cs) => (-(n : Int), cs)
  | '+' :: rest => (number? rest.length rest).map fun (n, cs) => ((n : Int), cs)
  | rest => (number? 4 rest).map fun (n, cs) => ((n : Int), cs)

/-- Blanks, then a number of one or two digits up to `top`. -/
def readField (top : Nat) (cs : List Char) : Option (Nat × List Char) := do
  let (n, cs) ← number? 2 (skipBlank cs)
  if n ≤ top then some (n, cs) else none

/-- Blanks, then the given mark. -/
def readMark (mark : Char) (cs : List Char) : Option (List Char) :=
  match skipBlank cs with
  | c :: rest => if c = mark then some rest else none
  | [] => none

def readDate (cs : List Char) : Option (Date × List Char) := do
  let (year, cs) ← readYear cs
  let (month, cs) ← readField 12 (← readMark '-' cs)
  let (day, cs) ← readField 31 (← readMark '-' cs)
  return (⟨year, month, day⟩, cs)

/-- The nanoseconds of a fraction, if a point follows. -/
def readFraction : List Char → Option (Nat × List Char)
  | '.' :: cs =>
    let ds := digits 9 cs
    if ds = [] then none
    else some (decimal (ds ++ List.replicate (9 - ds.length) '0'), cs.dropWhile Char.isDigit)
  | cs => some (0, cs)

/-- Seconds since midnight and nanoseconds. -/
def readTime (cs : List Char) : Option ((Nat × Nat) × List Char) := do
  let (hour, cs) ← readField 23 cs
  let (minute, cs) ← readField 59 (← readMark ':' cs)
  let (second, cs) ← readField 60 (← readMark ':' cs)
  let (nanos, cs) ← readFraction cs
  let seconds := hour * 3600 + minute * 60
  return (if second = 60 then (seconds + 59, nanos + 1000000000) else (seconds + second, nanos), cs)

/-- Exactly two digits, the first of them at most `top`. -/
def twoDigits (top : Char) : List Char → Option (Nat × List Char)
  | a :: b :: cs =>
    if a.isDigit && b.isDigit && a ≤ top then
      some ((a.toNat - '0'.toNat) * 10 + (b.toNat - '0'.toNat), cs)
    else none
  | _ => none

/-- Hours and minutes; colons and blanks between them are skipped. -/
def readHoursMinutes (cs : List Char) : Option (Int × List Char) := do
  let (hours, cs) ← twoDigits '9' cs
  let (minutes, cs) ← twoDigits '5' (cs.dropWhile fun c => c == ':' || isBlank c)
  return ((hours * 3600 + minutes * 60 : Nat), cs)

/-- Seconds east of UTC: `Z`, `UTC` in any case, or a sign, hours and minutes. -/
def readOffset : List Char → Option (Int × List Char)
  | 'Z' :: cs => some (0, cs)
  | 'z' :: cs => some (0, cs)
  | '+' :: cs => readHoursMinutes cs
  | '-' :: cs => (readHoursMinutes cs).map fun (s, cs) => (-s, cs)
  | '−' :: cs => (readHoursMinutes cs).map fun (s, cs) => (-s, cs)
  | a :: b :: c :: cs =>
    if [a.toUpper, b.toUpper, c.toUpper] = ['U', 'T', 'C'] then some (0, cs) else none
  | _ => none

/-- A date, one of `T`, `t` and a space, a time and an offset of less than a day. -/
def parse? (s : String) : Option Instant := do
  let (date, cs) ← readDate s.toList
  let ((seconds, nanos), cs) ← match cs with
    | 'T' :: rest | 't' :: rest | ' ' :: rest => readTime rest
    | _ => none
  let (offset, cs) ← readOffset (skipBlank cs)
  if skipBlank cs = [] ∧ date.isValid ∧ offset.natAbs < 86400 then
    let utc := date.dayNumber * 86400 + seconds - offset
    if inRange (Date.ofDayNumber (utc / 86400)).year then some ⟨utc, nanos⟩ else none
  else none

end TagExchange.Instant
