/-!
# Writing JSON

Compact text, built from the texts of the parts. A string is quoted with the shortest escapes:
quote, backslash and control characters are escaped, all else stands as it is.
-/

namespace TagExchange.Json

def hexDigit (n : Nat) : Char := (Nat.toDigits 16 n).getLastD '0'

def quoteChar (c : Char) : List Char :=
  match c with
  | '"' => ['\\', '"']
  | '\\' => ['\\', '\\']
  | '\x08' => ['\\', 'b']
  | '\x0c' => ['\\', 'f']
  | '\n' => ['\\', 'n']
  | '\r' => ['\\', 'r']
  | '\t' => ['\\', 't']
  | _ =>
    if c.toNat < 0x20 then
      ['\\', 'u', '0', '0', hexDigit (c.toNat / 16), hexDigit (c.toNat % 16)]
    else [c]

def quote (s : String) : String := String.ofList ('"' :: s.toList.flatMap quoteChar ++ ['"'])

def arrayText (items : List String) : String := "[" ++ ",".intercalate items ++ "]"

/-- An object of names and the texts of their values, in the order given. -/
def objectText (members : List (String × String)) : String :=
  "\x7b" ++ ",".intercalate (members.map fun (name, value) => quote name ++ ":" ++ value) ++ "\x7d"

end TagExchange.Json
