/-!
# JSON values

A value as its text gives it. An object keeps every member in order, repeated names included.
A string whose escapes name half a surrogate pair is no text, and only a plain natural number
keeps its value: nothing else is ever asked of a number here.
-/

namespace TagExchange

inductive Json where
  | null
  | bool (b : Bool)
  | number (value : Option Nat)
  | string (text : Option String)
  | array (items : List Json)
  | object (members : List (Option String × Json))

namespace Json

def text? : Json → Option String
  | string t => t
  | _ => none

/-- A natural number of at most `top`. -/
def natural? (top : Nat) : Json → Option Nat
  | number (some n) => if n ≤ top then some n else none
  | _ => none

def items? : Json → Option (List Json)
  | array xs => some xs
  | _ => none

/-- The value of a name that occurs at most once: nothing when it is absent, no answer when it is
repeated. -/
def member? (name : String) (members : List (Option String × Json)) : Option (Option Json) :=
  match members.filter fun m => m.1 == some name with
  | [] => some none
  | [(_, v)] => some (some v)
  | _ => none

/-- The fields of a record, in the order of the names. A record is an object, whose other members
are skipped, or a list of its first fields. -/
def fields? (names : List String) : Json → Option (List (Option Json))
  | object members =>
    if members.any fun m => m.1.isNone then none
    else names.mapM fun name => member? name members
  | array items =>
    if names.length < items.length then none
    else some (items.map some ++ List.replicate (names.length - items.length) none)
  | _ => none

/-- The fields of a record in which none may be missing. -/
def allFields? (names : List String) (j : Json) : Option (List Json) :=
  (j.fields? names).bind fun fields => fields.mapM id

end Json

end TagExchange
