import TagExchange.Address.Text

/-!
# Socket addresses

An address and a port. An IPv6 address stands in brackets, where a numeric zone may follow it
after a percent sign; zone 0 is not written.
-/

namespace TagExchange

structure Endpoint where
  address : Address
  port : Nat
  zone : Nat := 0
  deriving DecidableEq, Repr

namespace Endpoint

/-- A port of 0 to 65535 after a colon, leading zeros allowed. -/
def readPort (cs : List Char) : Option (Nat × List Char) := do
  Numeral.read? 10 65535 (← expect ':' cs)

def read4 (cs : List Char) : Option (Endpoint × List Char) := do
  let (a, cs) ← Addr4.read cs
  let (port, cs) ← readPort cs
  return (⟨.v4 a, port, 0⟩, cs)

/-- A zone after a percent sign; without the sign the zone is 0 and nothing is read. -/
def readZone (cs : List Char) : Option (Nat × List Char) :=
  match cs with
  | '%' :: rest => Numeral.read? 10 0xFFFFFFFF rest
  | _ => some (0, cs)

def read6 (cs : List Char) : Option (Endpoint × List Char) := do
  let (a, cs) ← Addr6.read (← expect '[' cs)
  let (zone, cs) ← readZone cs
  let (port, cs) ← readPort (← expect ']' cs)
  return (⟨.v6 a, port, zone⟩, cs)

def parse? (s : String) : Option Endpoint :=
  (whole read4 s.toList).or (whole read6 s.toList)

def text (e : Endpoint) : String :=
  match e.address with
  | .v4 a => s!"{a.text}:{e.port}"
  | .v6 a =>
    let zone := if e.zone = 0 then "" else s!"%{e.zone}"
    s!"[{a.text}{zone}]:{e.port}"

/-- The IPv4 address of the endpoint, if that is its family. -/
def addr4? (e : Endpoint) : Option Addr4 :=
  match e.address with
  | .v4 a => some a
  | .v6 _ => none

end Endpoint

end TagExchange
