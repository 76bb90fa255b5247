import TagExchange.Binding
import TagExchange.Instant.Text
import TagExchange.Json.Reader
import TagExchange.Json.Writer

/-!
# Binding records

The JSON text of a binding, as a store keeps it. Reading takes the fields in any order or as a
list, and does not ask whether the network is canonical.
-/

namespace TagExchange

def Net.record {w : Nat} (addrText : BitVec w → String) (n : Net w) : String :=
  Json.objectText
    [("value", Json.quote (addrText n.addr)), ("length", toString n.length.toNat)]

/-- A block from its two fields, its address read by the given reader. -/
def Net.ofRecord? {w : Nat} (readAddr : List Char → Option (BitVec w × List Char)) (j : Json) :
    Option (Net w) := do
  let [value, length] ← j.allFields? ["value", "length"] | none
  let addr ← whole readAddr (← value.text?).toList
  return ⟨addr, UInt8.ofNat (← length.natural? 255)⟩

def Network.record : Network → String
  | .v4 n => Json.objectText [("V4", n.record Addr4.text)]
  | .v6 n => Json.objectText [("V6", n.record Addr6.text)]

/-- An object with one member, named for the family. -/
def Network.ofRecord? : Json → Option Network
  | .object [(some "V4", j)] => (Net.ofRecord? Addr4.read j).map .v4
  | .object [(some "V6", j)] => (Net.ofRecord? Addr6.read j).map .v6
  | _ => none

namespace Binding

def record (b : Binding) : String :=
  Json.objectText
    [("prefix", b.net.record), ("sgt", toString b.tag.toNat),
      ("peer_sequence", Json.arrayText (b.path.map fun id => Json.quote id.text)),
      ("timestamp", Json.quote b.stamp.text)]

def ofJson? (j : Json) : Option Binding := do
  let [net, tag, path, stamp] ←
    j.allFields? ["prefix", "sgt", "peer_sequence", "timestamp"] | none
  let hops ← (← path.items?).mapM fun hop => hop.text?.bind Addr4.parse?
  return {
    net := ← Network.ofRecord? net
    tag := UInt16.ofNat (← tag.natural? 65535)
    path := hops
    stamp := ← stamp.text?.bind Instant.parse? }

def ofRecord? (s : String) : Option Binding := (Json.parse? s).bind ofJson?

end Binding

end TagExchange
