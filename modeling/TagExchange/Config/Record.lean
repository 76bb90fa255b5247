import TagExchange.Config
import TagExchange.Json.Reader
import TagExchange.Json.Writer

/-!
# Settings as text

JSON records. A node's settings may leave out any field, which then has its default; a peer's
settings need all of theirs.
-/

namespace TagExchange

def Version.ofJson? (j : Json) : Option Version := (j.natural? 255).bind ofNumber?

def Mode.ofJson? (j : Json) : Option Mode := (j.natural? 255).bind ofNumber?

namespace NodeConfig

def fieldNames : List String :=
  ["node_id", "port", "version", "hold_time_min", "hold_time_max", "hold_time_min_acceptable",
    "keepalive_time", "expansion_quantity"]

def record (c : NodeConfig) : String :=
  let id := match c.nodeId with
    | some id => Json.quote id.text
    | none => "null"
  let numbers := [c.port, c.version.number, c.holdTimeMin, c.holdTimeMax, c.holdTimeMinAcceptable,
    c.keepaliveTime, c.expansionQuantity]
  Json.objectText (fieldNames.zip (id :: numbers.map toString))

/-- What a field says, or the default of a field that is left out. -/
def field {α : Type} (default : α) (read : Json → Option α) : Option Json → Option α
  | none => some default
  | some j => read j

def readNodeId : Json → Option (Option NodeId)
  | .null => some none
  | j => (j.text?.bind Addr4.parse?).map some

def ofJson? (j : Json) : Option NodeConfig := do
  let [id, port, version, min, max, acceptable, keepalive, quantity] ← j.fields? fieldNames | none
  let d : NodeConfig := {}
  let short := Json.natural? 65535
  return {
    nodeId := ← field d.nodeId readNodeId id
    port := ← field d.port short port
    version := ← field d.version Version.ofJson? version
    holdTimeMin := ← field d.holdTimeMin short min
    holdTimeMax := ← field d.holdTimeMax short max
    holdTimeMinAcceptable := ← field d.holdTimeMinAcceptable short acceptable
    keepaliveTime := ← field d.keepaliveTime short keepalive
    expansionQuantity := ← field d.expansionQuantity (Json.natural? 0xFFFFFFFFFFFFFFFF) quantity }

def ofRecord? (s : String) : Option NodeConfig := (Json.parse? s).bind ofJson?

end NodeConfig

namespace PeerConfig

def record (c : PeerConfig) : String :=
  Json.objectText
    [("name", Json.quote c.name), ("host", Json.quote c.host.text),
      ("mode", toString c.mode.number), ("version", toString c.version.number)]

def ofJson? (j : Json) : Option PeerConfig := do
  let [name, host, mode, version] ← j.allFields? ["name", "host", "mode", "version"] | none
  return {
    name := ← name.text?
    host := ← host.text?.bind Endpoint.parse?
    mode := ← Mode.ofJson? mode
    version := ← Version.ofJson? version }

def ofRecord? (s : String) : Option PeerConfig := (Json.parse? s).bind ofJson?

end PeerConfig

end TagExchange
