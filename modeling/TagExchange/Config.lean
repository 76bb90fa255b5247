import TagExchange.Endpoint
import TagExchange.HoldTime
import TagExchange.Rotation

/-!
# Settings

What a node is told about itself and about each peer. Times are in seconds.
-/

namespace TagExchange

structure NodeConfig where
  nodeId : Option NodeId := none
  port : Nat := 64999
  version : Version := .v4
  holdTimeMin : Nat := 90
  holdTimeMax : Nat := 180
  holdTimeMinAcceptable : Nat := 120
  keepaliveTime : Nat := 30
  /-- How many hosts of a subnet are sent to peers that take no subnets. -/
  expansionQuantity : Nat := 0
  deriving DecidableEq, Repr

namespace NodeConfig

/-- The hold time that a node advertises: a speaker the least it accepts, a listener its range. -/
def holdTime (c : NodeConfig) : Mode → Except Fault HoldTime
  | .speaker => HoldTime.ofMin c.holdTimeMinAcceptable
  | .listener | .both => HoldTime.ofRange c.holdTimeMin c.holdTimeMax

/-- The id that was set, or one from the local interfaces. -/
def identify (c : NodeConfig) (interfaces : List Interface) (r : Rotation) :
    Except Fault (NodeId × Rotation) :=
  match c.nodeId with
  | some id => .ok (id, r)
  | none => r.nodeId interfaces

end NodeConfig

structure PeerConfig where
  name : String
  host : Endpoint
  mode : Mode
  version : Version
  deriving DecidableEq, Repr

end TagExchange
