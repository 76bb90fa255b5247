import TagExchange.Config
import TagExchange.Line
import TagExchange.Table
import TagExchange.Update.Frames

/-!
# Connections

What a node knows of one peer. Until the handshake is over, `version` is the one this node offers,
afterwards the one both agreed on. The hold time a peer offers has to suit this node: a speaker
needs one it accepts from the listener's range, any other node one within its own.
-/

namespace TagExchange

structure Connection where
  line : Line
  mode : Mode
  phase : Phase := .off
  version : Version
  localId : NodeId
  remoteNodeId : Option NodeId := none
  capabilities : List Capability := []
  /-- Zero while the timers are off. -/
  holdTime : Nat := 0
  keepaliveTime : Nat := 0
  lastKeepalive : Option Instant := none
  /-- What the peer has been told. -/
  advertised : Table := ∅
  config : NodeConfig

namespace Connection

def of (line : Line) (localId : NodeId) (peer : PeerConfig) (config : NodeConfig) : Connection :=
  { line, mode := peer.mode, version := min peer.version config.version, localId, config }

/-- The id of the peer: the one it gave, or else its IPv4 address. -/
def remoteId (c : Connection) : NodeId := (c.remoteNodeId <|> c.line.peer.addr4?).getD 0

def send (m : Message) (c : Connection) : Except Fault Connection := do
  let frame ← m.frame
  return { c with line := ← c.line.send frame }

/-- Sends frames in order. On a fault the frames before it have been sent. -/
def sendAll : List Bytes → Connection → Except Fault Unit × Connection
  | [], c => (.ok (), c)
  | frame :: rest, c =>
    match c.line.send frame with
    | .ok line => sendAll rest { c with line }
    | .error f => (.error f, c)

/-- What this node says when the connection opens under a version. -/
def opening (v : Version) (c : Connection) : Except Fault Opening := do
  let holdTime ← if v.isLegacy then pure none else (c.config.holdTime c.mode).map some
  return .of v c.mode c.localId holdTime

def timersOff (c : Connection) : Connection := { c with holdTime := 0, keepaliveTime := 0 }

def setTimers (holdTime : Nat) (c : Connection) : Connection :=
  { c with holdTime, keepaliveTime := min (holdTime / 3) c.config.keepaliveTime }

/-- Settles on a hold time. A peer that gives none, or turns its timer off, turns the timers off
here too. -/
def negotiate (offer : Option HoldTime) (c : Connection) : Except Fault Connection :=
  match offer with
  | none => .ok c.timersOff
  | some h =>
    if h.isDisabled then .ok c.timersOff
    else if c.mode = .speaker then
      let acceptable := c.config.holdTimeMinAcceptable
      if h.max ≠ 0 ∧ h.max < acceptable then .error (.acceptableAboveMaximum acceptable h.max)
      else .ok (c.setTimers (max h.min acceptable))
    else if c.config.holdTimeMax < h.min then
      .error (.minimumAboveMaximum h.min c.config.holdTimeMax)
    else .ok (c.setTimers (max h.min c.config.holdTimeMin))

/-- Tells the peer about a fault, if there is a way to say it and the line takes it, and shuts the
connection down. -/
def shutDown (v : Version) (f : Fault) (c : Connection) : Connection :=
  let told :=
    match f.notice? v with
    | none => c
    | some notice =>
      match c.send (.error notice) with
      | .ok c => c
      | .error _ => c
  { told with phase := .off, line := told.line.close }

/-- A binding is held back from the peer that it has already been through. -/
def holdsBack (c : Connection) : Filter := fun b => b.path.contains c.remoteId

/-- The messages that a version sends its updates in. -/
def composer (v : Version) (c : Connection) : Composer :=
  if v.isLegacy then .legacy v c.config.expansionQuantity c.holdsBack
  else .current c.localId c.capabilities c.holdsBack

end Connection

end TagExchange
