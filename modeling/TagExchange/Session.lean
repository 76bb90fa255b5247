import TagExchange.Connection
import TagExchange.Database

/-!
# Sessions

What a node does when something happens on a connection. A session acts on the connection and the
node's database; a fault ends it, and what it has done before stays done. Every step follows the
rules of a version, which is as a rule the one in effect on the connection.

A frame that cannot be read or acted on shuts the connection down (`hear`). An opening is recorded
piece by piece while it is checked, and the reply to it follows the version then in effect.
-/

namespace TagExchange

/-- A connection and the database of its node. -/
structure Node where
  conn : Connection
  db : Database

abbrev Session (α : Type) := EStateM Fault Node α

namespace Session

def ofExcept {α : Type} (x : Except Fault α) : Session α :=
  match x with
  | .ok a => pure a
  | .error f => throw f

def connection : Session Connection := do return (← get).conn

def modifyConnection (f : Connection → Connection) : Session Unit :=
  modify fun n => { n with conn := f n.conn }

/-- A step that changes the connection or fails and leaves it. -/
def onConnection (f : Connection → Except Fault Connection) : Session Unit := do
  let conn ← ofExcept (f (← connection))
  modifyConnection fun _ => conn

/-- A step that changes the database or fails and leaves it. -/
def onDatabase {α : Type} (f : Database → Except StoreError (α × Database)) : Session α := do
  match f (← get).db with
  | .ok (a, db) =>
    modify fun n => { n with db }
    return a
  | .error cause => throw (.store cause)

def send (m : Message) : Session Unit := onConnection (Connection.send m)

def setPhase (phase : Phase) : Session Unit := modifyConnection fun c => { c with phase }

/-- The transport is up. -/
def activate (v : Version) : Session Unit := do
  let opening ← ofExcept ((← connection).opening v)
  send (.opening opening)
  setPhase .pendingOn

/-- Forgets what was learned from the peer. -/
def purge : Session Unit := do
  let peer := (← connection).remoteId
  discard <| onDatabase fun db => db.purge peer

/-- The transport is gone. A listener that was on forgets its peer. -/
def deactivate : Session Unit := do
  let conn ← connection
  modifyConnection fun c => { c with advertised := ∅, phase := .off }
  if conn.phase = .on ∧ conn.mode.isListener then purge

/-- The bindings for the peer, filed as they will be advertised. -/
def exported (conn : Connection) (db : Database) : Table :=
  .ofBindings (db.bindings.filter fun b => !conn.holdsBack b)

/-- By path and then tag, so that bindings of one run stand together. -/
def runOrder (a b : Binding) : Bool :=
  ((compare a.path b.path).then (compare a.tag b.tag)).isLE

/-- What to withdraw and what to announce to get from one table to another. -/
def difference (old new : Table) : List Binding × List Binding :=
  (old.bindings.filter fun b => !new.contains b.net,
    (new.bindings.filter fun b => old[b.net]? ≠ some b).mergeSort runOrder)

/-- Brings the peer up to date; gives the number of frames sent. A speaker that is on sends what
changed since the last time. -/
def advertise (v : Version) : Session Nat := do
  let node ← get
  let conn := node.conn
  if conn.phase ≠ .on ∨ ¬conn.mode.isSpeaker then return 0
  let next := exported conn node.db
  let (delete, add) := difference conn.advertised next
  let frames ← ofExcept ((conn.composer v).frames delete add)
  let (result, conn) := conn.sendAll frames
  modifyConnection fun _ => conn
  ofExcept result
  modifyConnection fun c => { c with advertised := next }
  return frames.length

/-- Checks an opening and records what it says. -/
def accept (o : Opening) : Session Unit := do
  let conn ← connection
  if !conn.mode.complements o.mode then throw (.modeMismatch conn.mode o.mode)
  let version := min conn.version o.version
  modifyConnection fun c => { c with version }
  let capabilities ←
    if version.isLegacy then pure (Capability.ofVersion version)
    else
      match o.declared with
      | .ok list => pure list
      | .error f => if o.mode.isListener then throw f else pure []
  let remoteNodeId := o.nodeId? <|> conn.line.peer.addr4?
  modifyConnection fun c => { c with capabilities, remoteNodeId }
  if !version.isLegacy then onConnection (Connection.negotiate o.holdTime?)

/-- The handshake is over; a speaker sends what it has. -/
def turnOn : Session Unit := do
  setPhase .on
  let conn ← connection
  if conn.mode.isSpeaker then discard <| advertise conn.version

/-- Takes what an update says into the database. Bindings that have been through this node are
dropped, and only what was learned from the peer is taken away. -/
def learn (changes : Changes) : Session Unit := do
  let conn ← connection
  let add := changes.add.filter fun b => !b.path.contains conn.localId
  if changes.delete ≠ [] then
    discard <| onDatabase fun db => db.deleteFrom conn.remoteId changes.delete
  if add ≠ [] then discard <| onDatabase fun db => db.add add

/-- Updates are for listeners that are on. -/
def checkListening : Session Unit := do
  let conn ← connection
  if conn.phase ≠ .on ∨ ¬conn.mode.isListener then throw (.updatePhase conn.phase)

/-- Acts on a message at an instant. -/
def receive (now : Instant) (m : Message) : Session Unit := do
  match m with
  | .opening o =>
    accept o
    let conn ← connection
    send (.reply (← ofExcept (conn.opening conn.version)))
    turnOn
  | .reply o =>
    accept o
    turnOn
  | .update attributes =>
    checkListening
    learn (← ofExcept (Update.changes now attributes))
  | .legacyUpdate _ records =>
    checkListening
    learn (LegacyUpdate.changes (← connection).remoteId now records)
  | .error notice => throw (.peerError notice)
  | .purgeAll => if (← connection).mode.isListener then purge
  | .keepalive => modifyConnection fun c => { c with lastKeepalive := some now }

/-- Reads a frame under the version in effect and acts on it. -/
def understand (now : Instant) (frame : Bytes) : Session Unit := do
  receive now (← ofExcept (Message.ofFrame (← connection).version frame))

/-- Shuts the connection down on a fault that a step ran into. -/
def shutDown (v : Version) (f : Fault) : Session Unit := modifyConnection (Connection.shutDown v f)

/-- As `understand`, and a fault shuts the connection down under the version then in effect. -/
def hear (now : Instant) (frame : Bytes) : Session Unit := fun node =>
  match understand now frame node with
  | .ok () node => .ok () node
  | .error f node => .error f { node with conn := node.conn.shutDown node.conn.version f }

end Session

end TagExchange
