import TagExchange.Message.Codec
import TagExchange.Update.Legacy

/-!
# Updates in frames

Changes that make a message too large are divided: deletions from additions, then either list in
half, until every part fits. A single change that does not fit is a fault.
-/

namespace TagExchange

/-- Makes a message of deletions and additions. -/
abbrev Composer := List Binding → List Binding → Except Fault Message

namespace Composer

/-- The frames for deletions and additions, in the order they have to be sent. -/
def frames (compose : Composer) (delete add : List Binding) : Except Fault (List Bytes) :=
  if delete = [] ∧ add = [] then .ok []
  else
    match compose delete add with
    | .error f => .error f
    | .ok m =>
      match m.frame with
      | .ok frame => .ok [frame]
      | .error f =>
        if f.kind = .tooLarge ∧ 1 < delete.length + add.length then
          if delete ≠ [] ∧ add ≠ [] then do
            return (← frames compose delete []) ++ (← frames compose [] add)
          else if 1 < delete.length then do
            let half := delete.length / 2
            return (← frames compose (delete.take half) []) ++
              (← frames compose (delete.drop half) [])
          else do
            let half := add.length / 2
            return (← frames compose [] (add.take half)) ++ (← frames compose [] (add.drop half))
        else .error f
termination_by delete.length + add.length
decreasing_by
  all_goals
    simp_all only [List.length_nil, List.length_take, List.length_drop, ← List.length_pos_iff]
    omega

/-- Version 4 messages for a peer with the given capabilities. -/
def current (id : NodeId) (capabilities : List Capability) (filter : Filter) : Composer :=
  fun delete add => (Update.compose id capabilities filter delete add).map .update

/-- Messages of a legacy version. -/
def legacy (v : Version) (quantity : Nat) (filter : Filter) : Composer :=
  fun delete add => (LegacyUpdate.compose v quantity filter delete add).map (.legacyUpdate v)

end Composer

end TagExchange
