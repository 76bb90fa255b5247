import TagExchange.Proofs.Exchange.Updates
import TagExchange.Proofs.Session.Steps

/-!
# What an export does

An export that succeeds has put all of its frames on the line and notes the bindings as told
(`Session.advertise_ok`), and one whose frames encode succeeds on a line that takes them
(`Session.advertise_of_exports`). With nothing new there is nothing to send, and a single new
binding, or a single deletion, goes out in a frame of its own.
-/

namespace TagExchange

namespace Node

/-- The frames of the next export under a version. -/
def Exports (v : Version) (n : Node) (frames : List Bytes) : Prop :=
  (n.conn.composer v).frames
    (Session.difference n.conn.advertised (Session.exported n.conn n.db)).1
    (Session.difference n.conn.advertised (Session.exported n.conn n.db)).2 = .ok frames

variable {v : Version} {n : Node}

theorem exports_nil
    (hnone : Session.difference n.conn.advertised (Session.exported n.conn n.db) = ([], [])) :
    n.Exports v [] := by
  rw [Exports, hnone, Composer.frames, if_pos ⟨rfl, rfl⟩]

/-- What fits into one message goes out in one frame. -/
theorem exports_frame {delete add : List Binding} {m : Message} {frame : Bytes}
    (hdelete : (Session.difference n.conn.advertised (Session.exported n.conn n.db)).1 = delete)
    (hadd : (Session.difference n.conn.advertised (Session.exported n.conn n.db)).2 = add)
    (hsome : ¬(delete = [] ∧ add = [])) (hm : n.conn.composer v delete add = .ok m)
    (hframe : m.frame = .ok frame) : n.Exports v [frame] := by
  rw [Exports, hdelete, hadd, Composer.frames_of_frame hsome hm hframe]

theorem exports_single {b : Binding} {m : Message} {frame : Bytes}
    (hdelete : (Session.difference n.conn.advertised (Session.exported n.conn n.db)).1 = [])
    (hadd : (Session.exported n.conn n.db).bindings.filter
      (fun b => n.conn.advertised[b.net]? ≠ some b) = [b])
    (hm : n.conn.composer v [] [b] = .ok m) (hframe : m.frame = .ok frame) :
    n.Exports v [frame] := by
  refine exports_frame hdelete ?_ (by simp) hm hframe
  rw [Session.difference, hadd, List.mergeSort_singleton]

theorem exports_deletion {b : Binding} {m : Message} {frame : Bytes}
    (hdelete : (Session.difference n.conn.advertised (Session.exported n.conn n.db)).1 = [b])
    (hadd : (Session.exported n.conn n.db).bindings.filter
      (fun b => n.conn.advertised[b.net]? ≠ some b) = [])
    (hm : n.conn.composer v [b] [] = .ok m) (hframe : m.frame = .ok frame) :
    n.Exports v [frame] := by
  refine exports_frame hdelete ?_ (by simp) hm hframe
  rw [Session.difference, hadd, List.mergeSort_nil]

end Node

namespace Session

variable {v : Version} {n : Node}

/-- What an export that succeeds has done. -/
theorem advertise_ok {n' : Node} {k : Nat} (hphase : n.conn.phase = .on)
    (hmode : n.conn.mode.isSpeaker = true) (h : advertise v n = .ok k n') :
    ∃ frames line, n.Exports v frames ∧ n.conn.line.Extends frames line ∧ k = frames.length ∧
      n' = { n with conn := { n.conn with line, advertised := exported n.conn n.db } } := by
  rw [advertise_eq, if_neg (by simp [hphase, hmode])] at h
  dsimp only at h
  split at h
  · cases h
  · next frames hframes =>
    obtain ⟨front, rest, line, hfront, hextends, hsent, hall⟩ :=
      Connection.sendAll_extends frames n.conn
    split at h
    · next c hc =>
      rw [hc] at hsent hall
      cases hsent
      obtain rfl := hall rfl
      rw [List.append_nil] at hfront
      subst hfront
      cases h
      exact ⟨frames, line, hframes, hextends, rfl, rfl⟩
    · cases h

theorem advertise_of_exports (hphase : n.conn.phase = .on) (hmode : n.conn.mode.isSpeaker = true)
    (hfree : n.conn.line.Free) {frames : List Bytes} (hframes : n.Exports v frames) :
    advertise v n = .ok frames.length { n with
      conn.line.sent := n.conn.line.sent ++ frames
      conn.advertised := exported n.conn n.db } := by
  rw [Node.Exports] at hframes
  rw [advertise_eq, if_neg (by simp [hphase, hmode])]
  dsimp only
  rw [hframes]
  dsimp only
  rw [Connection.sendAll_open hfree]

/-- On a line that takes every frame, an export succeeds exactly when there are frames for it. -/
theorem advertise_ok_iff (hphase : n.conn.phase = .on) (hmode : n.conn.mode.isSpeaker = true)
    (hfree : n.conn.line.Free) :
    (∃ k n', advertise v n = .ok k n') ↔ ∃ frames, n.Exports v frames := by
  constructor
  · rintro ⟨k, n', h⟩
    obtain ⟨frames, -, hframes, -⟩ := advertise_ok hphase hmode h
    exact ⟨frames, hframes⟩
  · rintro ⟨frames, hframes⟩
    exact ⟨_, _, advertise_of_exports hphase hmode hfree hframes⟩

/-- On such a line an export that fails has sent nothing and changed nothing. -/
theorem advertise_error {n' : Node} {f : Fault} (hphase : n.conn.phase = .on)
    (hmode : n.conn.mode.isSpeaker = true) (hfree : n.conn.line.Free)
    (h : advertise v n = .error f n') :
    (n.conn.composer v).frames (difference n.conn.advertised (exported n.conn n.db)).1
        (difference n.conn.advertised (exported n.conn n.db)).2 = .error f ∧ n' = n := by
  rw [advertise_eq, if_neg (by simp [hphase, hmode])] at h
  dsimp only at h
  split at h
  · next hf =>
    cases h
    exact ⟨hf, rfl⟩
  · rw [Connection.sendAll_open hfree] at h
    cases h

/-- With nothing new there is nothing to send, whatever the line takes. -/
theorem advertise_idle (hphase : n.conn.phase = .on) (hmode : n.conn.mode.isSpeaker = true)
    (hnone : difference n.conn.advertised (exported n.conn n.db) = ([], [])) :
    advertise v n = .ok 0 { n with conn.advertised := exported n.conn n.db } := by
  have hframes := Node.exports_nil (v := v) hnone
  rw [Node.Exports] at hframes
  rw [advertise_eq, if_neg (by simp [hphase, hmode])]
  dsimp only
  rw [hframes]
  rfl

end Session

end TagExchange
