import TagExchange.Proofs.Exchange.Copy

/-!
# Hosts in place of subnets

A peer of version 1 or 2 is told of single addresses only, and of a subnet by its first hosts. Such
an observer keeps a listing from the records that it is sent (`Listing.apply`). Withdrawals go by
networks, and different networks may show the same host: when one of them is withdrawn, the host
goes too, though it may belong to another one that is still exported and is not announced again.
Apart from such hosts the listing is right after every export (`Node.exports_shown`).
-/

namespace TagExchange

namespace Net

variable {w : Nat}

/-- The hosts that stand for a block: a single address for itself, else the first addresses of the
block. -/
def Shows (quantity : Nat) (n m : Net w) : Prop :=
  if n.hostBits = 0 then m = .host n.addr
  else ∃ i < quantity, i < 2 ^ n.hostBits ∧ m = .host (n.addr + BitVec.ofNat w i)

theorem shows_self {quantity : Nat} {n : Net w} (h : n.hostBits = 0) :
    n.Shows quantity (.host n.addr) := by
  rw [Shows, if_pos h]

theorem shows_of_lt {quantity i : Nat} {n : Net w} (h : n.hostBits ≠ 0) (hi : i < quantity)
    (hsize : i < 2 ^ n.hostBits) : n.Shows quantity (.host (n.addr + BitVec.ofNat w i)) := by
  rw [Shows, if_neg h]
  exact ⟨i, hi, hsize, rfl⟩

theorem mem_hosts {w quantity : Nat} {n m : Net w} : m ∈ n.hosts quantity ↔
    ∃ i < quantity, i < 2 ^ n.hostBits ∧ m = .host (n.addr + BitVec.ofNat w i) := by
  simp only [hosts, size, Nat.one_shiftLeft, List.mem_map, List.mem_range, Nat.lt_min]
  constructor
  · rintro ⟨i, ⟨hsize, hquantity⟩, rfl⟩
    exact ⟨i, hquantity, hsize, rfl⟩
  · rintro ⟨i, hquantity, hsize, rfl⟩
    exact ⟨i, ⟨hsize, hquantity⟩, rfl⟩

/-- The hosts of a block are addresses, which are read as they are. -/
theorem eq_of_mem_hosts (hw : w < 256) {quantity : Nat} {n m : Net w} (h : m ∈ n.hosts quantity) :
    m.hostBits = 0 ∧ m.rebuilt = m := by
  obtain ⟨i, -, -, rfl⟩ := mem_hosts.1 h
  exact ⟨hostBits_host hw _, rebuilt_of_hostBits hw (hostBits_host hw _)⟩

/-- What a block is expanded to, as it is read. -/
theorem expanded_iff (hw : w < 256) {quantity : Nat} {n host : Net w} :
    (∃ m ∈ if n.hostBits = 0 then [n] else n.hosts quantity, m.hostBits = 0 ∧ m.rebuilt = host) ↔
      n.Shows quantity host := by
  rw [Shows]
  split
  · next hbits => simp [hbits, rebuilt_of_hostBits hw hbits, eq_comm]
  · rw [← mem_hosts]
    constructor
    · rintro ⟨m, hm, -, rfl⟩
      rw [(eq_of_mem_hosts hw hm).2]
      exact hm
    · intro hm
      exact ⟨host, hm, eq_of_mem_hosts hw hm⟩

end Net

namespace Network

/-- The hosts that stand for a network, for a peer of version 1 only those of IPv4. -/
def Shows (v : Version) (quantity : Nat) : Network → Network → Prop
  | v4 n, v4 m => n.Shows quantity m
  | v6 n, v6 m => v ≠ .v1 ∧ n.Shows quantity m
  | _, _ => False

end Network

namespace Binding

variable {quantity : Nat} {bs : List Binding} {b : Binding}

/-- The hosts among what is left of some bindings when they are expanded. -/
theorem mem_expandAll (hb : b.net.isHost = true) :
    b ∈ expandAll quantity bs ↔ ∃ c ∈ bs, b ∈ c.expand quantity := by
  rw [expandAll]
  split
  · next hnone =>
    subst hnone
    constructor
    · intro hmem
      exact ⟨b, hmem, by simp [expand, hb]⟩
    · rintro ⟨c, hc, hexpand⟩
      rw [expand] at hexpand
      split at hexpand
      · exact List.mem_singleton.1 hexpand ▸ hc
      · cases hnet : c.net <;> simp [hnet, Network.hosts, Net.hosts] at hexpand
  · simp only [List.mem_append, List.mem_filter, List.mem_flatMap, Bool.not_eq_true']
    constructor
    · rintro (⟨hmem, -⟩ | ⟨c, ⟨hc, -⟩, hexpand⟩)
      · exact ⟨b, hmem, by simp [expand, hb]⟩
      · exact ⟨c, hc, hexpand⟩
    · rintro ⟨c, hc, hexpand⟩
      by_cases hhost : c.net.isHost = true
      · rw [expand, if_pos hhost, List.mem_singleton] at hexpand
        subst hexpand
        exact .inl ⟨hc, hb⟩
      · exact .inr ⟨c, ⟨hc, by simpa using hhost⟩, hexpand⟩

theorem exists_expand {P : Network → Prop} : (∃ c ∈ b.expand quantity, P c.net) ↔
    ∃ net ∈ if b.net.isHost then [b.net] else b.net.hosts quantity, P net := by
  rw [expand]
  split <;> simp

/-- The hosts that a binding is expanded to, as they are read. -/
theorem expand_shows {v : Version} {host : Network} :
    (∃ c ∈ b.expand quantity, c.net.isHost = true ∧ (v != .v1 || c.net.isV4) = true ∧
      c.net.rebuilt = host) ↔ b.net.Shows v quantity host := by
  rw [exists_expand (P := fun net => net.isHost = true ∧ (v != .v1 || net.isV4) = true ∧
    net.rebuilt = host)]
  cases b.net with
  | v4 n =>
    cases host with
    | v4 m =>
      rw [Network.Shows, ← Net.expanded_iff (by decide)]
      by_cases hbits : n.hostBits = 0 <;>
        simp [Network.isHost, Network.hostBits, Network.isV4, Network.rebuilt, Network.hosts, hbits]
    | v6 m =>
      by_cases hbits : n.hostBits = 0 <;>
        simp [Network.isHost, Network.hostBits, Network.rebuilt, Network.hosts, Network.Shows, hbits]
  | v6 n =>
    cases host with
    | v4 m =>
      by_cases hbits : n.hostBits = 0 <;>
        simp [Network.isHost, Network.hostBits, Network.rebuilt, Network.hosts, Network.Shows, hbits]
    | v6 m =>
      rw [Network.Shows, ← Net.expanded_iff (by decide)]
      by_cases hbits : n.hostBits = 0 <;>
        simp [Network.isHost, Network.hostBits, Network.isV4, Network.rebuilt, Network.hosts, hbits,
          and_left_comm]

end Binding

theorem MappingRecord.net_canonical (r : MappingRecord) : r.canonical.net = r.net.rebuilt := by
  cases hnet : r.net <;> simp only [canonical, hnet] <;> rfl

namespace LegacyUpdate

/-- What is told of some bindings to a peer that takes no subnets, as it is read. -/
theorem usable_shows {v : Version} (hv : v = .v1 ∨ v = .v2) {quantity : Nat} {bs : List Binding}
    {host : Network} : (∃ b ∈ usable v quantity bs, b.net.rebuilt = host) ↔
      ∃ b ∈ bs, b.net.Shows v quantity host := by
  have hsubnets : takesSubnets v = false := by
    rcases hv with rfl | rfl <;> decide
  simp only [usable, hsubnets, Bool.false_eq_true, if_false, Bool.false_or, List.mem_filter,
    Bool.and_eq_true, ← Binding.expand_shows]
  constructor
  · rintro ⟨c, ⟨hc, hfamily, hhost⟩, hread⟩
    obtain ⟨b, hb, hexpand⟩ := (Binding.mem_expandAll hhost).1 hc
    exact ⟨b, hb, c, hexpand, hhost, hfamily, hread⟩
  · rintro ⟨b, hb, c, hexpand, hhost, hfamily, hread⟩
    exact ⟨c, ⟨(Binding.mem_expandAll hhost).2 ⟨b, hb, hexpand⟩, hfamily, hhost⟩, hread⟩

/-- A withdrawal is read as a deletion. -/
theorem isAdd_deleteRecord (b : Binding) : (deleteRecord b).canonical.type.isAdd = false := by
  cases hnet : b.net <;>
    simp [MappingRecord.canonical, deleteRecord, hnet, MappingType.deleting, MappingType.isAdd]

/-- An announcement is read as an addition, with its tag. -/
theorem isAdd_addRecord {b : Binding} {r : MappingRecord} (h : addRecord b = .ok r) :
    r.canonical.type.isAdd = true ∧ r.canonical.tag ≠ none := by
  obtain ⟨tag, -, rfl⟩ := Except.map_eq_ok.1 h
  cases b.net <;> simp [MappingRecord.canonical, MappingType.adding, MappingType.isAdd]

/-- Additions are told of in their order. -/
theorem map_net_added {bs : List Binding} {records : List MappingRecord}
    (h : bs.mapM addRecord = .ok records) :
    records.map MappingRecord.net = bs.map Binding.net := by
  induction bs generalizing records with
  | nil =>
    cases h
    rfl
  | cons b bs ih =>
    rw [List.mapM_cons] at h
    obtain ⟨r, hr, h⟩ := Except.bind_eq_ok.1 h
    obtain ⟨rest, hrest, h⟩ := Except.bind_eq_ok.1 h
    cases h
    obtain ⟨tag, -, rfl⟩ := Except.map_eq_ok.1 hr
    rw [List.map_cons, List.map_cons, ih hrest]

end LegacyUpdate

/-- The tags of networks, as an observer has them that knows nothing but records. -/
abbrev Listing := Network → Option UInt16

namespace Listing

def blank : Listing := fun _ => none

/-- A deletion removes, an addition overwrites. -/
def apply (l : Listing) (r : MappingRecord) : Listing :=
  Function.update l r.net (if r.type.isAdd then r.tag.map Tag.value else none)

/-- Applies the records of a frame; there is no result if it cannot be read as a legacy update. -/
def hear (v : Version) (l : Listing) (frame : Bytes) : Option Listing :=
  match Message.ofFrame v frame with
  | .ok (.legacyUpdate _ records) => some (records.foldl apply l)
  | _ => none

def hearAll (v : Version) (l : Listing) (frames : List Bytes) : Option Listing :=
  frames.foldlM (hear v) l

def Has (l : Listing) (net : Network) : Prop := l net ≠ none

variable {l : Listing} {net : Network} {records : List MappingRecord}

theorem has_foldl_deleted (h : ∀ r ∈ records, r.type.isAdd = false) :
    (records.foldl apply l).Has net ↔ l.Has net ∧ net ∉ records.map MappingRecord.net := by
  induction records generalizing l with
  | nil => simp
  | cons r records ih =>
    have hr : r.type.isAdd = false := h r (by simp)
    rw [List.foldl_cons, ih fun r' hr' => h r' (by simp [hr'])]
    by_cases hnet : net = r.net <;> simp [Has, apply, hr, hnet]

theorem has_foldl_added (h : ∀ r ∈ records, r.type.isAdd = true ∧ r.tag ≠ none) :
    (records.foldl apply l).Has net ↔ l.Has net ∨ net ∈ records.map MappingRecord.net := by
  induction records generalizing l with
  | nil => simp
  | cons r records ih =>
    obtain ⟨hr, htag⟩ := h r (by simp)
    rw [List.foldl_cons, ih fun r' hr' => h r' (by simp [hr'])]
    by_cases hnet : net = r.net <;> simp [Has, apply, hr, hnet, htag]

variable {v : Version} {quantity : Nat} {filter : Filter} {host : Network}

open LegacyUpdate in
/-- A frame takes away the hosts of what it withdraws, and then enters those of what it announces. -/
theorem hear_carried (hv : v = .v1 ∨ v = .v2) {part : Part} {frame : Bytes}
    (h : Composer.Carries (.legacy v quantity filter) part frame)
    (hfilter : ∀ b ∈ part.2, filter b = false) (l : Listing) :
    ∃ l', l.hear v frame = some l' ∧ ∀ host, l'.Has host ↔
      (∃ b ∈ part.2, b.net.Shows v quantity host) ∨
        (l.Has host ∧ ¬∃ b ∈ part.1, b.net.Shows v quantity host) := by
  have hlegacy : v.isLegacy = true := by
    rcases hv with rfl | rfl <;> rfl
  obtain ⟨records, hrecords, hread⟩ := h.legacy hlegacy
  have hpass : (part.2.filter fun b => !filter b) = part.2 :=
    List.filter_eq_self.2 fun b hb => by rw [hfilter b hb]; rfl
  rw [LegacyUpdate.compose, hpass] at hrecords
  obtain ⟨added, hadded, hrecords⟩ := Except.bind_eq_ok.1 hrecords
  cases hrecords
  have hdeletes : ∀ r ∈ ((usable v quantity part.1).map deleteRecord).map
      MappingRecord.canonical, r.type.isAdd = false := by
    simp only [List.mem_map, forall_exists_index, and_imp, forall_apply_eq_imp_iff₂]
    exact fun b _ => isAdd_deleteRecord b
  have hadds : ∀ r ∈ added.map MappingRecord.canonical, r.type.isAdd = true ∧ r.tag ≠ none := by
    simp only [List.mem_map, forall_exists_index, and_imp, forall_apply_eq_imp_iff₂]
    intro r hr
    obtain ⟨b, -, hb⟩ := Update.exists_of_mem_mapM hadded hr
    exact isAdd_addRecord hb
  have hnets (records : List MappingRecord) (host : Network) :
      host ∈ (records.map MappingRecord.canonical).map MappingRecord.net ↔
        ∃ net ∈ records.map MappingRecord.net, net.rebuilt = host := by
    simp [MappingRecord.net_canonical]
  refine ⟨((added.map MappingRecord.canonical).foldl apply
    ((((usable v quantity part.1).map deleteRecord).map MappingRecord.canonical).foldl apply l)),
    ?_, fun host => ?_⟩
  · rw [hear, hread]
    simp [List.foldl_append]
  · rw [has_foldl_added hadds, has_foldl_deleted hdeletes, hnets, hnets, map_net_added hadded,
      List.map_map, ← usable_shows hv, ← usable_shows hv, or_comm]
    simp [deleteRecord]

theorem hearAll_carried (hv : v = .v1 ∨ v = .v2) {parts : List Part} {frames : List Bytes}
    (hcarried : List.Forall₂ (Composer.Carries (.legacy v quantity filter)) parts frames)
    (hordered : parts.Pairwise fun p q => p.2 = [] ∨ q.1 = [])
    (hfilter : ∀ part ∈ parts, ∀ b ∈ part.2, filter b = false) (l : Listing) :
    ∃ l', l.hearAll v frames = some l' ∧ ∀ host, l'.Has host ↔
      (∃ b ∈ parts.flatMap Prod.snd, b.net.Shows v quantity host) ∨
        (l.Has host ∧ ¬∃ b ∈ parts.flatMap Prod.fst, b.net.Shows v quantity host) := by
  induction hcarried generalizing l with
  | nil => exact ⟨l, rfl, by simp⟩
  | @cons part frame parts frames hframe _ ih =>
    obtain ⟨hfirst, hordered⟩ := List.pairwise_cons.1 hordered
    obtain ⟨l₁, hhear, hhas₁⟩ := hear_carried hv hframe (hfilter part (by simp)) l
    obtain ⟨l₂, hrest, hhas₂⟩ := ih hordered (fun p hp => hfilter p (by simp [hp])) l₁
    refine ⟨l₂, ?_, fun host => ?_⟩
    · rw [hearAll, List.foldlM_cons, hhear]
      exact hrest
    · have hkept : (∃ b ∈ part.2, b.net.Shows v quantity host) →
          ¬∃ b ∈ parts.flatMap Prod.fst, b.net.Shows v quantity host := by
        rintro ⟨b, hb, -⟩ ⟨c, hc, -⟩
        obtain ⟨q, hq, hc⟩ := List.mem_flatMap.1 hc
        rcases hfirst q hq with hnone | hnone
        · rw [hnone] at hb
          cases hb
        · rw [hnone] at hc
          cases hc
      have hor {α : Type} (xs ys : List α) (P : α → Prop) :
          (∃ x ∈ xs ++ ys, P x) ↔ (∃ x ∈ xs, P x) ∨ ∃ y ∈ ys, P y := by
        simp [or_and_right, exists_or]
      rw [hhas₂, hhas₁, List.flatMap_cons, List.flatMap_cons, hor, hor]
      by_cases hadded : ∃ b ∈ part.2, b.net.Shows v quantity host
      · simp only [hadded, hkept hadded, true_or, not_false_eq_true, and_self, or_true]
      · simp only [hadded, false_or, not_or, and_assoc]

end Listing

namespace Table

variable {v : Version} {quantity : Nat} {host : Network}

/-- The hosts that stand for the networks of a table. -/
def Shows (v : Version) (quantity : Nat) (t : Table) (host : Network) : Prop :=
  ∃ b ∈ t.bindings, b.net.Shows v quantity host

/-- An export after another. -/
structure Stage where
  old : Table
  next : Table

namespace Stage

/-- A network with the host is withdrawn. -/
def Withdraws (v : Version) (quantity : Nat) (s : Stage) (host : Network) : Prop :=
  ∃ b ∈ s.old.bindings, s.next[b.net]? = none ∧ b.net.Shows v quantity host

/-- A network with the host is new or changed. -/
def Announces (v : Version) (quantity : Nat) (s : Stage) (host : Network) : Prop :=
  ∃ b ∈ s.next.bindings, s.old[b.net]? ≠ some b ∧ b.net.Shows v quantity host

end Stage

/-- The exports of some tables, one after the other. -/
def stages (old : Table) : List Table → List Stage
  | [] => []
  | next :: rest => ⟨old, next⟩ :: stages next rest

/-- The table exported last. -/
def newest (old : Table) (tables : List Table) : Table := tables.getLast?.getD old

theorem stages_concat (old next : Table) (tables : List Table) :
    stages old (tables ++ [next]) = stages old tables ++ [⟨newest old tables, next⟩] := by
  induction tables generalizing old with
  | nil => rfl
  | cons t tables ih =>
    rw [List.cons_append, stages, stages, ih, newest, newest, List.getLast?_cons]
    rfl

/-- A host that went with a network and has not been announced since. -/
def Lost (v : Version) (quantity : Nat) (stages : List Stage) (host : Network) : Prop :=
  ∃ front s back, stages = front ++ s :: back ∧ s.Withdraws v quantity host ∧
    ∀ t ∈ s :: back, ¬t.Announces v quantity host

theorem lost_concat {stages : List Stage} {s : Stage} :
    Lost v quantity (stages ++ [s]) host ↔ ¬s.Announces v quantity host ∧
      (s.Withdraws v quantity host ∨ Lost v quantity stages host) := by
  rw [Lost, exists_split_concat, and_or_left]
  apply or_congr
  · simp [and_comm]
  · constructor
    · rintro ⟨front, t, back, hsplit, hwithdraws, hsince⟩
      exact ⟨hsince s (by simp), front, t, back, hsplit, hwithdraws,
        fun u hu => hsince u (List.mem_append_left [s] hu)⟩
    · rintro ⟨hnot, front, t, back, hsplit, hwithdraws, hsince⟩
      refine ⟨front, t, back, hsplit, hwithdraws, fun u hu => ?_⟩
      rw [← List.cons_append, List.mem_append, List.mem_singleton] at hu
      rcases hu with hu | rfl
      · exact hsince u hu
      · exact hnot

/-- A host of the new table that is not announced was in the old one. -/
theorem Stage.shows_old {s : Stage} (hold : s.old.Filed) (h : s.next.Shows v quantity host)
    (hnot : ¬s.Announces v quantity host) : s.old.Shows v quantity host := by
  obtain ⟨b, hb, hshows⟩ := h
  have hsame : s.old[b.net]? = some b := by
    by_contra hdiffers
    exact hnot ⟨b, hb, hdiffers, hshows⟩
  exact ⟨b, hold.mem_bindings.2 hsame, hshows⟩

/-- A host of the old table that is not withdrawn is in the new one. -/
theorem Stage.shows_next {s : Stage} (hnext : s.next.Filed) (h : s.old.Shows v quantity host)
    (hnot : ¬s.Withdraws v quantity host) : s.next.Shows v quantity host := by
  obtain ⟨b, hb, hshows⟩ := h
  cases hget : s.next[b.net]? with
  | none => exact absurd ⟨b, hb, hget, hshows⟩ hnot
  | some c =>
    have hnet := hnext b.net c hget
    refine ⟨c, mem_bindings.2 ⟨b.net, hget⟩, ?_⟩
    rw [hnet]
    exact hshows

/-- What is shown and not lost, after one more export. -/
theorem shows_and_not_lost {stages : List Stage} {s : Stage} (hold : s.old.Filed)
    (hnext : s.next.Filed) : s.next.Shows v quantity host ∧ ¬Lost v quantity (stages ++ [s]) host ↔
      s.Announces v quantity host ∨ ((s.old.Shows v quantity host ∧
        ¬Lost v quantity stages host) ∧ ¬s.Withdraws v quantity host) := by
  rw [lost_concat]
  by_cases hannounces : s.Announces v quantity host
  · have hshows : s.next.Shows v quantity host := by
      obtain ⟨b, hb, -, hshows⟩ := hannounces
      exact ⟨b, hb, hshows⟩
    simp [hannounces, hshows]
  · constructor
    · rintro ⟨hshows, hnot⟩
      rw [not_and, not_or] at hnot
      obtain ⟨hkept, hnot⟩ := hnot hannounces
      exact .inr ⟨⟨Stage.shows_old hold hshows hannounces, hnot⟩, hkept⟩
    · rintro (hann | ⟨⟨hshows, hnot⟩, hkept⟩)
      · exact absurd hann hannounces
      · exact ⟨Stage.shows_next hnext hshows hkept, fun hlost => hlost.2.elim hkept hnot⟩

end Table

namespace Node

/-- A speaker of version 1 or 2 that is on. -/
structure Expanding (n : Node) : Prop where
  phase : n.conn.phase = .on
  mode : n.conn.mode.isSpeaker = true
  version : n.conn.version = .v1 ∨ n.conn.version = .v2
  filed : n.conn.advertised.Filed

/-- A node after it has sent some frames, still with the same peer. -/
structure Sends (n : Node) (frames : List Bytes) (n' : Node) : Prop where
  expanding : n'.Expanding
  version : n'.conn.version = n.conn.version
  remoteId : n'.conn.remoteId = n.conn.remoteId
  config : n'.conn.config = n.conn.config
  sent : n'.conn.line.sent = n.conn.line.sent ++ frames

theorem Sends.trans {n₁ n₂ n₃ : Node} {frames frames' : List Bytes} (h : n₁.Sends frames n₂)
    (h' : n₂.Sends frames' n₃) : n₁.Sends (frames ++ frames') n₃ where
  expanding := h'.expanding
  version := h'.version.trans h.version
  remoteId := h'.remoteId.trans h.remoteId
  config := h'.config.trans h.config
  sent := by rw [h'.sent, h.sent, List.append_assoc]

/-- One export: the peer enters what is announced, and drops before that what is withdrawn. -/
theorem Expanding.export {n n' : Node} (h : n.Expanding) {db : Database}
    (hexport : n.export? db = some n') (l : Listing) : ∃ frames l', n.Sends frames n' ∧
      n'.conn.advertised = db.table.visible n.conn.remoteId ∧
      l.hearAll n.conn.version frames = some l' ∧
      ∀ host, l'.Has host ↔
        Table.Stage.Announces n.conn.version n.conn.config.expansionQuantity
          ⟨n.conn.advertised, n'.conn.advertised⟩ host ∨
        (l.Has host ∧ ¬Table.Stage.Withdraws n.conn.version n.conn.config.expansionQuantity
          ⟨n.conn.advertised, n'.conn.advertised⟩ host) := by
  obtain ⟨frames, line, hframes, hextends, rfl⟩ := export?_eq_some h.phase h.mode hexport
  have hlegacy : n.conn.version.isLegacy = true := by
    rcases h.version with hv | hv <;> rw [hv] <;> rfl
  rw [Node.Exports, Connection.composer, if_pos hlegacy] at hframes
  obtain ⟨parts, hdelete, hadd, hcarried, hordered⟩ := Composer.frames_parts_ordered hframes
  have hfilter : ∀ part ∈ parts, ∀ b ∈ part.2, n.conn.holdsBack b = false := by
    intro part hpart b hb
    have hmem : b ∈ parts.flatMap Prod.snd := List.mem_flatMap.2 ⟨part, hpart, hb⟩
    rw [hadd] at hmem
    have hexported := (Exports.mem_add.1 hmem).1
    simpa using (List.mem_filter.1 (Table.mem_ofBindings hexported)).2
  obtain ⟨l', hl', hhas⟩ := Listing.hearAll_carried h.version hcarried hordered hfilter l
  refine ⟨frames, l', ⟨⟨h.phase, h.mode, h.version, Table.Filed.ofBindings _⟩, rfl, ?_, rfl,
    hextends.sent⟩, rfl, hl', fun host => ?_⟩
  · rw [Connection.remoteId, Connection.remoteId, hextends.peer]
  · rw [hhas, hdelete, hadd]
    simp only [Exports.mem_add, Exports.mem_delete, and_assoc]
    rfl

/-- By induction on the contents: after every export the peer has what is shown and not lost. -/
theorem Expanding.exports {n n' : Node} (h : n.Expanding) (hblank : n.conn.advertised = ∅)
    {contents : List Database} (hrun : n.exports? contents = some n') :
    ∃ frames l, n.Sends frames n' ∧
      n'.conn.advertised =
        Table.newest ∅ (contents.map fun db => db.table.visible n.conn.remoteId) ∧
      Listing.blank.hearAll n.conn.version frames = some l ∧
      ∀ host, l.Has host ↔
        n'.conn.advertised.Shows n.conn.version n.conn.config.expansionQuantity host ∧
          ¬Table.Lost n.conn.version n.conn.config.expansionQuantity
            (Table.stages ∅ (contents.map fun db => db.table.visible n.conn.remoteId)) host := by
  induction contents using List.reverseRecOn generalizing n' with
  | nil =>
    cases hrun
    refine ⟨[], Listing.blank, ⟨h, rfl, rfl, rfl, by simp⟩, hblank, rfl, fun host => ?_⟩
    simp [Listing.Has, Listing.blank, hblank, Table.Shows, Table.mem_bindings]
  | append_singleton contents db ih =>
    rw [exports?, List.foldlM_append] at hrun
    obtain ⟨n₁, hfront, hrun⟩ := Option.bind_eq_some_iff.1 hrun
    obtain ⟨n₂, hexport, hend⟩ := Option.bind_eq_some_iff.1 hrun
    cases hend
    obtain ⟨frames, l, hsends, hadvertised, hl, hhas⟩ := ih hfront
    obtain ⟨frames', l', hsends', hadvertised', hl', hhas'⟩ := hsends.expanding.export hexport l
    rw [hsends.remoteId] at hadvertised'
    rw [hsends.version] at hl'
    refine ⟨frames ++ frames', l', hsends.trans hsends', ?_, ?_, fun host => ?_⟩
    · rw [hadvertised', Table.newest, List.map_append, List.map_singleton, List.getLast?_concat]
      rfl
    · rw [Listing.hearAll, List.foldlM_append, ← Listing.hearAll, hl]
      exact hl'
    · rw [hhas', hhas, hsends.version, hsends.config, List.map_append, List.map_singleton,
        Table.stages_concat, ← hadvertised, ← hadvertised',
        Table.shows_and_not_lost (s := ⟨n₁.conn.advertised, n'.conn.advertised⟩)
          hsends.expanding.filed hsends'.expanding.filed]

/-- Whatever contents the database takes on, a peer that keeps a listing from the records has after
every export exactly the hosts that stand for what is exported, without those that went with a
network and have not been announced since. -/
theorem exports_shown {n n' : Node} (h : n.Expanding) (hblank : n.conn.advertised = ∅)
    {contents : List Database} {last : Database}
    (hrun : n.exports? (contents ++ [last]) = some n') :
    ∃ frames l, n'.conn.line.sent = n.conn.line.sent ++ frames ∧
      Listing.blank.hearAll n.conn.version frames = some l ∧
      ∀ host, l.Has host ↔
        (last.table.visible n.conn.remoteId).Shows n.conn.version n.conn.config.expansionQuantity
          host ∧
        ¬Table.Lost n.conn.version n.conn.config.expansionQuantity
          (Table.stages ∅ ((contents ++ [last]).map fun db => db.table.visible n.conn.remoteId))
          host := by
  obtain ⟨frames, l, hsends, hadvertised, hl, hhas⟩ := h.exports hblank hrun
  have hlast : n'.conn.advertised = last.table.visible n.conn.remoteId := by
    rw [hadvertised, Table.newest, List.map_append, List.map_singleton, List.getLast?_concat]
    rfl
  exact ⟨frames, l, hsends.sent, hl, fun host => hlast ▸ hhas host⟩

/-- A speaker of version 2 right after the handshake, which expands subnets to four hosts. -/
def expander : Node where
  conn :=
    { line := { peer := { address := .v4 0x0a000002, port := 64999 } }, mode := .speaker
      phase := .on, version := .v2, localId := 0x0a000001, remoteNodeId := some 0x0a000002
      config := { expansionQuantity := 4 } }
  db := {}

def subnet : Binding := ⟨.v4 ⟨0x0a000000, 30⟩, 10, [], ⟨10, 0⟩⟩

/-- One of the hosts of the subnet. -/
def inside : Binding := ⟨.v4 ⟨0x0a000001, 32⟩, 20, [], ⟨10, 0⟩⟩

def holding (bs : List Binding) : Database := { table := .ofBindings bs }

/-- The speaker after it has sent frames and exported bindings. -/
def expanderWith (sent : List Bytes) (bs : List Binding) : Node where
  conn := { expander.conn with line.sent := sent, advertised := .ofBindings bs }
  db := holding bs

/-- The host is exported, then the subnet too; after that the host is withdrawn. -/
def narrowing : List Database := [holding [inside], holding [subnet, inside]]

theorem run_narrowing : ∃ n', expander.exports? (narrowing ++ [holding [subnet]]) = some n' := by
  obtain ⟨m₁, f₁, hm₁, hf₁⟩ : ∃ m f, expander.conn.composer .v2 [] [inside] = .ok m ∧
      m.frame = .ok f := ⟨_, _, rfl, rfl⟩
  obtain ⟨m₂, f₂, hm₂, hf₂⟩ : ∃ m f, expander.conn.composer .v2 [] [subnet] = .ok m ∧
      m.frame = .ok f := ⟨_, _, rfl, rfl⟩
  obtain ⟨m₃, f₃, hm₃, hf₃⟩ : ∃ m f, expander.conn.composer .v2 [inside] [] = .ok m ∧
      m.frame = .ok f := ⟨_, _, rfl, rfl⟩
  have h₁ : expander.export? (holding [inside]) = some (expanderWith [f₁] [inside]) :=
    export?_of_exports rfl rfl ⟨rfl, rfl⟩ (exports_single rfl rfl hm₁ hf₁)
  have h₂ : (expanderWith [f₁] [inside]).export? (holding [subnet, inside]) =
      some (expanderWith [f₁, f₂] [subnet, inside]) :=
    export?_of_exports rfl rfl ⟨rfl, rfl⟩ (exports_single rfl rfl hm₂ hf₂)
  have h₃ : (expanderWith [f₁, f₂] [subnet, inside]).export? (holding [subnet]) =
      some (expanderWith [f₁, f₂, f₃] [subnet]) :=
    export?_of_exports rfl rfl ⟨rfl, rfl⟩ (exports_deletion rfl rfl hm₃ hf₃)
  refine ⟨expanderWith [f₁, f₂, f₃] [subnet], ?_⟩
  show (expander.export? (holding [inside]) >>= fun n => n.export? (holding [subnet, inside]) >>=
    fun n => n.export? (holding [subnet]) >>= some) = _
  rw [h₁, Option.bind_eq_bind, Option.bind_some, h₂, Option.bind_some, h₃]
  rfl

theorem expander_expanding : expander.Expanding :=
  ⟨rfl, rfl, .inr rfl, Table.Filed.empty⟩

theorem subnet_shows : subnet.net.Shows .v2 4 inside.net :=
  Net.shows_of_lt (n := (⟨0x0a000000, 30⟩ : Net 32)) (i := 1) (by decide) (by decide) (by decide)

theorem inside_shown : (Table.ofBindings [subnet]).Shows .v2 4 inside.net :=
  ⟨subnet, Table.mem_bindings.2 ⟨subnet.net, by decide +kernel⟩, subnet_shows⟩

/-- The host went with its own network, and the subnet was announced before. -/
theorem inside_lost : Table.Lost .v2 4
    (Table.stages ∅ [.ofBindings [inside], .ofBindings [subnet, inside], .ofBindings [subnet]])
    inside.net := by
  refine ⟨[⟨∅, .ofBindings [inside]⟩, ⟨.ofBindings [inside], .ofBindings [subnet, inside]⟩],
    ⟨.ofBindings [subnet, inside], .ofBindings [subnet]⟩, [], rfl, ?_, ?_⟩
  · exact ⟨inside, Table.mem_bindings.2 ⟨inside.net, by decide +kernel⟩, by decide +kernel,
      Net.shows_self (n := (⟨0x0a000001, 32⟩ : Net 32)) (by decide)⟩
  · intro t ht
    obtain rfl := List.mem_singleton.1 ht
    rintro ⟨b, hb, hdiffers, -⟩
    obtain rfl := List.mem_singleton.1 (Table.mem_ofBindings hb)
    exact hdiffers (by decide +kernel)

theorem exports_shown_narrowing : expander.Expanding ∧ expander.conn.advertised = ∅ ∧
    ∃ n' frames l, expander.exports? (narrowing ++ [holding [subnet]]) = some n' ∧
      n'.conn.line.sent = frames ∧ Listing.blank.hearAll .v2 frames = some l ∧
      ¬l.Has inside.net := by
  obtain ⟨n', hrun⟩ := run_narrowing
  obtain ⟨frames, l, hsent, hl, hhas⟩ := exports_shown expander_expanding rfl hrun
  refine ⟨expander_expanding, rfl, n', frames, l, hrun, hsent, hl, fun hin => ?_⟩
  exact ((hhas _).1 hin).2 inside_lost

/-- The subnet is exported, and the peer does not have its host. -/
theorem narrowing_loses_host : expander.Expanding ∧ expander.conn.advertised = ∅ ∧
    ∃ n' l, expander.exports? (narrowing ++ [holding [subnet]]) = some n' ∧
      Listing.blank.hearAll .v2 n'.conn.line.sent = some l ∧
      ((holding [subnet]).table.visible expander.conn.remoteId).Shows .v2 4 inside.net ∧
      ¬l.Has inside.net := by
  obtain ⟨n', hrun⟩ := run_narrowing
  obtain ⟨frames, l, hsends, -, hl, hhas⟩ := expander_expanding.exports rfl hrun
  refine ⟨expander_expanding, rfl, n', l, hrun, ?_, inside_shown, fun hin => ?_⟩
  · rw [hsends.sent]
    exact hl
  · exact ((hhas _).1 hin).2 inside_lost

end Node

end TagExchange
