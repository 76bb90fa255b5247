import TagExchange.Proofs.Database.Batches

/-!
# A purge with batches in the middle

A purge looks which networks are held from the peer, gives up its lock, and takes out in a second
section what is held from the peer under these networks. Batches may come in between. Each network
ends up as if the purge had been one step, at the look or at the taking, but not all of them at the
same of the two: what the peer brings in between is taken out where it had a binding at the look,
and stays elsewhere (`Database.purgeAmid_exact`). So the table need not be that of any order in
which the purge is one step (`Database.purge_torn`).

A purge shows in the end where it takes out a binding that is missed (`Binding.Missed`): no later
candidate takes the network from it, and none brings it again.
-/

namespace TagExchange

namespace Binding

variable {b c : Binding} {line : List Binding}

/-- Nobody in the line takes the network from its holder, and the line does not leave the holder
by itself. -/
def Missed (b : Binding) (line : List Binding) : Prop :=
  (∀ c ∈ line, c.supersedes (some b) = false) ∧ foremost line ≠ some b

/-- A holder who loses the network plays no part in what the line leaves. -/
theorem foremost_cons_of_supersedes (hc : c ∈ line) (hcb : c.supersedes (some b) = true) :
    foremost (b :: line) = foremost line := by
  cases ha : foremost line with
  | none =>
    rw [foremost_eq_none_iff] at ha
    simp [ha] at hc
  | some a =>
    obtain ⟨hunbeaten, front, back, hline, hfront⟩ := foremost_eq_some_iff.1 ha
    refine foremost_eq_some_iff.2 ⟨?_, b :: front, back, by simp [hline], ?_⟩
    · intro d hd
      rcases List.mem_cons.1 hd with rfl | hd
      · by_contra hda
        have hca := supersedes_trans hcb (Bool.eq_true_of_not_eq_false hda)
        rw [hunbeaten c hc] at hca
        cases hca
      · exact hunbeaten d hd
    · intro d hd
      rcases List.mem_cons.1 hd with rfl | hd
      · exact ⟨c, List.mem_cons_of_mem _ hc, hcb⟩
      · obtain ⟨e, he, hed⟩ := hfront d hd
        exact ⟨e, List.mem_cons_of_mem _ he, hed⟩

/-- Taking out the holder before a line makes no difference after it, unless he is missed. -/
theorem foldl_contend_none_eq_iff :
    line.foldl contend none = line.foldl contend (some b) ↔ ¬ Missed b line := by
  rw [foldl_contend, foldl_contend_holder]
  show foremost line = foremost (b :: line) ↔ _
  by_cases hbeaten : ∃ c ∈ line, c.supersedes (some b) = true
  · obtain ⟨c, hc, hcb⟩ := hbeaten
    rw [foremost_cons_of_supersedes hc hcb]
    refine iff_of_true rfl fun hmissed => ?_
    rw [hmissed.1 c hc] at hcb
    cases hcb
  · have hunbeaten : ∀ c ∈ line, c.supersedes (some b) = false := by
      intro c hc
      by_contra hcb
      exact hbeaten ⟨c, hc, Bool.eq_true_of_not_eq_false hcb⟩
    have hfirst : foremost (b :: line) = some b := by
      refine foremost_cons fun c hc => ?_
      rcases List.mem_cons.1 hc with rfl | hc
      · exact not_supersedes_self c
      · exact hunbeaten c hc
    rw [hfirst]
    constructor
    · intro hline hmissed
      exact hmissed.2 hline
    · intro hnot
      by_contra hline
      exact hnot ⟨hunbeaten, hline⟩

/-- What is left of a holder when everything learned from the peer goes. -/
def spared (peer : NodeId) (holder : Option Binding) : Option Binding :=
  holder.filter fun b => !(b.learnedFrom == some peer)

theorem spared_some_of_learnedFrom {peer : NodeId} (h : b.learnedFrom = some peer) :
    spared peer (some b) = none := by
  simp [spared, Option.filter_some, h]

theorem spared_eq_self {peer : NodeId} {holder : Option Binding}
    (h : ∀ b, holder = some b → b.learnedFrom ≠ some peer) : spared peer holder = holder := by
  cases holder with
  | none => rfl
  | some b => simp [spared, Option.filter_some, h b rfl]

end Binding

open Binding

namespace Database

variable {db out serial : Database} {peer : NodeId} {n : Network}
  {before between after front back : List (List Binding)}

/-- A purge in two sections, with batches before, between and after them. -/
def purgeAmid (db : Database) (peer : NodeId) (before between after : List (List Binding)) :
    Except StoreError Database := do
  let looked ← db.addAll before
  let reached ← looked.addAll between
  let taken ← (reached.deleteFrom peer (looked.learnedFrom peer)).map Prod.snd
  taken.addAll after

/-- A purge as one step between two batches. -/
def purgeAt (db : Database) (peer : NodeId) (front back : List (List Binding)) :
    Except StoreError Database := do
  let reached ← db.addAll front
  let taken ← (reached.purge peer).map Prod.snd
  taken.addAll back

/-- With nothing between its sections a purge is one step. -/
theorem purgeAmid_nil (db : Database) (peer : NodeId) (front back : List (List Binding)) :
    db.purgeAmid peer front [] back = db.purgeAt peer front back := rfl

/-- Who holds the network after the batches. -/
def holderAfter (db : Database) (batches : List (List Binding)) (n : Network) : Option Binding :=
  (candidates batches.flatten n).foldl contend db.table[n]?

theorem holderAfter_append (db : Database) (front back : List (List Binding)) (n : Network) :
    db.holderAfter (front ++ back) n =
      (candidates back.flatten n).foldl contend (db.holderAfter front n) := by
  rw [holderAfter, List.flatten_append, candidates_append, List.foldl_append]
  rfl

/-- The network is held from the peer after the batches. -/
def HeldFrom (db : Database) (peer : NodeId) (batches : List (List Binding)) (n : Network) : Prop :=
  ∃ b, db.holderAfter batches n = some b ∧ b.learnedFrom = some peer

/-- What a purge after the front batches takes out here is missed after the back ones. -/
def Misses (db : Database) (peer : NodeId) (front back : List (List Binding)) (n : Network) :
    Prop :=
  ∃ b, db.holderAfter front n = some b ∧ b.learnedFrom = some peer ∧
    Missed b (candidates back.flatten n)

theorem Misses.heldFrom (h : db.Misses peer front back n) : db.HeldFrom peer front n := by
  obtain ⟨b, hb, hpeer, -⟩ := h
  exact ⟨b, hb, hpeer⟩

theorem mem_learnedFrom_addAll {looked : Database} (hfiled : db.table.Filed)
    (h : db.addAll before = .ok looked) :
    n ∈ looked.learnedFrom peer ↔ db.HeldFrom peer before n := by
  have hlooked := filed_addAll h hfiled
  rw [mem_learnedFrom, HeldFrom, holderAfter, ← getElem?_addAll h]
  constructor
  · rintro ⟨b, hb, hpeer, rfl⟩
    exact ⟨b, hlooked.mem_bindings.1 hb, hpeer⟩
  · rintro ⟨b, hb, hpeer⟩
    exact ⟨b, Table.mem_bindings.2 ⟨n, hb⟩, hpeer, hlooked n b hb⟩

theorem getElem?_purgeAt (hfiled : db.table.Filed) (h : db.purgeAt peer front back = .ok serial)
    (n : Network) : serial.table[n]? =
      (candidates back.flatten n).foldl contend (spared peer (db.holderAfter front n)) := by
  obtain ⟨reached, hfront, h⟩ := Except.bind_eq_ok.1 h
  obtain ⟨taken, hmap, hback⟩ := Except.bind_eq_ok.1 h
  obtain ⟨⟨purged, taken⟩, hpurge, rfl⟩ := Except.map_eq_ok.1 hmap
  rw [getElem?_addAll hback, getElem?_purge hpurge (filed_addAll hfront hfiled),
    getElem?_addAll hfront]
  rfl

/-- The second section takes out what is held from the peer by then, if it was so at the look. -/
theorem getElem?_purgeAmid (hfiled : db.table.Filed)
    (h : db.purgeAmid peer before between after = .ok out) (n : Network) :
    (db.HeldFrom peer before n → out.table[n]? = (candidates after.flatten n).foldl contend
      (spared peer (db.holderAfter (before ++ between) n))) ∧
    (¬ db.HeldFrom peer before n →
      out.table[n]? = db.holderAfter (before ++ between ++ after) n) := by
  obtain ⟨looked, hbefore, h⟩ := Except.bind_eq_ok.1 h
  obtain ⟨reached, hbetween, h⟩ := Except.bind_eq_ok.1 h
  obtain ⟨taken, hmap, hafter⟩ := Except.bind_eq_ok.1 h
  obtain ⟨⟨doomed, taken⟩, htake, rfl⟩ := Except.map_eq_ok.1 hmap
  have hlooked := filed_addAll hbefore hfiled
  have hreached := filed_addAll hbetween hlooked
  have hholder : reached.table[n]? = db.holderAfter (before ++ between) n := by
    rw [getElem?_addAll hbetween, getElem?_addAll hbefore, holderAfter_append]
    rfl
  have hlisted : n ∈ looked.learnedFrom peer ↔ db.HeldFrom peer before n :=
    mem_learnedFrom_addAll hfiled hbefore
  rw [getElem?_addAll hafter, getElem?_deleteWhere htake hreached, hholder]
  constructor
  · intro hheld
    simp [hlisted.2 hheld, spared]
  · intro hheld
    have hnot : n ∉ looked.learnedFrom peer := fun hmem => hheld (hlisted.1 hmem)
    rw [holderAfter_append db (before ++ between)]
    cases db.holderAfter (before ++ between) n <;> simp [hnot, Option.filter_some]

/-- A purge as one step shows in the end where it is missed what it takes out. -/
theorem purgeAt_shows_iff (hfiled : db.table.Filed)
    (h : db.purgeAt peer front back = .ok serial) (n : Network) :
    serial.table[n]? = db.holderAfter (front ++ back) n ↔ ¬ db.Misses peer front back n := by
  rw [getElem?_purgeAt hfiled h, holderAfter_append]
  by_cases hheld : db.HeldFrom peer front n
  · obtain ⟨b, hb, hpeer⟩ := hheld
    rw [hb, spared_some_of_learnedFrom hpeer, foldl_contend_none_eq_iff, Misses, hb]
    simp [hpeer]
  · have hspared : spared peer (db.holderAfter front n) = db.holderAfter front n :=
      spared_eq_self fun b hb hpeer => hheld ⟨b, hb, hpeer⟩
    rw [hspared]
    exact iff_of_true rfl fun hmisses => hheld hmisses.heldFrom

/-- Where the binding is missed, the later candidates have the network to themselves. -/
theorem getElem?_purgeAt_of_misses (hfiled : db.table.Filed)
    (h : db.purgeAt peer front back = .ok serial) (hmisses : db.Misses peer front back n) :
    serial.table[n]? = foremost (candidates back.flatten n) := by
  obtain ⟨b, hb, hpeer, -⟩ := hmisses
  rw [getElem?_purgeAt hfiled h, hb, spared_some_of_learnedFrom hpeer, foldl_contend]

theorem purgeAmid_ok (haccepts : db.store.Accepts) (peer : NodeId)
    (before between after : List (List Binding)) :
    ∃ out, db.purgeAmid peer before between after = .ok out := by
  obtain ⟨looked, hbefore, haccepts⟩ := addAll_ok haccepts before
  obtain ⟨reached, hbetween, haccepts⟩ := addAll_ok haccepts between
  obtain ⟨doomed, taken, htake, haccepts⟩ := deleteWhere_of_accepts haccepts
    (fun b => b.learnedFrom == some peer) (looked.learnedFrom peer)
  obtain ⟨out, hafter, -⟩ := addAll_ok haccepts after
  refine ⟨out, Except.bind_eq_ok.2 ⟨looked, hbefore, Except.bind_eq_ok.2 ⟨reached, hbetween,
    Except.bind_eq_ok.2 ⟨taken, ?_, hafter⟩⟩⟩⟩
  exact Except.map_eq_ok.2 ⟨_, htake, rfl⟩

theorem purgeAt_ok (haccepts : db.store.Accepts) (peer : NodeId)
    (front back : List (List Binding)) : ∃ serial, db.purgeAt peer front back = .ok serial := by
  simpa only [purgeAmid_nil] using purgeAmid_ok haccepts peer front [] back

section

variable {early late : Database} (hfiled : db.table.Filed)
  (hamid : db.purgeAmid peer before between after = .ok out)

include hfiled hamid

/-- A network that is found at the look ends up as if the purge had been one step at the taking. -/
theorem getElem?_purgeAmid_of_heldFrom
    (hlate : db.purgeAt peer (before ++ between) after = .ok late)
    (hheld : db.HeldFrom peer before n) : out.table[n]? = late.table[n]? := by
  rw [(getElem?_purgeAmid hfiled hamid n).1 hheld, getElem?_purgeAt hfiled hlate]

/-- Any other network ends up as if it had been one step at the look. -/
theorem getElem?_purgeAmid_of_not_heldFrom
    (hearly : db.purgeAt peer before (between ++ after) = .ok early)
    (hheld : ¬ db.HeldFrom peer before n) : out.table[n]? = early.table[n]? := by
  have hshown := (purgeAt_shows_iff hfiled hearly n).2 fun hmisses => hheld hmisses.heldFrom
  rw [(getElem?_purgeAmid hfiled hamid n).2 hheld, hshown, List.append_assoc]

theorem purgeAmid_shows_iff (hlate : db.purgeAt peer (before ++ between) after = .ok late)
    (n : Network) : out.table[n]? = db.holderAfter (before ++ between ++ after) n ↔
      ¬ (db.HeldFrom peer before n ∧ db.Misses peer (before ++ between) after n) := by
  by_cases hheld : db.HeldFrom peer before n
  · rw [getElem?_purgeAmid_of_heldFrom hfiled hamid hlate hheld, purgeAt_shows_iff hfiled hlate]
    simp [hheld]
  · rw [(getElem?_purgeAmid hfiled hamid n).2 hheld]
    simp [hheld]

/-- The purge in two sections and the one as a step agree about a network when it shows in the end
in both or in neither, and the candidates that have the network to themselves then leave the
same. -/
theorem getElem?_eq_iff (hlate : db.purgeAt peer (before ++ between) after = .ok late)
    (hserial : db.purgeAt peer front back = .ok serial)
    (hsplit : front ++ back = before ++ between ++ after) (n : Network) :
    out.table[n]? = serial.table[n]? ↔
      (db.Misses peer front back n ↔
        db.HeldFrom peer before n ∧ db.Misses peer (before ++ between) after n) ∧
      (db.Misses peer front back n →
        foremost (candidates back.flatten n) = foremost (candidates after.flatten n)) := by
  have hout := purgeAmid_shows_iff hfiled hamid hlate n
  have hstep := purgeAt_shows_iff hfiled hserial n
  rw [← hsplit] at hout
  by_cases hmisses : db.Misses peer front back n
  · have hleft := getElem?_purgeAt_of_misses hfiled hserial hmisses
    have hdiffers : serial.table[n]? ≠ db.holderAfter (front ++ back) n :=
      fun h => hstep.1 h hmisses
    by_cases hshows : db.HeldFrom peer before n ∧ db.Misses peer (before ++ between) after n
    · rw [getElem?_purgeAmid_of_heldFrom hfiled hamid hlate hshows.1,
        getElem?_purgeAt_of_misses hfiled hlate hshows.2, hleft]
      simp only [hmisses, hshows, true_and, forall_const, and_self]
      exact eq_comm
    · rw [hout.2 hshows]
      refine iff_of_false hdiffers.symm fun h => hshows (h.1.1 hmisses)
  · rw [hstep.2 hmisses, hout]
    simp [hmisses]

end

/-- A purge succeeds over a store that takes every write, with batches between its sections or with
none. Each network ends up as if the purge had been one step, at the taking when it was held from
the peer at the look, and at the look when it was not. The whole table is that of an order in which
the purge is one step exactly when under every network it shows in both or in neither, and where it
does, the candidates after the step leave the same as those after the taking. -/
theorem purgeAmid_exact (hfiled : db.table.Filed) (haccepts : db.store.Accepts) (peer : NodeId)
    (before between after : List (List Binding)) :
    ∃ out early late : Database,
      db.purgeAmid peer before between after = .ok out ∧
      db.purgeAt peer before (between ++ after) = .ok early ∧
      db.purgeAt peer (before ++ between) after = .ok late ∧
      (∀ n : Network,
        (db.HeldFrom peer before n → out.table[n]? = late.table[n]?) ∧
        (¬ db.HeldFrom peer before n → out.table[n]? = early.table[n]?)) ∧
      ∀ front back, front ++ back = before ++ between ++ after →
        ∃ serial, db.purgeAt peer front back = .ok serial ∧
          (out.table = serial.table ↔ ∀ n : Network,
            (db.Misses peer front back n ↔
              db.HeldFrom peer before n ∧ db.Misses peer (before ++ between) after n) ∧
            (db.Misses peer front back n →
              foremost (candidates back.flatten n) = foremost (candidates after.flatten n))) := by
  obtain ⟨out, hamid⟩ := purgeAmid_ok haccepts peer before between after
  obtain ⟨early, hearly⟩ := purgeAt_ok haccepts peer before (between ++ after)
  obtain ⟨late, hlate⟩ := purgeAt_ok haccepts peer (before ++ between) after
  refine ⟨out, early, late, hamid, hearly, hlate, fun n => ⟨?_, ?_⟩, fun front back hsplit => ?_⟩
  · exact getElem?_purgeAmid_of_heldFrom hfiled hamid hlate
  · exact getElem?_purgeAmid_of_not_heldFrom hfiled hamid hearly
  · obtain ⟨serial, hserial⟩ := purgeAt_ok haccepts peer front back
    refine ⟨serial, hserial, Std.ExtTreeMap.ext_getElem?_iff.trans (forall_congr' fun n => ?_)⟩
    exact getElem?_eq_iff hfiled hamid hlate hserial hsplit n

def ten : Network := .v4 ⟨0x0A000000, 8⟩
def eleven : Network := .v4 ⟨0x0B000000, 8⟩

/-- What the peer 9 says of a network, at a time. -/
def told (net : Network) (seconds : Int) : Binding := ⟨net, 7, [9], ⟨seconds, 0⟩⟩

/-- The peer has brought one network. In one batch it renews it and brings another. -/
def renewing : Database := { table := .ofBindings [told ten 10] }
def renewal : List (List Binding) := [[told ten 20, told eleven 20]]

theorem heldFrom_ten : renewing.HeldFrom 9 [] ten := ⟨told ten 10, by decide +kernel, rfl⟩

theorem not_heldFrom_eleven : ¬ renewing.HeldFrom 9 [] eleven := by
  rintro ⟨b, hb, -⟩
  have hnone : renewing.holderAfter [] eleven = none := by decide +kernel
  rw [hnone] at hb
  cases hb

theorem purgeAmid_exact_renewal : renewing.table.Filed ∧ renewing.store.Accepts ∧
    ∃ out early late : Database,
      renewing.purgeAmid 9 [] renewal [] = .ok out ∧
      renewing.purgeAt 9 [] renewal = .ok early ∧ renewing.purgeAt 9 renewal [] = .ok late ∧
      out.table[ten]? = late.table[ten]? ∧ out.table[eleven]? = early.table[eleven]? := by
  have hfiled : renewing.table.Filed := Table.Filed.ofBindings _
  have haccepts : renewing.store.Accepts := trivial
  obtain ⟨out, early, late, hamid, hearly, hlate, hnets, -⟩ :=
    purgeAmid_exact hfiled haccepts 9 [] renewal []
  exact ⟨hfiled, haccepts, out, early, late, hamid, hearly, hlate,
    (hnets ten).1 heldFrom_ten, (hnets eleven).2 not_heldFrom_eleven⟩

/-- The batch comes in between the look and the taking: its renewal goes and the rest of it stays.
No order of the batch and a purge in one step leaves that. -/
theorem purge_torn : ∃ out : Database, renewing.purgeAmid 9 [] renewal [] = .ok out ∧
    out.table[ten]? = none ∧ out.table[eleven]? = some (told eleven 20) ∧
    ∀ front back serial, front ++ back = renewal → renewing.purgeAt 9 front back = .ok serial →
      serial.table ≠ out.table := by
  have hfiled : renewing.table.Filed := Table.Filed.ofBindings _
  have haccepts : renewing.store.Accepts := trivial
  obtain ⟨out, hamid⟩ := purgeAmid_ok haccepts 9 [] renewal []
  have hten : out.table[ten]? = none := by
    rw [(getElem?_purgeAmid hfiled hamid ten).1 heldFrom_ten]
    decide +kernel
  have heleven : out.table[eleven]? = some (told eleven 20) := by
    rw [(getElem?_purgeAmid hfiled hamid eleven).2 not_heldFrom_eleven]
    decide +kernel
  refine ⟨out, hamid, hten, heleven, ?_⟩
  intro front back serial hsplit hserial hsame
  rcases List.append_eq_singleton_iff.1 hsplit with ⟨rfl, rfl⟩ | ⟨rfl, rfl⟩
  · rw [← hsame, getElem?_purgeAt hfiled hserial] at hten
    exact absurd hten (by decide +kernel)
  · rw [← hsame, getElem?_purgeAt hfiled hserial] at heleven
    exact absurd heleven (by decide +kernel)

end Database

end TagExchange
