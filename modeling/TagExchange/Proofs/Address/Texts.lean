import TagExchange.Address.Lemmas
import TagExchange.Address.Text
import TagExchange.Text.Numeral.Lemmas

/-!
# Reading an address back

The text of an address is read as this address, and nothing is left of it (`Addr4.whole_chars`,
`Addr6.whole_chars`). No text of an IPv6 address starts like that of an IPv4 address: a digit or a
colon comes first, and a colon before any dot (`Addr6.read4_chars`).
-/

namespace TagExchange

open Numeral

theorem slash_not_mem_toDigits {base : Nat} (hbase : 1 < base) (n : Nat) :
    '/' ∉ Nat.toDigits base n :=
  not_mem_toDigits hbase fun _ => Nat.digitChar_ne '/' (by decide)

namespace Addr4

theorem readOctet_toDigits {b : Nat} (hb : b < 256) {rest : List Char} (h : Stops 10 rest) :
    readOctet (Nat.toDigits 10 b ++ rest) = some (b, rest) :=
  readPlain?_toDigits (by decide) (by decide) (by decide) (Nat.le_of_lt_succ hb)
    (hb.trans (by decide)) h

theorem stops_dot (rest : List Char) : Stops 10 ('.' :: rest) := stops_cons (by decide) rest

theorem expect_cons (c : Char) (cs : List Char) : expect c (c :: cs) = some cs := if_pos rfl

/-- The four octets of an address, with dots between them. -/
theorem exists_octets (a : Addr4) : ∃ b₁ b₂ b₃ b₄ : UInt8,
    a.chars = Nat.toDigits 10 b₁.toNat ++ '.' :: (Nat.toDigits 10 b₂.toNat ++ '.' ::
      (Nat.toDigits 10 b₃.toNat ++ '.' :: Nat.toDigits 10 b₄.toNat)) ∧
    ((b₁.toNat * 256 + b₂.toNat) * 256 + b₃.toNat) * 256 + b₄.toNat = a.toNat := by
  have hword : word (octets a) = a.toNat := word_octets (by decide) a
  obtain ⟨b₁, b₂, b₃, b₄, hoctets⟩ := List.length_eq_four.1 (length_octets a)
  refine ⟨b₁, b₂, b₃, b₄, ?_, ?_⟩
  · simp [chars, hoctets, List.intercalate]
  · rw [← hword, hoctets]
    simp [word]
    omega

theorem read_chars (a : Addr4) {rest : List Char} (h : Stops 10 rest) :
    read (a.chars ++ rest) = some (a, rest) := by
  obtain ⟨b₁, b₂, b₃, b₄, hchars, hvalue⟩ := exists_octets a
  have hlt (b : UInt8) : b.toNat < 256 := b.toNat_lt
  rw [hchars]
  simp only [List.append_assoc, List.cons_append, read, readOctet_toDigits (hlt _) (stops_dot _),
    expect_cons, readOctet_toDigits (hlt b₄) h, Option.bind_eq_bind, Option.bind_some, hvalue,
    BitVec.ofNat_toNat, BitVec.setWidth_eq]
  rfl

theorem whole_chars (a : Addr4) : whole read a.chars = some a := by
  have hread := read_chars a stops_nil
  rw [List.append_nil] at hread
  rw [whole, hread]

theorem slash_not_mem_chars (a : Addr4) : '/' ∉ a.chars := by
  obtain ⟨b₁, b₂, b₃, b₄, hchars, -⟩ := exists_octets a
  simp [hchars, slash_not_mem_toDigits]

/-- Without a dot behind the first digits there is no address. -/
theorem read_eq_none {cs : List Char} (h : expect '.' (span 10 cs).2 = none) : read cs = none := by
  rw [read]
  cases hoctet : readOctet cs with
  | none => rfl
  | some p =>
    obtain ⟨b, rest⟩ := p
    obtain rfl := readPlain?_rest hoctet
    simp only [Option.bind_eq_bind, Option.bind_some, h, Option.bind_none]

/-- Behind hexadecimal digits there is no dotted address, unless a dot comes next. -/
theorem read_digits {ds : List Nat} (hds : ∀ d ∈ ds, d < 16) {rest : List Char}
    (hstops : Stops 10 rest) (hdot : expect '.' rest = none) :
    read (ds.map Nat.digitChar ++ rest) = none := by
  apply read_eq_none
  induction ds with
  | nil =>
    rw [List.map_nil, List.nil_append, hstops]
    exact hdot
  | cons d ds ih =>
    obtain ⟨hd, hds⟩ := List.forall_mem_cons.1 hds
    rw [List.map_cons, List.cons_append, span]
    rw [digit?_digitChar hd]
    by_cases hten : d < 10
    · rw [if_pos hten]
      exact ih hds
    · rw [if_neg hten]
      exact if_neg (Nat.digitChar_ne '.' (by decide))

end Addr4

namespace Addr6

variable {gs : List Nat} {rest : List Char}

/-- Where the groups in front end: with the text, or with two colons. -/
def GroupsEnd (rest : List Char) : Prop := rest = [] ∨ ∃ cs, rest = ':' :: ':' :: cs

/-- What stands behind a group: a colon, or nothing. -/
def GroupEnds (rest : List Char) : Prop := rest = [] ∨ ∃ cs, rest = ':' :: cs

theorem GroupsEnd.groupEnds (h : GroupsEnd rest) : GroupEnds rest := by
  rcases h with rfl | ⟨cs, rfl⟩
  · exact .inl rfl
  · exact .inr ⟨_, rfl⟩

theorem GroupEnds.stops {base : Nat} (h : GroupEnds rest) (hbase : digit? base ':' = none) :
    Stops base rest := by
  rcases h with rfl | ⟨cs, rfl⟩
  · exact stops_nil
  · exact stops_cons hbase cs

theorem GroupEnds.expect_dot (h : GroupEnds rest) : expect '.' rest = none := by
  rcases h with rfl | ⟨cs, rfl⟩
  · rfl
  · simp [expect]

theorem readGroup_toDigits {g : Nat} (hg : g < 65536) (h : GroupEnds rest) :
    readGroup (Nat.toDigits 16 g ++ rest) = some (g, rest) :=
  readWithin?_toDigits (by decide) (by decide) (by decide) (Nat.le_of_lt_succ hg)
    (hg.trans_eq (by decide)) (h.stops (by decide))

theorem read4_groupEnds (h : GroupEnds rest) : Addr4.read rest = none :=
  Addr4.read_digits (List.forall_mem_nil (· < 16)) (h.stops (by decide)) h.expect_dot

theorem read4_toDigits (g : Nat) (h : GroupEnds rest) :
    Addr4.read (Nat.toDigits 16 g ++ rest) = none := by
  obtain ⟨ds, hds, hspells⟩ := exists_spells (show 1 < 16 by decide) g
  rw [hds]
  exact Addr4.read_digits hspells.lt_base (h.stops (by decide)) h.expect_dot

/-- Groups with a colon before each. -/
def trail (gs : List Nat) : List Char := gs.flatMap fun g => ':' :: Nat.toDigits 16 g

theorem groupChars_cons (g : Nat) (gs : List Nat) :
    groupChars (g :: gs) = Nat.toDigits 16 g ++ trail gs := by
  induction gs generalizing g with
  | nil => simp [groupChars, trail]
  | cons g' gs ih =>
    have hrest := ih g'
    rw [groupChars, List.map_cons] at hrest
    rw [groupChars, List.map_cons, List.map_cons, List.intercalate_cons_cons, hrest, trail, trail,
      List.flatMap_cons]
    simp

theorem groupEnds_trail (h : GroupsEnd rest) : GroupEnds (trail gs ++ rest) := by
  cases gs with
  | nil => exact h.groupEnds
  | cons g gs => exact .inr ⟨_, rfl⟩

/-- A group is read off, unless the limit is reached. -/
theorem readGroups_succ {g : Nat} (hg : g < 65536) (h : GroupEnds rest) (limit : Nat) {first : Bool}
    {cs : List Char}
    (hstart : (if first then some cs else expect ':' cs) = some (Nat.toDigits 16 g ++ rest)) :
    readGroups (limit + 1) first cs = (g :: (readGroups limit false rest).1,
      (readGroups limit false rest).2) := by
  rw [readGroups, hstart]
  simp only [read4_toDigits g h, ite_self, readGroup_toDigits hg h]

/-- No group is read off where a group would end. -/
theorem readGroups_start (limit : Nat) (h : GroupEnds rest) {first : Bool} {cs : List Char}
    (hstart : (if first then some cs else expect ':' cs) = some rest) :
    readGroups limit first cs = ([], false, cs) := by
  cases limit with
  | zero => rfl
  | succ limit =>
    have hdotted : Addr4.read rest = none := read4_groupEnds h
    have hgroup : readGroup rest = none := readWithin?_of_stops (h.stops (by decide))
    rw [readGroups, hstart]
    simp only [hdotted, ite_self, hgroup]

theorem readGroups_end (limit : Nat) (first : Bool) (h : GroupsEnd rest) :
    readGroups limit first rest = ([], false, rest) := by
  cases first with
  | true => exact readGroups_start limit h.groupEnds rfl
  | false =>
    rcases h with rfl | ⟨cs, rfl⟩
    · cases limit <;> rfl
    · exact readGroups_start limit (.inr ⟨cs, rfl⟩ : GroupEnds (':' :: cs)) rfl

theorem readGroups_trail (hgs : ∀ g ∈ gs, g < 65536) {limit : Nat} (hlimit : gs.length ≤ limit)
    (h : GroupsEnd rest) : readGroups limit false (trail gs ++ rest) = (gs, false, rest) := by
  induction gs generalizing limit with
  | nil => exact readGroups_end limit false h
  | cons g gs ih =>
    obtain ⟨hg, hgs⟩ := List.forall_mem_cons.1 hgs
    obtain ⟨limit, rfl⟩ := Nat.exists_eq_add_one_of_ne_zero (Nat.ne_zero_of_lt hlimit)
    have hstart : (if false then some (trail (g :: gs) ++ rest)
        else expect ':' (trail (g :: gs) ++ rest)) =
          some (Nat.toDigits 16 g ++ (trail gs ++ rest)) := by
      simp [trail, expect]
    rw [readGroups_succ hg (groupEnds_trail h) limit hstart, ih hgs (Nat.le_of_succ_le_succ hlimit)]

/-- Groups as they are written are read back, up to where they end. -/
theorem readGroups_groupChars (hgs : ∀ g ∈ gs, g < 65536) {limit : Nat}
    (hlimit : gs.length ≤ limit) (h : GroupsEnd rest) :
    readGroups limit true (groupChars gs ++ rest) = (gs, false, rest) := by
  cases gs with
  | nil => exact readGroups_end limit true h
  | cons g gs =>
    obtain ⟨hg, hgs⟩ := List.forall_mem_cons.1 hgs
    obtain ⟨limit, rfl⟩ := Nat.exists_eq_add_one_of_ne_zero (Nat.ne_zero_of_lt hlimit)
    rw [groupChars_cons, List.append_assoc, readGroups_succ hg (groupEnds_trail h) limit rfl,
      readGroups_trail hgs (Nat.le_of_succ_le_succ hlimit) h]

/-- No dotted address stands where groups do. -/
theorem read4_groupChars (h : GroupsEnd rest) : Addr4.read (groupChars gs ++ rest) = none := by
  cases gs with
  | nil => exact read4_groupEnds h.groupEnds
  | cons g gs =>
    rw [groupChars_cons, List.append_assoc]
    exact read4_toDigits g (groupEnds_trail h)

/-- The zeros in front of a list. -/
theorem takeWhile_zero (gs : List Nat) :
    gs.take (gs.takeWhile (· == 0)).length =
      List.replicate (gs.takeWhile (· == 0)).length 0 := by
  rw [← List.prefix_iff_eq_take.1 (List.takeWhile_prefix _), List.eq_replicate_iff]
  exact ⟨rfl, fun g hg => by simpa using List.mem_takeWhile_imp hg⟩

/-- Where the longest run is said to be, there are as many zeros. -/
theorem take_longestRun (gs : List Nat) :
    (gs.drop (longestRun gs).1).take (longestRun gs).2 = List.replicate (longestRun gs).2 0 := by
  rw [longestRun]
  refine List.foldlRecOn (motive := fun best : Nat × Nat =>
    (gs.drop best.1).take best.2 = List.replicate best.2 0) _ _ rfl ?_
  intro best hbest i _
  dsimp only
  split
  · exact takeWhile_zero (gs.drop i)
  · exact hbest

/-- A list of groups is what stands before its longest run of zeros, this run, and what stands
behind it. -/
theorem longestRun_split (gs : List Nat) :
    gs.take (longestRun gs).1 ++ List.replicate (longestRun gs).2 0 ++
      gs.drop ((longestRun gs).1 + (longestRun gs).2) = gs := by
  rw [← take_longestRun, ← List.drop_drop, List.append_assoc, List.take_append_drop,
    List.take_append_drop]

@[simp] theorem length_groups (a : Addr6) : a.groups.length = 8 := by simp [groups]

theorem groups_lt {a : Addr6} {g : Nat} (hg : g ∈ a.groups) : g < 65536 := by
  obtain ⟨i, -, rfl⟩ := List.mem_map.1 hg
  exact BitVec.isLt _

theorem ofGroups_groups (a : Addr6) : ofGroups a.groups = a := by
  apply BitVec.eq_of_toNat_eq
  have hlt := a.isLt
  simp only [ofGroups, groups, List.range_succ, List.range_zero, List.nil_append, List.cons_append,
    List.map_cons, List.map_nil, List.foldl_cons, List.foldl_nil, BitVec.extractLsb'_toNat,
    Nat.shiftRight_eq_div_pow, BitVec.toNat_ofNat]
  omega

/-- An address with an IPv4 address inside, as groups. -/
theorem ofGroups_mapped {a : Addr6} {b : Addr4} (h : mapped? a = some b) :
    ofGroups (List.replicate 5 0 ++ [65535, b.toNat / 65536, b.toNat % 65536]) = a := by
  rw [mapped?] at h
  split at h
  · next hfront =>
    cases h
    apply BitVec.eq_of_toNat_eq
    have hlt := a.isLt
    rw [BitVec.extractLsb'_toNat, Nat.shiftRight_eq_div_pow] at hfront
    simp only [ofGroups, List.replicate_succ, List.replicate_zero, List.cons_append,
      List.nil_append, List.foldl_cons, List.foldl_nil, BitVec.toNat_setWidth, BitVec.toNat_ofNat]
    omega
  · cases h

/-- Eight groups are read. -/
theorem read_groupChars (hgs : ∀ g ∈ gs, g < 65536) (hlength : gs.length = 8) :
    read (groupChars gs) = some (ofGroups gs, []) := by
  have hread := readGroups_groupChars hgs hlength.le (.inl rfl : GroupsEnd [])
  rw [List.append_nil] at hread
  rw [read, hread]
  simp only [hlength, if_true]

/-- Groups around two colons are read, with as many zeros between them as are missing. -/
theorem read_gap {head tail : List Nat} (hhead : ∀ g ∈ head, g < 65536)
    (htail : ∀ g ∈ tail, g < 65536) (hlength : head.length + tail.length < 8) :
    read (groupChars head ++ ':' :: ':' :: groupChars tail) =
      some (ofGroups (head ++ List.replicate (8 - head.length - tail.length) 0 ++ tail), []) := by
  have hfirst := readGroups_groupChars hhead (show head.length ≤ 8 by omega)
    (.inr ⟨groupChars tail, rfl⟩ : GroupsEnd (':' :: ':' :: groupChars tail))
  have hsecond := readGroups_groupChars htail (show tail.length ≤ 7 - head.length by omega)
    (.inl rfl : GroupsEnd [])
  rw [List.append_nil] at hsecond
  rw [read, hfirst]
  simp only [hsecond, show ¬head.length = 8 by omega, if_false, Bool.false_eq_true]

/-- Two colons, four digits and a dotted address are read as three groups behind five zeros. -/
theorem read_mapped (b : Addr4) : read (':' :: ':' :: (Nat.toDigits 16 65535 ++ ':' :: b.chars)) =
    some (ofGroups (List.replicate 5 0 ++ [65535, b.toNat / 65536, b.toNat % 65536]), []) := by
  have hdotted := Addr4.read_chars b stops_nil
  rw [List.append_nil] at hdotted
  have hfirst : readGroups 8 true (':' :: ':' :: (Nat.toDigits 16 65535 ++ ':' :: b.chars)) =
      ([], false, ':' :: ':' :: (Nat.toDigits 16 65535 ++ ':' :: b.chars)) :=
    readGroups_end 8 true (.inr ⟨_, rfl⟩)
  have hlast : readGroups 6 false (':' :: b.chars) =
      ([b.toNat / 65536, b.toNat % 65536], true, []) := by
    rw [readGroups]
    simp [expect, hdotted]
  have hsecond : readGroups 7 true (Nat.toDigits 16 65535 ++ ':' :: b.chars) =
      ([65535, b.toNat / 65536, b.toNat % 65536], true, []) := by
    rw [readGroups_succ (by decide) (.inr ⟨b.chars, rfl⟩) 6 rfl, hlast]
  rw [read, hfirst]
  simp only [List.length_nil, OfNat.zero_ne_ofNat, if_false, Bool.false_eq_true, Nat.sub_zero,
    hsecond]
  rfl

/-- What the text of an address is made of: an IPv4 address inside, all the groups, or groups around
a run of zeros that is left out. -/
theorem chars_cases (a : Addr6) :
    (∃ b, mapped? a = some b ∧
      a.chars = ':' :: ':' :: (Nat.toDigits 16 65535 ++ ':' :: b.chars)) ∨
    a.chars = groupChars a.groups ∨
    ∃ head tail, a.chars = groupChars head ++ ':' :: ':' :: groupChars tail ∧
      head.length + tail.length < 8 ∧
      head ++ List.replicate (8 - head.length - tail.length) 0 ++ tail = a.groups := by
  rw [chars]
  cases hmapped : mapped? a with
  | some b => exact .inl ⟨b, rfl, rfl⟩
  | none =>
    refine .inr ?_
    dsimp only
    split
    · next hrun =>
      have hfits := congrArg List.length (take_longestRun a.groups)
      simp only [List.length_take, List.length_drop, List.length_replicate, length_groups] at hfits
      have hgap : 8 - (a.groups.take (longestRun a.groups).1).length -
          (a.groups.drop ((longestRun a.groups).1 + (longestRun a.groups).2)).length =
            (longestRun a.groups).2 := by
        simp only [List.length_take, List.length_drop, length_groups]
        omega
      refine .inr ⟨_, _, by rw [List.append_assoc]; rfl, ?_, ?_⟩
      · simp only [List.length_take, List.length_drop, length_groups]
        omega
      · rw [hgap, longestRun_split]
    · exact .inl rfl

theorem whole_chars (a : Addr6) : whole read a.chars = some a := by
  rcases chars_cases a with ⟨b, hmapped, hchars⟩ | hchars | ⟨head, tail, hchars, hlength, hgroups⟩
  · rw [whole, hchars, read_mapped, ofGroups_mapped hmapped]
  · rw [whole, hchars, read_groupChars (fun g => groups_lt) (length_groups a), ofGroups_groups]
  · have hlt : ∀ g ∈ head ++ List.replicate (8 - head.length - tail.length) 0 ++ tail, g < 65536 :=
      hgroups ▸ fun g => groups_lt
    have hhead : ∀ g ∈ head, g < 65536 := fun g hg => hlt g (by simp [hg])
    have htail : ∀ g ∈ tail, g < 65536 := fun g hg => hlt g (by simp [hg])
    rw [whole, hchars, read_gap hhead htail hlength, hgroups, ofGroups_groups]

/-- The text of an IPv6 address does not start with an IPv4 address. -/
theorem read4_chars (a : Addr6) : Addr4.read a.chars = none := by
  rcases chars_cases a with ⟨b, -, hchars⟩ | hchars | ⟨head, tail, hchars, -, -⟩
  · rw [hchars]
    exact read4_groupEnds (.inr ⟨_, rfl⟩)
  · rw [hchars, ← List.append_nil (groupChars _)]
    exact read4_groupChars (.inl rfl)
  · rw [hchars]
    exact read4_groupChars (.inr ⟨_, rfl⟩)

theorem slash_not_mem_groupChars (gs : List Nat) : '/' ∉ groupChars gs := by
  cases gs with
  | nil => simp [groupChars]
  | cons g gs => simp [groupChars_cons, trail, slash_not_mem_toDigits]

theorem slash_not_mem_chars (a : Addr6) : '/' ∉ a.chars := by
  rcases chars_cases a with ⟨b, -, hchars⟩ | hchars | ⟨head, tail, hchars, -, -⟩
  · simp [hchars, slash_not_mem_toDigits, Addr4.slash_not_mem_chars]
  · simp [hchars, slash_not_mem_groupChars]
  · simp [hchars, slash_not_mem_groupChars]

end Addr6

end TagExchange
