import TagExchange.Address.Lemmas
import TagExchange.Network.Key
import TagExchange.Proofs.RoundTrip.Items

/-!
# Keys tell networks apart

No two networks have the same key, within a family or across (`Network.key_inj`), whether or not
they are canonical. Reading takes exactly the keys of the networks whose length lies within their
address (`Network.ofKey_eq_ok_iff`).
-/

namespace TagExchange

namespace Net

variable {w : Nat}

@[simp] theorem length_key (n : Net w) : n.key.length = w / 8 + 1 := by simp [key]

theorem key_inj (hw : w % 8 = 0) {n m : Net w} (h : n.key = m.key) : n = m := by
  obtain ⟨haddr, hlength⟩ := List.append_inj h (by simp)
  have hn := ofOctets_octets hw n.addr
  have hm := ofOctets_octets hw m.addr
  rw [haddr, hm] at hn
  cases n
  cases m
  cases hn
  cases hlength
  rfl

/-- Reading one family looks at a key at the front. -/
theorem ofKeyWith_eq_ok_iff (hw : w % 8 = 0) (short length : Nat → KeyError) {bs : Bytes}
    {n : Net w} : ofKeyWith short length bs = .ok n ↔
      ∃ rest, bs = n.key ++ rest ∧ n.length.toNat ≤ w := by
  constructor
  · intro h
    rw [ofKeyWith] at h
    split at h
    · next addr l rest hsplit =>
      obtain ⟨rfl, haddr⟩ := split?_eq_some_iff.1 hsplit
      split at h
      · cases h
      · next hl =>
        cases h
        refine ⟨rest, ?_, Nat.le_of_not_lt hl⟩
        rw [key, octets_ofOctets (by omega), List.append_assoc, List.singleton_append]
    · cases h
  · rintro ⟨rest, rfl, hn⟩
    have hsplit : split? (w / 8) (n.key ++ rest) = some (octets n.addr, n.length :: rest) :=
      split?_eq_some_iff.2 ⟨by simp [key], by simp⟩
    have hwithin : ¬ w < n.length.toNat := by omega
    rw [ofKeyWith, hsplit]
    simp only [hwithin, if_false, ofOctets_octets hw]

theorem ofKeyWith_key (hw : w % 8 = 0) (short length : Nat → KeyError) {n : Net w}
    (hn : n.length.toNat ≤ w) : ofKeyWith short length n.key = .ok n :=
  (ofKeyWith_eq_ok_iff hw short length).2 ⟨[], (List.append_nil _).symm, hn⟩

/-- A key of the right size that is taken is the key of the result. -/
theorem eq_key_of_ofKeyWith (hw : w % 8 = 0) {short length : Nat → KeyError} {bs : Bytes}
    {n : Net w} (hsize : bs.length = w / 8 + 1) (h : ofKeyWith short length bs = .ok n) :
    bs = n.key ∧ n.length.toNat ≤ w := by
  obtain ⟨rest, rfl, hn⟩ := (ofKeyWith_eq_ok_iff hw short length).1 h
  have hrest : rest = [] := by
    apply List.eq_nil_of_length_eq_zero
    simp only [List.length_append, length_key] at hsize
    omega
  exact ⟨by rw [hrest, List.append_nil], hn⟩

end Net

namespace Network

/-- The length lies within the address. -/
def Within : Network → Prop
  | v4 n => n.length.toNat ≤ 32
  | v6 n => n.length.toNat ≤ 128

instance (n : Network) : Decidable n.Within :=
  match n with
  | v4 n => inferInstanceAs (Decidable (n.length.toNat ≤ 32))
  | v6 n => inferInstanceAs (Decidable (n.length.toNat ≤ 128))

/-- Keys of the two families differ in size. -/
theorem key_inj {n m : Network} (h : n.key = m.key) : n = m := by
  have hsize := congrArg List.length h
  cases n with
  | v4 n =>
    cases m with
    | v4 m => exact congrArg v4 (Net.key_inj (by decide) h)
    | v6 m => simp [key] at hsize
  | v6 n =>
    cases m with
    | v4 m => simp [key] at hsize
    | v6 m => exact congrArg v6 (Net.key_inj (by decide) h)

theorem ofKey_eq_ok_iff {bs : Bytes} {n : Network} :
    ofKey bs = .ok n ↔ bs = n.key ∧ n.Within := by
  constructor
  · intro h
    rw [ofKey] at h
    split at h
    · next hsize =>
      obtain ⟨m, hm, rfl⟩ := Except.map_eq_ok.1 h
      exact Net.eq_key_of_ofKeyWith (by decide) hsize hm
    · split at h
      · next hsize =>
        obtain ⟨m, hm, rfl⟩ := Except.map_eq_ok.1 h
        exact Net.eq_key_of_ofKeyWith (by decide) hsize hm
      · cases h
  · rintro ⟨rfl, hn⟩
    cases n with
    | v4 n =>
      have hkey : Net.ofKey4 n.key = .ok n := Net.ofKeyWith_key (by decide) _ _ hn
      simp [ofKey, key, hkey, Except.map]
    | v6 n =>
      have hkey : Net.ofKey6 n.key = .ok n := Net.ofKeyWith_key (by decide) _ _ hn
      simp [ofKey, key, hkey, Except.map]

end Network

end TagExchange
