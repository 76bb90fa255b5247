import TagExchange.Proofs.Address.Texts
import TagExchange.Proofs.RoundTrip.Networks

/-!
# Reading a network back

The text of a canonical network is read as this network, by the reader of its family and by the one
that takes both, which does not mistake an IPv6 text for one of IPv4. Whatever is read is canonical,
so its own text is read back (`Network.text_exact`).
-/

namespace TagExchange

open Numeral

theorem splitSlash?_append {before : List Char} (h : '/' ∉ before) (after : List Char) :
    splitSlash? (before ++ '/' :: after) = some (before, after) := by
  induction before with
  | nil => rfl
  | cons c cs ih =>
    obtain ⟨hc, hcs⟩ := List.ne_and_not_mem_of_not_mem_cons h
    rw [List.cons_append, splitSlash?, ih hcs]
    · rfl
    · exact hc.symm

namespace Net

variable {w : Nat} {readAddr : List Char → Option (BitVec w × List Char)}
  {addrText : BitVec w → String} {n : Net w}

theorem toList_textWith (addrText : BitVec w → String) (n : Net w) :
    (textWith addrText n).toList =
      (addrText n.addr).toList ++ '/' :: Nat.toDigits 10 n.length.toNat := by
  have hlength : (toString n.length.toNat).toList = Nat.toDigits 10 n.length.toNat := by
    rw [Nat.toString_eq_ofList_toDigits, String.toList_ofList]
  rw [textWith, String.toList_append, String.toList_append, List.append_assoc, hlength]
  rfl

theorem parseWith_textWith (hslash : '/' ∉ (addrText n.addr).toList)
    (hread : whole readAddr (addrText n.addr).toList = some n.addr) (hn : n.Canonical) :
    parseWith readAddr (textWith addrText n) = .ok n := by
  have hlength : ofSigned? 255 (Nat.toDigits 10 n.length.toNat) = some n.length.toNat :=
    ofSigned?_toDigits (Nat.le_of_lt_succ n.length.toNat_lt)
  rw [parseWith, toList_textWith, splitSlash?_append hslash]
  simp only [hread, hlength, Nat.not_lt.2 hn.length_le, if_false, UInt8.ofNat_toNat,
    of_canonical hn]

theorem canonical_of_parseWith (hw : w < 256) {s : String} (h : parseWith readAddr s = .ok n) :
    n.Canonical := by
  rw [parseWith] at h
  split at h
  · cases h
  · split at h
    · cases h
    · split at h
      · cases h
      · split at h
        · cases h
        · cases h
          exact canonical_of hw _ _

theorem parse4_text4 {n : Net 32} (h : n.Canonical) : parse4 n.text4 = .ok n := by
  refine parseWith_textWith ?_ ?_ h
  · rw [Addr4.text, String.toList_ofList]
    exact Addr4.slash_not_mem_chars n.addr
  · rw [Addr4.text, String.toList_ofList]
    exact Addr4.whole_chars n.addr

theorem parse6_text6 {n : Net 128} (h : n.Canonical) : parse6 n.text6 = .ok n := by
  refine parseWith_textWith ?_ ?_ h
  · rw [Addr6.text, String.toList_ofList]
    exact Addr6.slash_not_mem_chars n.addr
  · rw [Addr6.text, String.toList_ofList]
    exact Addr6.whole_chars n.addr

/-- The text of an IPv6 network is none of an IPv4 network. -/
theorem parse4_text6 (n : Net 128) : parse4 n.text6 = .error .address := by
  have hsplit : splitSlash? (text6 n).toList =
      some (Addr6.chars n.addr, Nat.toDigits 10 n.length.toNat) := by
    rw [text6, toList_textWith, Addr6.text, String.toList_ofList]
    exact splitSlash?_append (Addr6.slash_not_mem_chars n.addr) _
  rw [parse4, parseWith, hsplit]
  simp only [whole, Addr6.read4_chars]

end Net

namespace Network

theorem parse_text {n : Network} (h : n.Canonical) : parse n.text = .ok n := by
  cases n with
  | v4 n => rw [parse, text, Net.parse4_text4 h]
  | v6 n => rw [parse, text, Net.parse4_text6, Net.parse6_text6 h]

theorem canonical_of_parse {s : String} {n : Network} (h : parse s = .ok n) : n.Canonical := by
  rw [parse] at h
  split at h
  · next hread =>
    cases h
    exact Net.canonical_of_parseWith (by decide) hread
  · split at h
    · next hread =>
      cases h
      exact Net.canonical_of_parseWith (by decide) hread
    · cases h

/-- The text of a canonical network is read back, by the reader of its family and by the one that
takes both. What any of the three readers makes of any text is canonical, and its text is read
back. -/
theorem text_exact :
    (∀ n : Net 32, n.Canonical → Net.parse4 n.text4 = .ok n ∧ parse n.text4 = .ok (v4 n)) ∧
    (∀ n : Net 128, n.Canonical → Net.parse6 n.text6 = .ok n ∧ parse n.text6 = .ok (v6 n)) ∧
    (∀ (s : String) (n : Net 32), Net.parse4 s = .ok n →
      n.Canonical ∧ Net.parse4 n.text4 = .ok n) ∧
    (∀ (s : String) (n : Net 128), Net.parse6 s = .ok n →
      n.Canonical ∧ Net.parse6 n.text6 = .ok n) ∧
    ∀ (s : String) (n : Network), parse s = .ok n → n.Canonical ∧ parse n.text = .ok n := by
  refine ⟨fun n h => ⟨Net.parse4_text4 h, parse_text (n := v4 n) h⟩,
    fun n h => ⟨Net.parse6_text6 h, parse_text (n := v6 n) h⟩, fun s n h => ?_, fun s n h => ?_,
    fun s n h => ⟨canonical_of_parse h, parse_text (canonical_of_parse h)⟩⟩
  · have hn : n.Canonical := Net.canonical_of_parseWith (by decide) h
    exact ⟨hn, Net.parse4_text4 hn⟩
  · have hn : n.Canonical := Net.canonical_of_parseWith (by decide) h
    exact ⟨hn, Net.parse6_text6 hn⟩

/-- A network of either family, and other spellings of them: a plus sign, leading zeros, bits beyond
the length, capitals, and zeros around fewer colons. -/
theorem text_exact_respelt :
    let office : Net 32 := ⟨0x0A000000, 8⟩
    let gateway : Net 128 := ⟨0xFFFF0A000001, 128⟩
    office.Canonical ∧ gateway.Canonical ∧ parse gateway.text6 = .ok (v6 gateway) ∧
      Net.parse4 "10.0.0.9/+08" = .ok office ∧ Net.parse4 office.text4 = .ok office ∧
      Net.parse6 "0:0::FFFF:0A00:1/128" = .ok gateway ∧ Net.parse6 gateway.text6 = .ok gateway ∧
      parse "::ffff:10.0.0.1/128" = .ok (v6 gateway) ∧
      parse (v6 gateway).text = .ok (v6 gateway) := by
  intro office gateway
  obtain ⟨hfour, hsix, hread4, hread6, hread⟩ := text_exact
  have hoffice : office.Canonical := by decide
  have hgateway : gateway.Canonical := by decide
  have hplus : Net.parse4 "10.0.0.9/+08" = .ok office := by decide +kernel
  have hgroups : Net.parse6 "0:0::FFFF:0A00:1/128" = .ok gateway := by decide +kernel
  have hdotted : parse "::ffff:10.0.0.1/128" = .ok (v6 gateway) := by decide +kernel
  exact ⟨hoffice, hgateway, (hsix gateway hgateway).2, hplus, (hread4 _ office hplus).2, hgroups,
    (hread6 _ gateway hgroups).2, hdotted, (hread _ _ hdotted).2⟩

end Network

end TagExchange
