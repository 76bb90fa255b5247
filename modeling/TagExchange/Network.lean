import Std.Data.ExtTreeMap
import TagExchange.Address

/-!
# Networks

A network is an address and the number of leading bits that count. A value may come from
anywhere, so bits beyond the length may be set and the length may exceed the width of the
address; such a length counts as the whole address. `Net.of` and `Net.clean` make the
canonical value. Networks are ordered by family, then address, then length.
-/

namespace TagExchange

/-- An address block in an address space of `w` bits. -/
structure Net (w : Nat) where
  addr : BitVec w
  length : UInt8
  deriving DecidableEq, Repr

namespace Net

variable {w : Nat}

/-- Ones in the bits that the length covers. -/
def mask (n : Net w) : BitVec w := BitVec.allOnes w <<< (w - n.length.toNat)

/-- The block with the bits beyond its length cleared. -/
def clean (n : Net w) : Net w := { n with addr := n.addr &&& n.mask }

def isClean (n : Net w) : Bool := n.addr &&& n.mask == n.addr

/-- The number of bits that the length leaves open. -/
def hostBits (n : Net w) : Nat := w - n.length.toNat

/-- The canonical block of a length around an address; a length beyond the width is cut to it. -/
def of (addr : BitVec w) (length : UInt8) : Net w :=
  clean ⟨addr, UInt8.ofNat (min length.toNat w)⟩

/-- A single address. -/
def host (addr : BitVec w) : Net w := ⟨addr, UInt8.ofNat w⟩

/-- Canonical: the length lies within the address and no bit beyond it is set. -/
structure Canonical (n : Net w) : Prop where
  length_le : n.length.toNat ≤ w
  clean_eq : n.clean = n

instance (n : Net w) : Decidable n.Canonical :=
  decidable_of_iff (n.length.toNat ≤ w ∧ n.clean = n)
    ⟨fun h => ⟨h.1, h.2⟩, fun h => ⟨h.length_le, h.clean_eq⟩⟩

@[simp] theorem length_clean (n : Net w) : n.clean.length = n.length := rfl

@[simp] theorem mask_clean (n : Net w) : n.clean.mask = n.mask := rfl

@[simp] theorem clean_clean (n : Net w) : n.clean.clean = n.clean := by
  simp [clean, mask, BitVec.and_assoc]

instance : Ord (Net w) := ⟨compareLex (compareOn Net.addr) (compareOn Net.length)⟩

instance : Std.TransOrd (Net w) :=
  inferInstanceAs (Std.TransCmp (compareLex (compareOn Net.addr) (compareOn Net.length)))

instance : Std.LawfulEqOrd (Net w) where
  eq_of_compare {a b} h := by
    have h : (compare a.addr b.addr).then (compare a.length b.length) = .eq := h
    cases a
    cases b
    simp_all [Ordering.then_eq_eq]

end Net

/-- A block of either family. -/
inductive Network where
  | v4 : Net 32 → Network
  | v6 : Net 128 → Network
  deriving DecidableEq, Repr

namespace Network

def of : Address → UInt8 → Network
  | .v4 a, l => v4 (.of a l)
  | .v6 a, l => v6 (.of a l)

def host : Address → Network
  | .v4 a => v4 (.host a)
  | .v6 a => v6 (.host a)

def addr : Network → Address
  | v4 n => .v4 n.addr
  | v6 n => .v6 n.addr

def length : Network → UInt8
  | v4 n => n.length
  | v6 n => n.length

def hostBits : Network → Nat
  | v4 n => n.hostBits
  | v6 n => n.hostBits

def clean : Network → Network
  | v4 n => v4 n.clean
  | v6 n => v6 n.clean

def isClean : Network → Bool
  | v4 n => n.isClean
  | v6 n => n.isClean

def isV4 : Network → Bool
  | v4 _ => true
  | v6 _ => false

def v4? : Network → Option (Net 32)
  | v4 n => some n
  | v6 _ => none

def v6? : Network → Option (Net 128)
  | v4 _ => none
  | v6 n => some n

def isHost (n : Network) : Bool := n.hostBits == 0

/-- `0.0.0.0/0` or `::/0`. -/
def isDefault (n : Network) : Bool := n.length == 0 && n.addr.isUnspecified

def Canonical : Network → Prop
  | v4 n => n.Canonical
  | v6 n => n.Canonical

@[simp] theorem clean_clean (n : Network) : n.clean.clean = n.clean := by
  cases n <;> simp [clean]

instance : Ord Network where
  compare
    | v4 a, v4 b => compare a b
    | v4 _, v6 _ => .lt
    | v6 _, v4 _ => .gt
    | v6 a, v6 b => compare a b

instance : Std.TransOrd Network where
  eq_swap {a b} :=
    match a, b with
    | v4 a, v4 b => (Std.OrientedCmp.eq_swap : compare a b = (compare b a).swap)
    | v4 _, v6 _ => rfl
    | v6 _, v4 _ => rfl
    | v6 a, v6 b => (Std.OrientedCmp.eq_swap : compare a b = (compare b a).swap)
  isLE_trans {a b c} hab hbc :=
    match a, b, c with
    | v4 a, v4 b, v4 c =>
      have h : (compare a b).isLE → (compare b c).isLE → (compare a c).isLE :=
        Std.TransCmp.isLE_trans
      h hab hbc
    | v4 _, _, v6 _ => rfl
    | v6 _, v4 _, _ => nomatch hab
    | _, v6 _, v4 _ => nomatch hbc
    | v6 a, v6 b, v6 c =>
      have h : (compare a b).isLE → (compare b c).isLE → (compare a c).isLE :=
        Std.TransCmp.isLE_trans
      h hab hbc

instance : Std.LawfulEqOrd Network where
  eq_of_compare {a b} h :=
    match a, b with
    | v4 a, v4 b =>
      have h : compare a b = .eq := h
      congrArg v4 (Std.LawfulEqCmp.eq_of_compare h)
    | v6 a, v6 b =>
      have h : compare a b = .eq := h
      congrArg v6 (Std.LawfulEqCmp.eq_of_compare h)
    | v4 _, v6 _ => nomatch h
    | v6 _, v4 _ => nomatch h

/-- The networks in order, repeated ones kept. -/
def sort (nets : List Network) : List Network := nets.mergeSort fun a b => (compare a b).isLE

end Network

end TagExchange
