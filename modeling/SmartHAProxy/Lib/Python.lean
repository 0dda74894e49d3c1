/-
Python strings and dictionaries, as far as a log parser needs them.

A `str` is a list of code points.  The functions follow the documentation of
the language: `\s` and `int` know the white space and the decimal digits of
Unicode, not only those of ASCII.

A `dict` is an association list without duplicate keys.  What is summed up over
its values moves with insertions and deletions.
-/
import Mathlib.Data.List.AList
import Mathlib.Data.List.Infix
import Mathlib.Algebra.BigOperators.Group.List.Basic

namespace SmartHAProxy

/-- `str`. -/
abbrev PyStr := List Char

namespace PyStr

/-- The characters that `\s` matches. -/
def isSpace (c : Char) : Bool :=
  c.toNat ∈ [0x09, 0x0a, 0x0b, 0x0c, 0x0d, 0x1c, 0x1d, 0x1e, 0x1f, 0x20, 0x85, 0xa0, 0x1680, 0x2000,
    0x2001, 0x2002, 0x2003, 0x2004, 0x2005, 0x2006, 0x2007, 0x2008, 0x2009, 0x200a, 0x2028, 0x2029,
    0x202f, 0x205f, 0x3000]

/-- The zeros of the decimal digits of Unicode 14; the other digits of a script
follow its zero. -/
def decimalZeros : List ℕ :=
  [0x30, 0x660, 0x6f0, 0x7c0, 0x966, 0x9e6, 0xa66, 0xae6, 0xb66, 0xbe6, 0xc66, 0xce6, 0xd66, 0xde6,
    0xe50, 0xed0, 0xf20, 0x1040, 0x1090, 0x17e0, 0x1810, 0x1946, 0x19d0, 0x1a80, 0x1a90, 0x1b50,
    0x1bb0, 0x1c40, 0x1c50, 0xa620, 0xa8d0, 0xa900, 0xa9d0, 0xa9f0, 0xaa50, 0xabf0, 0xff10, 0x104a0,
    0x10d30, 0x11066, 0x110f0, 0x11136, 0x111d0, 0x112f0, 0x11450, 0x114d0, 0x11650, 0x116c0,
    0x11730, 0x118e0, 0x11950, 0x11c50, 0x11d50, 0x11da0, 0x16a60, 0x16ac0, 0x16b50, 0x1d7ce,
    0x1d7d8, 0x1d7e2, 0x1d7ec, 0x1d7f6, 0x1e140, 0x1e2f0, 0x1e950, 0x1fbf0]

/-- The characters `c` for which `int(c)` does not raise a `ValueError`. -/
def isDecimal (c : Char) : Bool := decimalZeros.any fun z => z ≤ c.toNat ∧ c.toNat < z + 10

/-- `sub in s`. -/
def contains (s sub : PyStr) : Bool := sub <:+: s

/-- `s.replace(old, '')` for a non-empty `old`; the next `skip` characters belong
to an occurrence that was found. -/
def removeFrom (old : PyStr) : ℕ → PyStr → PyStr
  | _, [] => []
  | skip + 1, _ :: s => removeFrom old skip s
  | 0, c :: s =>
    if old <+: c :: s then removeFrom old (old.length - 1) s else c :: removeFrom old 0 s

/-- `s.replace(old, '')`. -/
def remove (s old : PyStr) : PyStr := removeFrom old 0 s

/-- `re.search` of a choice between literal texts: the leftmost match. -/
def searchAny (pats : List PyStr) : PyStr → Option PyStr
  | [] => pats.find? (· <+: [])
  | c :: s => (pats.find? (· <+: c :: s)).or (searchAny pats s)

end PyStr

/-! ### Sums over dictionaries -/

section Sums

variable {κ α M : Type*} [DecidableEq κ] [AddCommMonoid M] {d : AList fun _ : κ => α} {k : κ} {a : α}

theorem sum_map_kerase (f : (Σ _ : κ, α) → M) {l : List (Σ _ : κ, α)} (h : l.dlookup k = some a) :
    (l.map f).sum = f ⟨k, a⟩ + ((l.kerase k).map f).sum := by
  induction l with
  | nil => simp at h
  | cons e l ih =>
    by_cases hk : k = e.1
    · obtain ⟨k', a'⟩ := e
      subst hk
      rw [List.dlookup_cons_eq] at h
      obtain rfl := Option.some.inj h
      have hl : List.kerase k (⟨k, a'⟩ :: l) = l := List.kerase_cons_eq rfl
      rw [hl, List.map_cons, List.sum_cons]
    · rw [List.dlookup_cons_ne _ e hk] at h
      rw [List.kerase_cons_ne hk, List.map_cons, List.map_cons, List.sum_cons, List.sum_cons, ih h]
      exact add_left_comm _ _ _

theorem sum_map_erase (f : (Σ _ : κ, α) → M) (h : d.lookup k = some a) :
    (d.entries.map f).sum = f ⟨k, a⟩ + ((d.erase k).entries.map f).sum :=
  sum_map_kerase f h

theorem sum_map_insert (f : (Σ _ : κ, α) → M) (h : d.lookup k = none) (a : α) :
    ((d.insert k a).entries.map f).sum = f ⟨k, a⟩ + (d.entries.map f).sum := by
  rw [AList.entries_insert_of_notMem (AList.lookup_eq_none.mp h), List.map_cons, List.sum_cons]

theorem sum_map_overwrite (f : (Σ _ : κ, α) → M) (h : d.lookup k = some a) {b : α}
    (hf : f ⟨k, b⟩ = f ⟨k, a⟩) :
    ((d.insert k b).entries.map f).sum = (d.entries.map f).sum := by
  rw [AList.entries_insert, List.map_cons, List.sum_cons, hf]
  exact (sum_map_kerase f h).symm

end Sums

end SmartHAProxy
