/-
The first best value of a sequence, some of whose members have no value.

A loop that keeps the best member met so far takes a new one when it is better
than all before it (`Leads`).  What it holds after `n` turns is the first one
with the highest value (`Best`); the member that is taken at last is the only
one of this kind.
-/
import Mathlib.Algebra.Ring.Int.Defs

namespace SmartHAProxy

variable {f : ℕ → Option ℤ} {n i k : ℕ} {s t : ℤ}

/-- Member `i` is better than all members before it. -/
def Leads (f : ℕ → Option ℤ) (i : ℕ) : Prop :=
  ∃ s, f i = some s ∧ ∀ k < i, ∀ t, f k = some t → t < s

/-- Member `k` is the first of the best ones among the first `n`, and its value is `s`. -/
structure Best (f : ℕ → Option ℤ) (n k : ℕ) (s : ℤ) : Prop where
  lt : k < n
  value : f k = some s
  first : ∀ i < k, ∀ t, f i = some t → t < s
  le : ∀ i < n, ∀ t, f i = some t → t ≤ s

theorem Best.leads (h : Best f n k s) : Leads f k := ⟨s, h.value, h.first⟩

theorem Best.unique (h : Best f n i s) (h' : Best f n k t) : i = k := by
  have hst : s ≤ t := h'.le i h.lt s h.value
  have hts : t ≤ s := h.le k h'.lt t h'.value
  rcases Nat.lt_trichotomy i k with hlt | rfl | hlt
  · have := h'.first i hlt s h.value
    omega
  · rfl
  · have := h.first k hlt t h'.value
    omega

theorem Best.skip (h : Best f n k s) (hn : ∀ t, f n = some t → t ≤ s) : Best f (n + 1) k s where
  lt := Nat.lt_succ_of_lt h.lt
  value := h.value
  first := h.first
  le := by
    intro i hi t ht
    rcases Nat.lt_succ_iff_lt_or_eq.mp hi with hi | rfl
    · exact h.le i hi t ht
    · exact hn t ht

theorem best_of_leads (hn : f n = some s) (h : ∀ i < n, ∀ t, f i = some t → t < s) :
    Best f (n + 1) n s where
  lt := Nat.lt_succ_self n
  value := hn
  first := h
  le := by
    intro i hi t ht
    rcases Nat.lt_succ_iff_lt_or_eq.mp hi with hi | rfl
    · exact Int.le_of_lt (h i hi t ht)
    · rw [hn] at ht
      exact Int.le_of_eq (Option.some.inj ht).symm

end SmartHAProxy
