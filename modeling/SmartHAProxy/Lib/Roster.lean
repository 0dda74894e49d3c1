/-
Totals and elections over a list without repetitions, and how they move when
a single member changes.

A roster is a list of members in a fixed order.  Two things are derived from
it: the sum of a quantity over all members, and the first member with some
property.  Both can be maintained when the data of one member change: the sum
by the difference (`sum_map_change`), the first member by looking only at
what stands behind the member that changed (`after`).
-/
import Mathlib.Algebra.BigOperators.Group.List.Basic
import Mathlib.Tactic.Abel

namespace SmartHAProxy

variable {α M : Type*} [DecidableEq α]

/-- The members that stand behind `i`. -/
def after (l : List α) (i : α) : List α := (l.dropWhile (· ≠ i)).tail

@[simp] theorem after_cons_self (l : List α) (i : α) : after (i :: l) i = l := by
  simp [after]

theorem after_cons_of_ne {l : List α} {i j : α} (h : j ≠ i) : after (j :: l) i = after l i := by
  simp [after, h]

theorem mem_of_mem_after {l : List α} {i j : α} (h : j ∈ after l i) : j ∈ l :=
  (List.dropWhile_sublist _).subset (List.mem_of_mem_tail h)

/-! ### Totals -/

theorem sum_map_change [AddCommGroup M] {l : List α} {i : α} {f g : α → M} (hn : l.Nodup)
    (hi : i ∈ l) (h : ∀ j ∈ l, j ≠ i → g j = f j) :
    (l.map g).sum = (l.map f).sum - f i + g i := by
  rw [← List.sum_map_erase f hi, ← List.sum_map_erase g hi]
  have hrest : (l.erase i).map g = (l.erase i).map f :=
    List.map_congr_left fun j hj =>
      h j (List.mem_of_mem_erase hj) (hn.mem_erase_iff.mp hj).1
  rw [hrest]
  abel

/-! ### Elections -/

variable {p q : α → Bool} {l : List α} {i k : α}

theorem find?_of_other_lost (h : l.find? p = some k) (hk : k ≠ i)
    (hpq : ∀ j ∈ l, j ≠ i → q j = p j) (hq : q i = false) : l.find? q = some k := by
  induction l with
  | nil => simp at h
  | cons a l ih =>
    have hpq' : ∀ j ∈ l, j ≠ i → q j = p j := fun j hj => hpq j (List.mem_cons_of_mem a hj)
    rw [List.find?_cons] at h ⊢
    by_cases hai : a = i
    · subst hai
      rw [hq]
      rcases hp : p a with - | -
      · rw [hp] at h
        exact ih h hpq'
      · rw [hp] at h
        exact absurd (Option.some.inj h).symm hk
    · rw [hpq a List.mem_cons_self hai]
      rcases hp : p a with - | -
      · rw [hp] at h
        exact ih h hpq'
      · rw [hp] at h
        exact h

theorem find?_of_first_lost (hn : l.Nodup) (h : l.find? p = some i)
    (hpq : ∀ j ∈ l, j ≠ i → q j = p j) (hq : q i = false) :
    l.find? q = (after l i).find? q := by
  induction l with
  | nil => simp at h
  | cons a l ih =>
    have hpq' : ∀ j ∈ l, j ≠ i → q j = p j := fun j hj => hpq j (List.mem_cons_of_mem a hj)
    rw [List.find?_cons] at h
    by_cases hai : a = i
    · subst hai
      rw [after_cons_self, List.find?_cons, hq]
    · rcases hp : p a with - | -
      · rw [hp] at h
        rw [after_cons_of_ne hai, List.find?_cons, hpq a List.mem_cons_self hai, hp]
        exact ih (List.nodup_cons.mp hn).2 h hpq'
      · rw [hp] at h
        exact absurd (Option.some.inj h) hai

theorem find?_of_none_gained (hi : i ∈ l) (h : l.find? p = none)
    (hpq : ∀ j ∈ l, j ≠ i → q j = p j) (hq : q i = true) : l.find? q = some i := by
  induction l with
  | nil => simp at hi
  | cons a l ih =>
    have hpq' : ∀ j ∈ l, j ≠ i → q j = p j := fun j hj => hpq j (List.mem_cons_of_mem a hj)
    rw [List.find?_cons] at h ⊢
    by_cases hai : a = i
    · rw [hai, hq]
    · rcases hp : p a with - | -
      · rw [hp] at h
        rw [hpq a List.mem_cons_self hai, hp]
        exact ih ((List.mem_cons.mp hi).resolve_left (Ne.symm hai)) h hpq'
      · rw [hp] at h
        simp at h

theorem find?_of_gained (hn : l.Nodup) (hi : i ∈ l) (h : l.find? p = some k) (hk : k ≠ i)
    (hpq : ∀ j ∈ l, j ≠ i → q j = p j) (hq : q i = true) :
    l.find? q = if k ∈ after l i then some i else some k := by
  induction l with
  | nil => simp at hi
  | cons a l ih =>
    have hpq' : ∀ j ∈ l, j ≠ i → q j = p j := fun j hj => hpq j (List.mem_cons_of_mem a hj)
    have hnl := List.nodup_cons.mp hn
    rw [List.find?_cons] at h ⊢
    by_cases hai : a = i
    · subst hai
      have hkl : k ∈ l := by
        rcases hp : p a with - | -
        · rw [hp] at h
          exact List.mem_of_find?_eq_some h
        · rw [hp] at h
          exact absurd (Option.some.inj h).symm hk
      rw [hq, after_cons_self, if_pos hkl]
    · have hil : i ∈ l := (List.mem_cons.mp hi).resolve_left (Ne.symm hai)
      rw [after_cons_of_ne hai, hpq a List.mem_cons_self hai]
      rcases hp : p a with - | -
      · rw [hp] at h
        exact ih hnl.2 hil h hpq'
      · rw [hp] at h
        obtain rfl := Option.some.inj h
        rw [if_neg fun hin => hnl.1 (mem_of_mem_after hin)]

end SmartHAProxy
