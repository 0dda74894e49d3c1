/-
Ranks that bound the places in a list.

Each element of the list has a rank, which is greater than the number of elements in front
of it.  Elements may leave the list anywhere, and the bound remains; this is why a count that
is kept in the last element may be stale, as long as it is not too small.
-/
import Mathlib.Algebra.Order.Ring.Nat

namespace SmartHAProxy

variable {α : Type*}

/-- With `n` elements in front of the list, each element has a rank above its place. -/
def Ranked (rank : α → ℕ) : ℕ → List α → Prop
  | _, [] => True
  | n, x :: row => n < rank x ∧ Ranked rank (n + 1) row

namespace Ranked

variable {rank rank' : α → ℕ} {n m : ℕ} {row row' : List α} {x : α}

theorem mono (h : Ranked rank n row) (hmn : m ≤ n) : Ranked rank m row := by
  induction row generalizing n m with
  | nil => trivial
  | cons x row ih => exact ⟨Nat.lt_of_le_of_lt hmn h.1, ih h.2 (Nat.succ_le_succ hmn)⟩

theorem sublist (h : Ranked rank n row) (hsub : row'.Sublist row) : Ranked rank n row' := by
  induction hsub generalizing n with
  | slnil => trivial
  | cons x _ ih => exact ih (h.2.mono (Nat.le_succ n))
  | cons_cons x _ ih => exact ⟨h.1, ih h.2⟩

theorem congr (h : Ranked rank n row) (hrank : ∀ x ∈ row, rank' x = rank x) :
    Ranked rank' n row := by
  induction row generalizing n with
  | nil => trivial
  | cons x row ih =>
    refine ⟨?_, ih h.2 fun y hy => hrank y (List.mem_cons_of_mem x hy)⟩
    rw [hrank x List.mem_cons_self]
    exact h.1

theorem append_iff : Ranked rank n (row ++ row') ↔
    Ranked rank n row ∧ Ranked rank (n + row.length) row' := by
  induction row generalizing n with
  | nil => exact ⟨fun h => ⟨trivial, h⟩, fun h => h.2⟩
  | cons x row ih =>
    show n < rank x ∧ Ranked rank (n + 1) (row ++ row') ↔ _
    have hlen : n + (x :: row).length = n + 1 + row.length := by
      rw [List.length_cons]
      omega
    rw [ih, hlen, ← and_assoc]
    rfl

theorem lt_rank {pre post : List α} (h : Ranked rank n (pre ++ x :: post)) :
    n + pre.length < rank x :=
  (append_iff.mp h).2.1

theorem length_le (h : Ranked rank 0 row) (hx : row.getLast? = some x) : row.length ≤ rank x := by
  obtain ⟨pre, rfl⟩ := List.getLast?_eq_some_iff.mp hx
  have := h.lt_rank
  rw [List.length_append, List.length_singleton]
  omega

theorem remove {pre post : List α} (h : Ranked rank n (pre ++ x :: post))
    (hpre : ∀ y ∈ pre, rank' y = rank y) (hpost : ∀ y ∈ post, rank y ≤ rank' y + 1) :
    Ranked rank' n (pre ++ post) := by
  rw [append_iff] at h ⊢
  refine ⟨h.1.congr hpre, ?_⟩
  have hrest := h.2.2
  generalize n + pre.length = k at hrest ⊢
  clear h hpre
  induction post generalizing k with
  | nil => trivial
  | cons y post ih =>
    have hy := hpost y List.mem_cons_self
    have hlt := hrest.1
    refine ⟨by omega, ih (fun z hz => hpost z (List.mem_cons_of_mem y hz)) (k + 1) hrest.2⟩

end Ranked

end SmartHAProxy
