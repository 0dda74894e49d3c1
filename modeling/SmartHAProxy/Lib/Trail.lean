/-
Lists in which some elements take back the element before them.

Read from its start, a list leaves a stack: a step up drops the innermost element,
and is counted when there is none.  Read from its end, it needs no stack: the steps
up are counted, and each element in front of them that is not a step up itself uses
one of them.  Both leave the same elements (`trail_eq`), and what they leave is taken
from the list in its order (`trail_sublist`) and left again by itself (`trail_again`).
-/
import Mathlib.Data.List.Induction

namespace SmartHAProxy

open scoped List

/-- The steps up that found nothing, and the elements left, the innermost first. -/
@[ext] structure Trail (α : Type) where
  ups : ℕ
  stack : List α
  deriving DecidableEq

variable {α : Type} {isUp : α → Bool}

/-! ### From both ends -/

/-- One element, behind those read so far. -/
def Trail.step (isUp : α → Bool) (s : Trail α) (x : α) : Trail α :=
  if isUp x then
    match s.stack with
    | [] => { s with ups := s.ups + 1 }
    | _ :: stack => { s with stack := stack }
  else { s with stack := x :: s.stack }

/-- What a list leaves, read from its start. -/
def trail (isUp : α → Bool) (l : List α) : Trail α := l.foldl (Trail.step isUp) ⟨0, []⟩

/-- One element, in front of those read so far; `stack` holds the outermost first here. -/
def Trail.back (isUp : α → Bool) (x : α) (s : Trail α) : Trail α :=
  if isUp x then { s with ups := s.ups + 1 }
  else if 0 < s.ups then { s with ups := s.ups - 1 }
  else { s with stack := x :: s.stack }

/-- What a list leaves, read from its end, in front of `s`. -/
def trailBack (isUp : α → Bool) (l : List α) (s : Trail α) : Trail α :=
  l.foldr (Trail.back isUp) s

@[simp] theorem trailBack_nil (s : Trail α) : trailBack isUp [] s = s := rfl

theorem trailBack_concat (l : List α) (x : α) (s : Trail α) :
    trailBack isUp (l ++ [x]) s = trailBack isUp l (s.back isUp x) := by
  simp [trailBack]

theorem trail_concat (l : List α) (x : α) :
    trail isUp (l ++ [x]) = (trail isUp l).step isUp x := by
  simp [trail]

section Step

variable {x : α} {s : Trail α}

theorem Trail.step_of_not_up (hx : isUp x = false) :
    s.step isUp x = { s with stack := x :: s.stack } := by
  simp [Trail.step, hx]

theorem Trail.step_up_nil (hx : isUp x = true) (hs : s.stack = []) :
    s.step isUp x = { s with ups := s.ups + 1 } := by
  simp [Trail.step, hx, hs]

theorem Trail.step_up_cons {y : α} {st : List α} (hx : isUp x = true) (hs : s.stack = y :: st) :
    s.step isUp x = { s with stack := st } := by
  simp [Trail.step, hx, hs]

theorem Trail.back_up (hx : isUp x = true) :
    s.back isUp x = { s with ups := s.ups + 1 } := by
  simp [Trail.back, hx]

theorem Trail.back_pos (hx : isUp x = false) (hs : 0 < s.ups) :
    s.back isUp x = { s with ups := s.ups - 1 } := by
  simp [Trail.back, hx, hs]

theorem Trail.back_zero (hx : isUp x = false) (hs : s.ups = 0) :
    s.back isUp x = { s with stack := x :: s.stack } := by
  simp [Trail.back, hx, hs]

end Step

/-- What is left of `s` and of a list behind it that leaves `b` from its end: the steps up of the
list take back the innermost elements of `s`. -/
def Trail.joined (s b : Trail α) : Trail α :=
  ⟨s.ups + (b.ups - s.stack.length), b.stack.reverse ++ s.stack.drop b.ups⟩

theorem Trail.joined_step (s b : Trail α) (x : α) :
    (s.step isUp x).joined b = s.joined (b.back isUp x) := by
  cases hx : isUp x with
  | true =>
    rw [Trail.back_up hx]
    cases hs : s.stack with
    | nil =>
      rw [Trail.step_up_nil hx hs]
      ext1
      · show s.ups + 1 + (b.ups - s.stack.length) = s.ups + (b.ups + 1 - s.stack.length)
        rw [hs, List.length_nil]
        omega
      · simp [Trail.joined, hs]
    | cons y st =>
      rw [Trail.step_up_cons hx hs]
      simp [Trail.joined, hs]
  | false =>
    rw [Trail.step_of_not_up hx]
    rcases Nat.eq_zero_or_pos b.ups with hups | hups
    · rw [Trail.back_zero hx hups]
      simp [Trail.joined, hups]
    · rw [Trail.back_pos hx hups]
      obtain ⟨u, hu⟩ := Nat.exists_eq_add_of_lt hups
      simp [Trail.joined, hu]

theorem foldl_step_eq (l : List α) (s : Trail α) :
    l.foldl (Trail.step isUp) s = s.joined (trailBack isUp l ⟨0, []⟩) := by
  induction l generalizing s with
  | nil => simp [Trail.joined]
  | cons x l ih =>
    rw [List.foldl_cons, ih, Trail.joined_step]
    rfl

/-- **Both ends leave the same.** -/
theorem trail_eq (l : List α) :
    trail isUp l =
      ⟨(trailBack isUp l ⟨0, []⟩).ups, (trailBack isUp l ⟨0, []⟩).stack.reverse⟩ := by
  rw [trail, foldl_step_eq]
  simp [Trail.joined]

/-! ### What is left -/

theorem isUp_trail (isUp : α → Bool) (l : List α) : ∀ x ∈ (trail isUp l).stack, isUp x = false := by
  induction l using List.reverseRecOn with
  | nil => simp [trail]
  | append_singleton l x ih =>
    rw [trail_concat]
    cases hx : isUp x with
    | true =>
      cases hs : (trail isUp l).stack with
      | nil => simp [Trail.step_up_nil hx hs, hs]
      | cons y st =>
        rw [Trail.step_up_cons hx hs]
        intro z hz
        exact ih z (hs ▸ List.mem_cons_of_mem _ hz)
    | false =>
      rw [Trail.step_of_not_up hx]
      simpa [hx] using ih

theorem trail_sublist {up : α} (hup : ∀ x, isUp x = true → x = up) (l : List α) :
    List.replicate (trail isUp l).ups up ++ (trail isUp l).stack.reverse <+ l := by
  induction l using List.reverseRecOn with
  | nil => simp [trail]
  | append_singleton l x ih =>
    rw [trail_concat]
    cases hx : isUp x with
    | true =>
      cases hs : (trail isUp l).stack with
      | nil =>
        rw [Trail.step_up_nil hx hs]
        simp only [hs, List.reverse_nil, List.append_nil] at ih ⊢
        rw [List.replicate_succ', hup x hx]
        exact ih.append_right _
      | cons y st =>
        rw [Trail.step_up_cons hx hs]
        rw [hs, List.reverse_cons, ← List.append_assoc] at ih
        exact ((List.sublist_append_left _ _).trans ih).trans (List.sublist_append_left _ _)
    | false =>
      rw [Trail.step_of_not_up hx]
      simp only [List.reverse_cons, ← List.append_assoc]
      exact ih.append_right _

theorem trail_replicate {up : α} (hup : isUp up = true) (n : ℕ) :
    trail isUp (List.replicate n up) = ⟨n, []⟩ := by
  induction n with
  | zero => rfl
  | succ n ih =>
    rw [List.replicate_succ', trail_concat, ih]
    exact Trail.step_up_nil hup rfl

/-- **What is left is left again.** -/
theorem trail_again {up : α} (hup : isUp up = true) (n : ℕ) {st : List α}
    (hst : ∀ x ∈ st, isUp x = false) :
    trail isUp (List.replicate n up ++ st.reverse) = ⟨n, st⟩ := by
  induction st with
  | nil => simpa using trail_replicate hup n
  | cons x st ih =>
    rw [List.reverse_cons, ← List.append_assoc, trail_concat,
      ih fun y hy => hst y (List.mem_cons_of_mem _ hy)]
    exact Trail.step_of_not_up (hst x List.mem_cons_self)

theorem stack_suffix_trailBack (isUp : α → Bool) (l : List α) (s : Trail α) :
    s.stack <:+ (trailBack isUp l s).stack := by
  induction l using List.reverseRecOn generalizing s with
  | nil => exact List.suffix_refl _
  | append_singleton l x ih =>
    rw [trailBack_concat]
    have hback : s.stack <:+ (s.back isUp x).stack := by
      rw [Trail.back]
      split_ifs
      · exact List.suffix_refl _
      · exact List.suffix_refl _
      · exact List.suffix_cons _ _
    exact hback.trans (ih _)

theorem flatMap_length_lt {β : Type} {f : α → List β} (hf : ∀ x, f x ≠ []) {l₁ l₂ : List α}
    (h : l₁ <+ l₂) : l₁ = l₂ ∨ (l₁.flatMap f).length < (l₂.flatMap f).length := by
  induction h with
  | slnil => exact .inl rfl
  | cons x h ih =>
    right
    have hx := List.length_pos_iff.2 (hf x)
    simp only [List.flatMap_cons, List.length_append]
    rcases ih with rfl | ih <;> omega
  | cons_cons x h ih =>
    rcases ih with rfl | ih
    · exact .inl rfl
    · right
      simp only [List.flatMap_cons, List.length_append]
      omega

end SmartHAProxy
