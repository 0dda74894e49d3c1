/-
Searching a sequence of candidates.

A search goes through candidates in a fixed order and takes the first one that
its criteria accept.  A candidate that is free but to be avoided is passed over
and remembered, and it is taken when nothing else is left.

`LeadsTo` says of an order that the search ends well: the first candidate at
which it stops is a good one.
-/
import Mathlib.Data.List.Basic

namespace SmartHAProxy

variable {α : Type*}
variable {good : α → Prop} {x : α}

/-- What a search asks about a candidate: may it be taken at all, and would the
caller rather have another one. -/
structure Criteria (α : Type*) where
  free : α → Bool
  avoid : α → Bool

/-- The first candidate at which the search stops is good. -/
def LeadsTo (stop good : α → Prop) (xs : List α) : Prop :=
  ∃ pre x post, xs = pre ++ x :: post ∧ stop x ∧ good x ∧ ∀ y ∈ pre, ¬ stop y

theorem leadsTo_iff_find? {stop : α → Bool} {xs : List α} :
    LeadsTo (fun x => stop x = true) good xs ↔ ∃ x, xs.find? stop = some x ∧ good x := by
  constructor
  · rintro ⟨pre, x, post, rfl, hstop, hgood, hpre⟩
    refine ⟨x, List.find?_eq_some_iff_append.mpr ⟨hstop, pre, post, rfl, fun y hy => ?_⟩, hgood⟩
    simpa using hpre y hy
  · rintro ⟨x, hx, hgood⟩
    obtain ⟨hstop, pre, post, rfl, hpre⟩ := List.find?_eq_some_iff_append.mp hx
    refine ⟨pre, x, post, rfl, hstop, hgood, fun y hy => ?_⟩
    simpa using hpre y hy

theorem find?_getD_good_iff {stop : α → Bool} {xs : List α} {last : α} :
    good ((xs.find? stop).getD last) ↔
      LeadsTo (fun x => stop x = true) good xs ∨ (∀ x ∈ xs, ¬ stop x = true) ∧ good last := by
  rw [leadsTo_iff_find?]
  rcases h : xs.find? stop with - | x
  · have hnone := List.find?_eq_none.mp h
    constructor
    · exact fun hgood => Or.inr ⟨hnone, hgood⟩
    · rintro (⟨x, hx, -⟩ | ⟨-, hgood⟩)
      · cases hx
      · exact hgood
  · constructor
    · exact fun hgood => Or.inl ⟨x, rfl, hgood⟩
    · rintro (⟨y, hy, hgood⟩ | ⟨hnone, -⟩)
      · obtain rfl := Option.some.inj hy
        exact hgood
      · exact absurd (List.find?_some h) (hnone x (List.mem_of_find?_eq_some h))

namespace Criteria

variable (c : Criteria α)

/-- The candidate is taken when it comes. -/
def accepts (x : α) : Bool := c.free x && !c.avoid x

/-- The search, with the candidate remembered so far. -/
def search : Option α → List α → Option α
  | avoided, [] => avoided
  | avoided, x :: xs =>
    if c.free x then
      if !c.avoid x then some x else search (some x) xs
    else search avoided xs

variable {c} {xs : List α}

theorem accepts_eq_true : c.accepts x = true ↔ c.free x = true ∧ c.avoid x = false := by
  simp [accepts]

theorem search_of_find? (h : xs.find? c.accepts = some x) (avoided : Option α) :
    c.search avoided xs = some x := by
  induction xs generalizing avoided with
  | nil => simp at h
  | cons y ys ih =>
    simp only [search]
    rcases hacc : c.accepts y with - | -
    · rw [List.find?_cons_of_neg (by simp [hacc])] at h
      split_ifs with hfree havoid
      · rw [accepts, hfree, havoid] at hacc
        cases hacc
      · exact ih h _
      · exact ih h _
    · rw [List.find?_cons_of_pos hacc] at h
      obtain ⟨hfree, havoid⟩ := accepts_eq_true.mp hacc
      rw [if_pos hfree, havoid]
      exact h

theorem search_of_not_accepts (h : ∀ x ∈ xs, c.accepts x = false) {avoided : Option α}
    (ha : ∀ x, avoided = some x → c.avoid x = true) (hx : c.search avoided xs = some x) :
    c.avoid x = true := by
  induction xs generalizing avoided with
  | nil => exact ha x hx
  | cons y ys ih =>
    have hys : ∀ z ∈ ys, c.accepts z = false := fun z hz => h z (List.mem_cons_of_mem y hz)
    simp only [search] at hx
    split_ifs at hx with hfree havoid
    · have := h y List.mem_cons_self
      rw [accepts, hfree, havoid] at this
      cases this
    · refine ih hys (fun z hz => ?_) hx
      obtain rfl := Option.some.inj hz
      simpa using havoid
    · exact ih hys ha hx

theorem search_isSome {avoided : Option α} :
    (c.search avoided xs).isSome ↔ avoided.isSome ∨ ∃ x ∈ xs, c.free x = true := by
  induction xs generalizing avoided with
  | nil => simp [search]
  | cons y ys ih =>
    simp only [search]
    split_ifs with hfree havoid
    · simp [hfree]
    · rw [ih]
      simp [hfree]
    · rw [ih]
      simp [hfree]

theorem leadsTo_accepts_iff {p : α → Prop} (havoid : ∀ x, c.avoid x = true ↔ p x ∧ ¬ good x) :
    LeadsTo (fun x => c.accepts x = true) good xs ↔
      ∃ pre x post, xs = pre ++ x :: post ∧ c.free x = true ∧ good x ∧
        ∀ y ∈ pre, c.free y = true → p y := by
  constructor
  · rintro ⟨pre, x, post, rfl, hacc, hgood, hpre⟩
    refine ⟨pre, x, post, rfl, (accepts_eq_true.mp hacc).1, hgood, fun y hy hfree => ?_⟩
    have : c.avoid y = true := by
      rcases h : c.avoid y with - | -
      · exact absurd (accepts_eq_true.mpr ⟨hfree, h⟩) (hpre y hy)
      · rfl
    exact ((havoid y).mp this).1
  · rintro ⟨pre, x, post, rfl, hfree, hgood, hpre⟩
    rw [leadsTo_iff_find?, List.find?_append]
    rcases h : pre.find? c.accepts with - | y
    · -- nothing before `x` is accepted
      have hx : c.accepts x = true := by
        refine accepts_eq_true.mpr ⟨hfree, ?_⟩
        rw [Bool.eq_false_iff]
        exact fun hav => ((havoid x).mp hav).2 hgood
      exact ⟨x, by simp [hx], hgood⟩
    · obtain ⟨hyfree, hyav⟩ := accepts_eq_true.mp (List.find?_some h)
      refine ⟨y, by simp, ?_⟩
      by_contra hbad
      have := (havoid y).mpr ⟨hpre y (List.mem_of_find?_eq_some h) hyfree, hbad⟩
      rw [hyav] at this
      cases this

/-- **The search ends well** exactly when the first accepted candidate is good,
provided that the candidates to be avoided are not good. -/
theorem search_good_iff (havoid : ∀ x, c.avoid x = true → ¬ good x) :
    (∀ x, c.search none xs = some x → good x) ↔
      ((∃ x ∈ xs, c.free x = true) → LeadsTo (fun x => c.accepts x = true) good xs) := by
  rw [leadsTo_iff_find?]
  constructor
  · intro hgood hfree
    have hsome : (c.search none xs).isSome := search_isSome.mpr (Or.inr hfree)
    obtain ⟨r, hr⟩ := Option.isSome_iff_exists.mp hsome
    rcases h : xs.find? c.accepts with - | x
    · -- nothing is accepted, so the result is one to be avoided
      have hnot : ∀ x ∈ xs, c.accepts x = false := by simpa using List.find?_eq_none.mp h
      have := search_of_not_accepts hnot (by simp) hr
      exact absurd (hgood r hr) (havoid r this)
    · exact ⟨x, rfl, hgood x (search_of_find? h none)⟩
  · intro h x hx
    have hfree : ∃ x ∈ xs, c.free x = true := by
      have hsome : (c.search none xs).isSome := by rw [hx]; rfl
      simpa using search_isSome.mp hsome
    obtain ⟨y, hy, hgood⟩ := h hfree
    rw [search_of_find? hy none] at hx
    obtain rfl := Option.some.inj hx
    exact hgood

end Criteria

end SmartHAProxy
