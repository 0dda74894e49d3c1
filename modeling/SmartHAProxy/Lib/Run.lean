/-
Runs of a step function that may fail.

A run is `List.foldlM` of the step function over the list of inputs, in the
`Except` monad: the first step that fails ends it.  Runs are taken apart at
their last step (`foldlM_concat_eq_ok`), which is how a property of the state
reached is proved from what one more step does to it (`foldlM_invariant`).
-/
import Mathlib.Data.List.Infix

namespace SmartHAProxy

universe u

variable {ε α : Type*} {σ τ : Type u}
variable {step : σ → α → Except ε σ} {s₀ : σ} {P : List α → σ → Prop} {cond : σ → α → Prop}

theorem bind_eq_ok_iff {x : Except ε σ} {f : σ → Except ε τ} {t : τ} :
    x >>= f = .ok t ↔ ∃ s, x = .ok s ∧ f s = .ok t := by
  rcases x with e | s <;> simp [bind, Except.bind]

theorem foldlM_concat_eq_ok {s t : σ} {xs : List α} {x : α} :
    (xs ++ [x]).foldlM step s = .ok t
      ↔ ∃ m, xs.foldlM step s = .ok m ∧ step m x = .ok t := by
  rw [List.foldlM_append, bind_eq_ok_iff]
  simp

theorem foldlM_invariant (h₀ : P [] s₀)
    (hstep : ∀ xs s x t, P xs s → step s x = .ok t → P (xs ++ [x]) t) :
    ∀ {xs t}, xs.foldlM step s₀ = .ok t → P xs t := by
  intro xs
  induction xs using List.reverseRecOn with
  | nil =>
    intro t h
    obtain rfl : s₀ = t := by simpa [pure, Except.pure] using h
    exact h₀
  | append_singleton xs x ih =>
    intro t h
    obtain ⟨m, hm, hx⟩ := foldlM_concat_eq_ok.mp h
    exact hstep xs m x t (ih hm) hx

theorem foldlM_invariant_of_some {step : σ → α → Option σ} (h₀ : P [] s₀)
    (hstep : ∀ xs s x t, P xs s → step s x = some t → P (xs ++ [x]) t) :
    ∀ {xs t}, xs.foldlM step s₀ = some t → P xs t := by
  intro xs
  induction xs using List.reverseRecOn with
  | nil =>
    intro t h
    obtain rfl : s₀ = t := by simpa using h
    exact h₀
  | append_singleton xs x ih =>
    intro t h
    rw [List.foldlM_append, Option.bind_eq_bind, Option.bind_eq_some_iff] at h
    obtain ⟨m, hm, hx⟩ := h
    exact hstep xs m x t (ih hm) (by simpa using hx)

/-- Every step of the run meets `cond` in the state in which it is made. -/
def StepsMeet (step : σ → α → Except ε σ) (cond : σ → α → Prop) (s₀ : σ) (xs : List α) : Prop :=
  ∀ pre x s, pre ++ [x] <+: xs → pre.foldlM step s₀ = .ok s → cond s x

theorem stepsMeet_nil (step : σ → α → Except ε σ) (cond : σ → α → Prop) (s₀ : σ) :
    StepsMeet step cond s₀ [] := by
  intro pre x s hpre
  simp at hpre

theorem stepsMeet_cons {x : α} {xs : List α} (hx : cond s₀ x)
    (h : ∀ t, step s₀ x = .ok t → StepsMeet step cond t xs) : StepsMeet step cond s₀ (x :: xs) := by
  intro pre y s hpre hs
  rcases pre with - | ⟨z, pre⟩
  · obtain rfl : s₀ = s := by simpa [pure, Except.pure] using hs
    obtain rfl : y = x := by simpa using hpre
    exact hx
  · obtain ⟨rfl, htail⟩ : z = x ∧ pre ++ [y] <+: xs := by simpa using hpre
    rw [List.foldlM_cons, bind_eq_ok_iff] at hs
    obtain ⟨t, ht, hs⟩ := hs
    exact h t ht pre y s htail hs

theorem foldlM_invariant_of_meet (h₀ : P [] s₀)
    (hstep : ∀ xs s x t, P xs s → cond s x → step s x = .ok t → P (xs ++ [x]) t) :
    ∀ {xs t}, StepsMeet step cond s₀ xs → xs.foldlM step s₀ = .ok t → P xs t := by
  intro xs
  induction xs using List.reverseRecOn with
  | nil =>
    intro t _ h
    obtain rfl : s₀ = t := by simpa [pure, Except.pure] using h
    exact h₀
  | append_singleton xs x ih =>
    intro t hmeet h
    obtain ⟨s, hs, hx⟩ := foldlM_concat_eq_ok.mp h
    have hpre : StepsMeet step cond s₀ xs := fun pre y s hpre => hmeet pre y s
      (hpre.trans (List.prefix_append xs [x]))
    exact hstep xs s x t (ih hpre hs) (hmeet xs x s (List.prefix_refl _) hs) hx

theorem foldlM_safe {inv : σ → Prop}
    (hstep : ∀ s x, inv s → cond s x → ∃ t, step s x = .ok t ∧ inv t) (h₀ : inv s₀) :
    ∀ {xs}, StepsMeet step cond s₀ xs → ∃ t, xs.foldlM step s₀ = .ok t ∧ inv t := by
  intro xs
  induction xs using List.reverseRecOn with
  | nil => exact fun _ => ⟨s₀, rfl, h₀⟩
  | append_singleton xs x ih =>
    intro hmeet
    obtain ⟨s, hs, hinv⟩ := ih fun pre y s hpre => hmeet pre y s
      (hpre.trans (List.prefix_append xs [x]))
    obtain ⟨t, ht, hinv'⟩ := hstep s x hinv (hmeet xs x s (List.prefix_refl _) hs)
    exact ⟨t, foldlM_concat_eq_ok.mpr ⟨s, hs, ht⟩, hinv'⟩

theorem foldlM_refines {inv : σ → Prop} {abs : σ → τ} {spec : τ → α → τ}
    (hstep : ∀ s x, inv s → cond s x → ∃ t, step s x = .ok t ∧ inv t ∧ abs t = spec (abs s) x)
    (h₀ : inv s₀) :
    ∀ {xs}, StepsMeet step cond s₀ xs →
      ∃ t, xs.foldlM step s₀ = .ok t ∧ inv t ∧ abs t = xs.foldl spec (abs s₀) := by
  intro xs
  induction xs using List.reverseRecOn with
  | nil => exact fun _ => ⟨s₀, rfl, h₀, rfl⟩
  | append_singleton xs x ih =>
    intro hmeet
    obtain ⟨s, hs, hinv, habs⟩ := ih fun pre y s hpre => hmeet pre y s
      (hpre.trans (List.prefix_append xs [x]))
    obtain ⟨t, ht, hinv', habs'⟩ := hstep s x hinv (hmeet xs x s (List.prefix_refl _) hs)
    refine ⟨t, foldlM_concat_eq_ok.mpr ⟨s, hs, ht⟩, hinv', ?_⟩
    rw [habs', habs, List.foldl_concat]

end SmartHAProxy
