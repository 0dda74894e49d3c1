/-
Sets of numbers as lists of ranges.

The ranges of a canonical list are not empty and increase with a gap of at least one number
between them (`Apart`).  A new range that may reach into what follows swallows ranges as
long as they touch the place where it ended at first; `swallow_spec` says why looking at
that place is enough, although the range grows on the way.
-/
import Mathlib.Data.List.Basic

namespace SmartHAProxy

variable {rs : List (ℕ × ℕ)}

namespace RangeSet

def Covers (rs : List (ℕ × ℕ)) (n : ℕ) : Prop := ∃ r ∈ rs, r.1 ≤ n ∧ n ≤ r.2

/-- Disjoint ranges that do not touch, in increasing order. -/
structure Apart (rs : List (ℕ × ℕ)) : Prop where
  valid : ∀ r ∈ rs, r.1 ≤ r.2
  gaps : rs.Pairwise fun a b => a.2 + 1 < b.1

theorem covers_nil (n : ℕ) : ¬ Covers [] n := nofun

theorem covers_cons {r : ℕ × ℕ} {n : ℕ} :
    Covers (r :: rs) n ↔ (r.1 ≤ n ∧ n ≤ r.2) ∨ Covers rs n := by
  simp [Covers]

theorem covers_append {ss : List (ℕ × ℕ)} {n : ℕ} :
    Covers (rs ++ ss) n ↔ Covers rs n ∨ Covers ss n := by
  simp only [Covers, List.mem_append, or_and_right, exists_or]

theorem apart_nil : Apart [] := ⟨nofun, List.Pairwise.nil⟩

theorem apart_cons {r : ℕ × ℕ} :
    Apart (r :: rs) ↔ r.1 ≤ r.2 ∧ (∀ s ∈ rs, r.2 + 1 < s.1) ∧ Apart rs := by
  constructor
  · intro h
    obtain ⟨hgap, hrest⟩ := List.pairwise_cons.mp h.gaps
    exact ⟨h.valid r List.mem_cons_self, hgap,
      fun s hs => h.valid s (List.mem_cons_of_mem r hs), hrest⟩
  · rintro ⟨hr, hgap, hrs⟩
    refine ⟨fun s hs => ?_, List.pairwise_cons.mpr ⟨hgap, hrs.gaps⟩⟩
    rcases List.mem_cons.mp hs with rfl | hs
    · exact hr
    · exact hrs.valid s hs

theorem apart_append {ss : List (ℕ × ℕ)} :
    Apart (rs ++ ss) ↔ Apart rs ∧ Apart ss ∧ ∀ r ∈ rs, ∀ s ∈ ss, r.2 + 1 < s.1 := by
  constructor
  · intro h
    obtain ⟨hrs, hss, hgap⟩ := List.pairwise_append.mp h.gaps
    exact ⟨⟨fun r hr => h.valid r (List.mem_append_left ss hr), hrs⟩,
      ⟨fun s hs => h.valid s (List.mem_append_right rs hs), hss⟩, hgap⟩
  · rintro ⟨hrs, hss, hgap⟩
    refine ⟨fun r hr => ?_, List.pairwise_append.mpr ⟨hrs.gaps, hss.gaps, hgap⟩⟩
    rcases List.mem_append.mp hr with hr | hr
    · exact hrs.valid r hr
    · exact hss.valid r hr

theorem Apart.length_le {k m : ℕ} (h : Apart rs) (hk : ∀ r ∈ rs, k ≤ r.1) (hm : ∀ r ∈ rs, r.2 < m) :
    rs.length ≤ m - k := by
  induction rs generalizing k with
  | nil => exact Nat.zero_le _
  | cons r rs ih =>
    obtain ⟨hr, hgap, hrs⟩ := apart_cons.mp h
    have hkr := hk r List.mem_cons_self
    have hrm := hm r List.mem_cons_self
    have hrest := ih (k := r.2 + 1) hrs (fun s hs => Nat.le_of_lt (hgap s hs))
      fun s hs => hm s (List.mem_cons_of_mem r hs)
    rw [List.length_cons]
    omega

theorem Apart.replace {pre post : List (ℕ × ℕ)} {f l l' : ℕ}
    (hpre : Apart (pre ++ [(f, l)])) (hpost : Apart post) (hl : l ≤ l')
    (hgap : ∀ r ∈ post, l' + 1 < r.1) : Apart (pre ++ (f, l') :: post) := by
  obtain ⟨hpre, hmid, hfront⟩ := apart_append.mp hpre
  have hfl : f ≤ l := hmid.valid (f, l) List.mem_cons_self
  refine apart_append.mpr ⟨hpre, apart_cons.mpr ⟨Nat.le_trans hfl hl, hgap, hpost⟩, ?_⟩
  intro r hr s hs
  have hrf : r.2 + 1 < f := hfront r hr (f, l) List.mem_cons_self
  rcases List.mem_cons.mp hs with rfl | hs
  · exact hrf
  · have hs' := hgap s hs
    omega

/-- Swallow the ranges that touch `bound`, with the end of the range so far. -/
def swallow (bound : ℕ) : ℕ → List (ℕ × ℕ) → ℕ × List (ℕ × ℕ)
  | last, [] => (last, [])
  | last, r :: rs =>
    if bound + 1 < r.1 then (last, r :: rs)
    else swallow bound (if last < r.2 then r.2 else last) rs

/-- What is left is apart from the range, which covers what has been swallowed.  The range
ends at `bound` or has swallowed its last range already. -/
theorem swallow_spec {bound last first m : ℕ} (hrs : Apart rs) (hfirst : first ≤ last)
    (hbound : bound ≤ last) (hstart : ∀ r ∈ rs, first < r.1)
    (hlast : last = bound ∨ ∀ r ∈ rs, last + 1 < r.1) (hm : last < m) (hmrs : ∀ r ∈ rs, r.2 < m) :
    last ≤ (swallow bound last rs).1 ∧ (swallow bound last rs).1 < m ∧
      (swallow bound last rs).2 <:+ rs ∧
      (∀ r ∈ (swallow bound last rs).2, (swallow bound last rs).1 + 1 < r.1) ∧
      ∀ n, (first ≤ n ∧ n ≤ (swallow bound last rs).1 ∨ Covers (swallow bound last rs).2 n) ↔
        (first ≤ n ∧ n ≤ last ∨ Covers rs n) := by
  induction rs generalizing last with
  | nil => exact ⟨Nat.le_refl _, hm, List.suffix_refl _, nofun, fun n => Iff.rfl⟩
  | cons r rs ih =>
    obtain ⟨hr, hgap, hrs'⟩ := apart_cons.mp hrs
    have hfr : first < r.1 := hstart r List.mem_cons_self
    rw [swallow]
    by_cases hstop : bound + 1 < r.1
    · rw [if_pos hstop]
      refine ⟨Nat.le_refl _, hm, List.suffix_refl _, ?_, fun n => Iff.rfl⟩
      intro s hs
      rcases hlast with rfl | hlast
      · rcases List.mem_cons.mp hs with rfl | hs
        · exact hstop
        · have hs' := hgap s hs
          show last + 1 < s.1
          omega
      · exact hlast s hs
    · rw [if_neg hstop]
      -- the range has not grown before, since the last one it swallowed was apart from `r`
      obtain rfl : last = bound := hlast.resolve_right fun h => by
        have hr' := h r List.mem_cons_self
        omega
      have hrm : r.2 < m := hmrs r List.mem_cons_self
      obtain ⟨hle, hlt, hsuffix, hgaps, hcovers⟩ := ih hrs'
        (show first ≤ if last < r.2 then r.2 else last by split_ifs <;> omega)
        (by split_ifs <;> omega)
        (fun s hs => hstart s (List.mem_cons_of_mem r hs))
        (by
          split_ifs with hgrow
          · exact .inr hgap
          · exact .inl rfl)
        (by split_ifs <;> omega) (fun s hs => hmrs s (List.mem_cons_of_mem r hs))
      refine ⟨?_, hlt, hsuffix.trans (List.suffix_cons r rs), hgaps, fun n => ?_⟩
      · refine Nat.le_trans ?_ hle
        split_ifs <;> omega
      · rw [hcovers n, covers_cons]
        have hjoin : (first ≤ n ∧ n ≤ if last < r.2 then r.2 else last) ↔
            (first ≤ n ∧ n ≤ last) ∨ (r.1 ≤ n ∧ n ≤ r.2) := by
          split_ifs <;> omega
        rw [hjoin, or_assoc]

end RangeSet

end SmartHAProxy
