/-
Sorting by a key when the comparison falls back to the position of the elements.

The order of the keys and, for equal keys, of the positions is total, so that every
way of sorting gives one result, and elements of equal keys stay in the order of their
positions (`filter_keySort`).
-/
import Mathlib.Data.List.Sort

namespace SmartHAProxy

open scoped List

variable {α β : Type} [LinearOrder β] (key : α → β) (pos : α → ℕ)

/-- Ordered by the key, and by the position where the keys are equal. -/
def KeyLe (a b : α) : Prop := key a < key b ∨ key a = key b ∧ pos a ≤ pos b

variable {key pos}

theorem KeyLe.key_le {a b : α} (h : KeyLe key pos a b) : key a ≤ key b := by
  rcases h with hlt | ⟨heq, -⟩
  · exact hlt.le
  · exact heq.le

theorem KeyLe.trans {a b c : α} (hab : KeyLe key pos a b) (hbc : KeyLe key pos b c) :
    KeyLe key pos a c := by
  rcases hab with hab | ⟨hab, hpab⟩ <;> rcases hbc with hbc | ⟨hbc, hpbc⟩
  · exact .inl (hab.trans hbc)
  · exact .inl (hbc ▸ hab)
  · exact .inl (hab ▸ hbc)
  · exact .inr ⟨hab.trans hbc, hpab.trans hpbc⟩

theorem KeyLe.total (a b : α) : KeyLe key pos a b ∨ KeyLe key pos b a := by
  rcases lt_trichotomy (key a) (key b) with h | h | h
  · exact .inl (.inl h)
  · rcases Nat.le_total (pos a) (pos b) with hpos | hpos
    · exact .inl (.inr ⟨h, hpos⟩)
    · exact .inr (.inr ⟨h.symm, hpos⟩)
  · exact .inr (.inl h)

theorem pairwise_keySort {le : α → α → Bool} (hle : ∀ a b, le a b = true ↔ KeyLe key pos a b)
    (l : List α) : (l.mergeSort le).Pairwise (KeyLe key pos) := by
  refine (List.pairwise_mergeSort ?_ ?_ l).imp fun h => (hle _ _).1 h
  · intro a b c hab hbc
    exact (hle a c).2 (((hle a b).1 hab).trans ((hle b c).1 hbc))
  · intro a b
    rw [Bool.or_eq_true, hle, hle]
    exact KeyLe.total a b

/-- **Equal keys stay in order**, in whatever way the elements are sorted. -/
theorem filter_keySort {l l' : List α} (hperm : l' ~ l) (hsorted : l'.Pairwise (KeyLe key pos))
    (hpos : l.Pairwise fun a b => pos a < pos b) {p : α → Bool}
    (hp : ∀ a b, p a = true → p b = true → key a = key b) : l'.filter p = l.filter p := by
  have hnodup : (l.map pos).Nodup := List.pairwise_map.2 (hpos.imp Nat.ne_of_lt)
  have hleft : (l'.filter p).Pairwise fun a b => pos a ≤ pos b := by
    -- among equal keys, the order is the one of the positions
    refine (hsorted.filter p).imp_of_mem fun {a b} ha hb h => ?_
    have hkey := hp a b (List.mem_filter.1 ha).2 (List.mem_filter.1 hb).2
    rcases h with hlt | ⟨-, hle⟩
    · exact absurd hkey hlt.ne
    · exact hle
  have hright : (l.filter p).Pairwise fun a b => pos a ≤ pos b :=
    (hpos.filter p).imp Nat.le_of_lt
  refine List.Perm.eq_of_pairwise ?_ hleft hright (hperm.filter p)
  intro a b ha hb hab hba
  have ha' := hperm.mem_iff.1 (List.mem_filter.1 ha).1
  exact List.inj_on_of_nodup_map hnodup ha' (List.mem_filter.1 hb).1 (Nat.le_antisymm hab hba)

theorem keySort_eq_self {le : α → α → Bool} (hle : ∀ a b, le a b = true ↔ KeyLe key pos a b)
    {l : List α} (hkey : l.Pairwise fun a b => key a ≤ key b)
    (hpos : l.Pairwise fun a b => pos a < pos b) : l.mergeSort le = l := by
  apply List.mergeSort_of_pairwise
  refine (hkey.and hpos).imp fun {a b} h => (hle a b).2 ?_
  rcases h.1.lt_or_eq with hlt | heq
  · exact .inl hlt
  · exact .inr ⟨heq, h.2.le⟩

end SmartHAProxy
