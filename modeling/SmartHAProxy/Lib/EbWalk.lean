/-
Walks through an elastic binary tree with a cursor.

`eb32_next` goes from a node to the one behind it.  When the nodes of a tree are
`A ++ n :: S`, the cursor goes from `n` to the head of `S`, the deletion of `n`
leaves `A ++ S`, and a node that is inserted behind `A` is found in what is left of
the walk (`link_append`, `head?_link`).
-/
import SmartHAProxy.Lib.EbTree

namespace SmartHAProxy

namespace EbTree

variable {κ α : Type*} [LinearOrder κ]

/-- `eb32_next`: the node behind that of an object. -/
def next [DecidableEq α] (t : EbTree κ α) (x : α) : Option (κ × α) :=
  (t.nodes.dropWhile fun n => n.2 ≠ x).tail.head?

/-! ### Lists of nodes -/

theorem filter_split {β : Type*} {p : β → Bool} {l : List β}
    (h : l.Pairwise fun a b => p b = true → p a = true) :
    l = l.filter p ++ l.filter fun b => !p b := by
  induction l with
  | nil => rfl
  | cons a l ih =>
    rw [List.pairwise_cons] at h
    rcases ha : p a
    · have hnone : ∀ b ∈ l, p b = false := by
        intro b hb
        by_contra hp
        rw [h.1 b hb (by simpa using hp)] at ha
        cases ha
      have hnil : l.filter p = [] := List.filter_eq_nil_iff.mpr (by simpa using hnone)
      have hall : l.filter (fun b => !p b) = l := List.filter_eq_self.mpr (by simpa using hnone)
      rw [List.filter_cons_of_neg (by simp [ha]), List.filter_cons_of_pos (by simp [ha]), hnil, hall]
      rfl
    · rw [List.filter_cons_of_pos ha, List.filter_cons_of_neg (by simp [ha]), List.cons_append]
      exact congrArg _ (ih h.2)

/-- A node is linked behind all nodes whose keys are not greater. -/
def link (l : List (κ × α)) (n : κ × α) : List (κ × α) :=
  l.orderedInsert (fun a b => a.1 < b.1) n

theorem mem_link {l : List (κ × α)} {n m : κ × α} : m ∈ link l n ↔ m = n ∨ m ∈ l :=
  List.mem_orderedInsert _

theorem link_append {X : List (κ × α)} {n : κ × α} (h : ∀ x ∈ X, x.1 ≤ n.1)
    (Y : List (κ × α)) : link (X ++ Y) n = X ++ link Y n := by
  induction X with
  | nil => rfl
  | cons x X ih =>
    have hx : ¬ n.1 < x.1 := not_lt.mpr (h x List.mem_cons_self)
    rw [List.cons_append, link, List.orderedInsert_cons, if_neg hx, List.cons_append]
    congr 1
    exact ih fun y hy => h y (List.mem_cons_of_mem x hy)

theorem head?_link (l : List (κ × α)) (n : κ × α) :
    (link l n).head? = if ∀ m ∈ l.head?, n.1 < m.1 then some n else l.head? := by
  rcases l with - | ⟨m, l⟩
  · rw [if_pos (by simp)]
    rfl
  · rw [link, List.orderedInsert_cons, List.head?_cons]
    by_cases h : n.1 < m.1
    · rw [if_pos h, if_pos (by simpa using h)]
      rfl
    · rw [if_neg h, if_neg (by simpa using h)]
      rfl

/-! ### Around the cursor -/

variable {t : EbTree κ α} {A S : List (κ × α)} {n : κ × α}

theorem key_le (hnodes : t.nodes = A ++ n :: S) :
    (∀ m ∈ A, m.1 ≤ n.1) ∧ ∀ m ∈ S, n.1 ≤ m.1 := by
  have hsorted := t.sorted
  rw [hnodes, List.pairwise_append, List.pairwise_cons] at hsorted
  obtain ⟨-, ⟨hS, -⟩, hA⟩ := hsorted
  exact ⟨fun m hm => hA m hm n List.mem_cons_self, hS⟩

theorem ne_of_nodup (hnodes : t.nodes = A ++ n :: S) (hnodup : t.items.Nodup) :
    (∀ m ∈ A, m.2 ≠ n.2) ∧ ∀ m ∈ S, m.2 ≠ n.2 := by
  rw [items, hnodes, List.map_append, List.map_cons, List.nodup_append,
    List.nodup_cons] at hnodup
  obtain ⟨-, ⟨hS, -⟩, hA⟩ := hnodup
  constructor
  · intro m hm
    exact hA m.2 (List.mem_map_of_mem hm) n.2 List.mem_cons_self
  · intro m hm heq
    exact hS (heq ▸ List.mem_map_of_mem hm)

variable [DecidableEq α]

theorem next_eq (hnodes : t.nodes = A ++ n :: S) (hnodup : t.items.Nodup) :
    t.next n.2 = S.head? := by
  obtain ⟨hA, -⟩ := ne_of_nodup hnodes hnodup
  rw [next, hnodes, List.dropWhile_append_of_pos (by simpa using hA),
    List.dropWhile_cons_of_neg (by simp)]
  rfl

theorem nodes_delete (hnodes : t.nodes = A ++ n :: S) (hnodup : t.items.Nodup) :
    (t.delete n.2).nodes = A ++ S := by
  obtain ⟨hA, hS⟩ := ne_of_nodup hnodes hnodup
  show (t.nodes.filter fun m => m.2 ≠ n.2) = A ++ S
  rw [hnodes, List.filter_append, List.filter_cons_of_neg (by simp),
    List.filter_eq_self.mpr (by simpa using hA), List.filter_eq_self.mpr (by simpa using hS)]

end EbTree

end SmartHAProxy
