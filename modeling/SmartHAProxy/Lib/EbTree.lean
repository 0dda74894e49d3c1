/-
Elastic binary trees, seen from outside.

An elastic binary tree keeps nodes ordered by their keys and allows several
nodes with one key; these come out in the order of their insertion.  What a
client can observe of a tree is therefore a list of keyed nodes, sorted by
key, into which a node is inserted behind all nodes whose keys are not
greater.  That list is the model, and it carries the proof that it is sorted.

A node is named by the object it is embedded in.  Deleting a node that is not
linked has no effect, as in the C code, where the node's own link tells
whether it is in a tree.
-/
import Mathlib.Data.List.Sort

namespace SmartHAProxy

/-- 32-bit keys are compared as unsigned numbers. -/
instance linearOrderUInt32 : LinearOrder UInt32 where
  le_refl := UInt32.le_refl
  le_trans := fun _ _ _ => UInt32.le_trans
  lt_iff_le_not_ge := fun a b => by
    simp only [UInt32.le_iff_toNat_le, UInt32.lt_iff_toNat_lt]
    omega
  le_antisymm := fun _ _ => UInt32.le_antisymm
  le_total := UInt32.le_total
  toDecidableLE := inferInstance

structure EbTree (κ α : Type*) [LinearOrder κ] where
  nodes : List (κ × α)
  sorted : nodes.Pairwise fun a b => a.1 ≤ b.1

namespace EbTree

variable {κ α : Type*} [LinearOrder κ]
variable {t : EbTree κ α} {key : κ} {x : α} {n : κ × α}

/-! ### Operations -/

/-- `EB_ROOT`. -/
def empty : EbTree κ α := ⟨[], List.Pairwise.nil⟩

/-- The objects of the tree, in key order. -/
def items (t : EbTree κ α) : List α := t.nodes.map Prod.snd

theorem sorted_orderedInsert (a : κ × α) (l : List (κ × α))
    (h : l.Pairwise fun a b => a.1 ≤ b.1) :
    (l.orderedInsert (fun a b => a.1 < b.1) a).Pairwise fun a b => a.1 ≤ b.1 := by
  induction l with
  | nil => simp
  | cons b l ih =>
    rw [List.pairwise_cons] at h
    rw [List.orderedInsert_cons]
    split_ifs with hab
    · rw [List.pairwise_cons, List.pairwise_cons]
      refine ⟨?_, h⟩
      rintro c hc
      rcases List.mem_cons.mp hc with rfl | hc
      · exact hab.le
      · exact hab.le.trans (h.1 c hc)
    · rw [List.pairwise_cons]
      refine ⟨?_, ih h.2⟩
      intro c hc
      rcases (List.mem_orderedInsert _).mp hc with rfl | hc
      · exact not_lt.mp hab
      · exact h.1 c hc

/-- `eb32_insert`: behind all nodes whose keys are not greater. -/
def insert (t : EbTree κ α) (key : κ) (x : α) : EbTree κ α where
  nodes := t.nodes.orderedInsert (fun a b => a.1 < b.1) (key, x)
  sorted := sorted_orderedInsert (key, x) t.nodes t.sorted

/-- `eb32_delete`. -/
def delete [DecidableEq α] (t : EbTree κ α) (x : α) : EbTree κ α where
  nodes := t.nodes.filter fun a => a.2 ≠ x
  sorted := t.sorted.filter _

/-- `eb32_first`. -/
def first (t : EbTree κ α) : Option α := t.items.head?

/-- `eb32_first`, with the key of the node. -/
def firstNode (t : EbTree κ α) : Option (κ × α) := t.nodes.head?

def dropFirst (t : EbTree κ α) : EbTree κ α := ⟨t.nodes.tail, t.sorted.tail⟩

/-- `eb32_lookup_ge`: the first node whose key is not less. -/
def lookupGe (t : EbTree κ α) (key : κ) : Option (κ × α) := t.nodes.find? (key ≤ ·.1)

/-! ### What the operations do to the items -/

@[simp] theorem items_empty : (empty : EbTree κ α).items = [] := rfl

theorem items_insert_perm (t : EbTree κ α) (key : κ) (x : α) :
    (t.insert key x).items.Perm (x :: t.items) :=
  (List.perm_orderedInsert _ _ _).map Prod.snd

@[simp] theorem mem_insert {y : α} : y ∈ (t.insert key x).items ↔ y = x ∨ y ∈ t.items := by
  rw [(t.items_insert_perm key x).mem_iff, List.mem_cons]

theorem first_mem (h : t.first = some x) : x ∈ t.items :=
  List.mem_of_mem_head? h

theorem firstNode_mem (h : t.firstNode = some n) : n.2 ∈ t.items :=
  List.mem_map_of_mem (List.mem_of_mem_head? h)

@[simp] theorem nodes_dropFirst (t : EbTree κ α) : t.dropFirst.nodes = t.nodes.tail := rfl

theorem first_of_length {k : ℕ} (h : t.nodes.length = k + 1) :
    ∃ x, t.first = some x ∧ x ∈ t.items ∧ t.dropFirst.nodes.length = k := by
  obtain ⟨n, l, hl⟩ := List.exists_cons_of_length_eq_add_one h
  refine ⟨n.2, ?_, ?_, ?_⟩
  · rw [first, items, hl]
    rfl
  · rw [items, hl]
    exact List.mem_cons_self
  · rw [nodes_dropFirst, hl]
    rw [hl] at h
    exact Nat.succ.inj h

theorem lookupGe_mem (h : t.lookupGe key = some n) : n.2 ∈ t.items :=
  List.mem_map_of_mem (List.mem_of_find?_eq_some h)

variable [DecidableEq α]

@[simp] theorem items_delete (t : EbTree κ α) (x : α) :
    (t.delete x).items = t.items.filter (· ≠ x) := by
  simp only [items, delete, List.filter_map]
  rfl

theorem count_insert (t : EbTree κ α) (key : κ) (x y : α) :
    (t.insert key x).items.count y = t.items.count y + if x = y then 1 else 0 := by
  rw [(t.items_insert_perm key x).count_eq, List.count_cons]
  simp

theorem count_delete (t : EbTree κ α) (x y : α) :
    (t.delete x).items.count y = if y = x then 0 else t.items.count y := by
  rw [items_delete]
  split_ifs with h
  · rw [List.count_eq_zero]
    simp [h]
  · exact List.count_filter (by simpa using h)

theorem length_delete_le (t : EbTree κ α) (x : α) :
    (t.delete x).items.length ≤ t.items.length := by
  rw [items_delete]
  exact List.length_filter_le _ _

theorem length_delete_lt (h : x ∈ t.items) : (t.delete x).items.length < t.items.length := by
  rw [items_delete]
  exact List.length_filter_lt_length_iff_exists.mpr ⟨x, h, by simp⟩

theorem length_delete_of_nodup (h : x ∈ t.items) (hn : t.items.Nodup) :
    (t.delete x).items.length + 1 = t.items.length := by
  have herase : (t.delete x).items = t.items.erase x := by
    rw [items_delete, hn.erase_eq_filter]
    exact List.filter_congr fun y _ => by simp [bne, BEq.beq]
  rw [herase]
  exact List.length_erase_add_one h

/-! ### Nodes -/

omit [DecidableEq α] in
theorem nodes_insert_perm (t : EbTree κ α) (key : κ) (x : α) :
    (t.insert key x).nodes.Perm ((key, x) :: t.nodes) :=
  List.perm_orderedInsert _ _ _

omit [DecidableEq α] in
theorem mem_nodes_insert : n ∈ (t.insert key x).nodes ↔ n = (key, x) ∨ n ∈ t.nodes :=
  List.mem_orderedInsert _

theorem mem_nodes_delete : n ∈ (t.delete x).nodes ↔ n ∈ t.nodes ∧ n.2 ≠ x := by
  rw [delete, List.mem_filter, decide_eq_true_iff]

theorem nodup_items_delete (x : α) (h : t.items.Nodup) : (t.delete x).items.Nodup := by
  rw [items_delete]
  exact h.filter _

theorem nodup_items_insert_delete (key : κ) (x : α) (h : t.items.Nodup) :
    ((t.delete x).insert key x).items.Nodup := by
  rw [((t.delete x).items_insert_perm key x).nodup_iff, List.nodup_cons]
  exact ⟨by simp, nodup_items_delete x h⟩

end EbTree

end SmartHAProxy
