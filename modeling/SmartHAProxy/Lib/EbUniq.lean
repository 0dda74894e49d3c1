/-
Elastic binary trees with unique keys (`EB_ROOT_UNIQUE`), seen from outside.

A node that is inserted under a key which is there already is not linked: the old node
stays.  What a client observes is therefore a list of nodes with strictly increasing keys,
and a node is named by its key.  Each operation says which nodes are below and above a key,
so that a client argues about a tree split at a node: `nodes = pre ++ (key, x) :: post`.
-/
import Mathlib.Data.List.Sort

namespace SmartHAProxy

/-- A tree with unique keys: its nodes in key order. -/
structure EbUniq (κ α : Type*) [LinearOrder κ] where
  nodes : List (κ × α)
  sorted : nodes.Pairwise fun a b => a.1 < b.1

namespace EbUniq

variable {κ α : Type*} [LinearOrder κ]
variable {t : EbUniq κ α} {key : κ} {n : κ × α} {pre post : List (κ × α)}

@[ext] theorem ext {u : EbUniq κ α} (h : t.nodes = u.nodes) : t = u := by
  cases t
  cases u
  congr

/-! ### Operations -/

/-- `EB_ROOT_UNIQUE`. -/
def empty : EbUniq κ α := ⟨[], List.Pairwise.nil⟩

def below (t : EbUniq κ α) (key : κ) : List (κ × α) := t.nodes.filter (·.1 < key)

def above (t : EbUniq κ α) (key : κ) : List (κ × α) := t.nodes.filter (key < ·.1)

/-- `eb64_lookup`. -/
def lookup (t : EbUniq κ α) (key : κ) : Option α := (t.nodes.find? (·.1 = key)).map Prod.snd

/-- `eb64_lookup_le`. -/
def lookupLe (t : EbUniq κ α) (key : κ) : Option (κ × α) := (t.nodes.filter (·.1 ≤ key)).getLast?

/-- `eb64_first`. -/
def first (t : EbUniq κ α) : Option (κ × α) := t.nodes.head?

/-- `eb64_last`. -/
def last (t : EbUniq κ α) : Option (κ × α) := t.nodes.getLast?

/-- `eb64_next` of the node with a key. -/
def next (t : EbUniq κ α) (key : κ) : Option (κ × α) := (t.above key).head?

/-- `eb64_prev` of the node with a key. -/
def prev (t : EbUniq κ α) (key : κ) : Option (κ × α) := (t.below key).getLast?

theorem sorted_split (t : EbUniq κ α) (hn : n.1 = key) :
    (t.below key ++ n :: t.above key).Pairwise fun a b => a.1 < b.1 := by
  have hbelow : ∀ a ∈ t.below key, a.1 < key := fun a ha => by
    simpa using (List.mem_filter.mp ha).2
  have habove : ∀ a ∈ t.above key, key < a.1 := fun a ha => by
    simpa using (List.mem_filter.mp ha).2
  rw [List.pairwise_append, List.pairwise_cons]
  refine ⟨t.sorted.filter _, ⟨fun a ha => hn ▸ habove a ha, t.sorted.filter _⟩, ?_⟩
  intro a ha b hb
  rcases List.mem_cons.mp hb with rfl | hb
  · exact hn ▸ hbelow a ha
  · exact (hbelow a ha).trans (habove b hb)

/-- `eb64_insert`: a node that has the key already stays. -/
def insert (t : EbUniq κ α) (key : κ) (x : α) : EbUniq κ α where
  nodes := t.below key ++ (key, (t.lookup key).getD x) :: t.above key
  sorted := t.sorted_split rfl

/-- `eb64_delete` of the node with a key. -/
def delete (t : EbUniq κ α) (key : κ) : EbUniq κ α where
  nodes := t.nodes.filter (·.1 ≠ key)
  sorted := t.sorted.filter _

/-- A change of what the node with a key is embedded in. -/
def modify (t : EbUniq κ α) (key : κ) (f : α → α) : EbUniq κ α where
  nodes := t.nodes.map fun n => if n.1 = key then (n.1, f n.2) else n
  sorted := by
    rw [List.pairwise_map]
    apply t.sorted.imp
    intro a b hab
    split_ifs <;> exact hab

/-! ### A tree split at a node -/

theorem keys_lt_of_split (h : t.nodes = pre ++ n :: post) :
    (∀ a ∈ pre, a.1 < n.1) ∧ ∀ a ∈ post, n.1 < a.1 := by
  have hsorted := t.sorted
  rw [h, List.pairwise_append, List.pairwise_cons] at hsorted
  exact ⟨fun a ha => hsorted.2.2 a ha n List.mem_cons_self, hsorted.2.1.1⟩

theorem below_of_split (h : t.nodes = pre ++ n :: post) : t.below n.1 = pre := by
  obtain ⟨hpre, hpost⟩ := keys_lt_of_split h
  have hcons : (n :: post).filter (·.1 < n.1) = [] := by
    rw [List.filter_eq_nil_iff]
    intro a ha
    rcases List.mem_cons.mp ha with rfl | ha
    · simp
    · simpa using (hpost a ha).le
  rw [below, h, List.filter_append, hcons, List.append_nil, List.filter_eq_self]
  exact fun a ha => decide_eq_true (hpre a ha)

theorem above_of_split (h : t.nodes = pre ++ n :: post) : t.above n.1 = post := by
  obtain ⟨hpre, hpost⟩ := keys_lt_of_split h
  have hfront : pre.filter (n.1 < ·.1) = [] := by
    rw [List.filter_eq_nil_iff]
    intro a ha
    simpa using (hpre a ha).le
  rw [above, h, List.filter_append, hfront, List.nil_append, List.filter_cons_of_neg (by simp),
    List.filter_eq_self]
  exact fun a ha => decide_eq_true (hpost a ha)

theorem split_of_mem (h : n ∈ t.nodes) : t.nodes = t.below n.1 ++ n :: t.above n.1 := by
  obtain ⟨pre, post, heq⟩ := List.append_of_mem h
  rw [below_of_split heq, above_of_split heq, heq]

theorem next_of_split (h : t.nodes = pre ++ n :: post) : t.next n.1 = post.head? := by
  rw [next, above_of_split h]

theorem prev_of_split (h : t.nodes = pre ++ n :: post) : t.prev n.1 = pre.getLast? := by
  rw [prev, below_of_split h]

theorem nodes_delete_of_split (h : t.nodes = pre ++ n :: post) :
    (t.delete n.1).nodes = pre ++ post := by
  obtain ⟨hpre, hpost⟩ := keys_lt_of_split h
  show t.nodes.filter _ = _
  rw [h, List.filter_append, List.filter_cons_of_neg (by simp), List.filter_eq_self.mpr,
    List.filter_eq_self.mpr]
  · exact fun a ha => decide_eq_true (hpost a ha).ne'
  · exact fun a ha => decide_eq_true (hpre a ha).ne

theorem nodes_modify_of_split (h : t.nodes = pre ++ n :: post) (f : α → α) :
    (t.modify n.1 f).nodes = pre ++ (n.1, f n.2) :: post := by
  obtain ⟨hpre, hpost⟩ := keys_lt_of_split h
  have hpre' : pre.map (fun a => if a.1 = n.1 then (a.1, f a.2) else a) = pre := by
    apply List.map_congr_left (g := id) _ |>.trans (List.map_id pre)
    exact fun a ha => if_neg (hpre a ha).ne
  have hpost' : post.map (fun a => if a.1 = n.1 then (a.1, f a.2) else a) = post := by
    apply List.map_congr_left (g := id) _ |>.trans (List.map_id post)
    exact fun a ha => if_neg (hpost a ha).ne'
  show t.nodes.map _ = _
  rw [h, List.map_append, List.map_cons, hpre', hpost', if_pos rfl]

/-! ### Lookups -/

theorem lookup_eq_some {x : α} : t.lookup key = some x ↔ (key, x) ∈ t.nodes := by
  rw [lookup, Option.map_eq_some_iff]
  constructor
  · rintro ⟨n, hn, rfl⟩
    obtain rfl : n.1 = key := by simpa using List.find?_some hn
    exact List.mem_of_find?_eq_some hn
  · intro h
    refine ⟨(key, x), ?_, rfl⟩
    obtain ⟨hpre, -⟩ := keys_lt_of_split (split_of_mem h)
    rw [split_of_mem h, List.find?_append, List.find?_eq_none.mpr, Option.none_or,
      List.find?_cons_of_pos (by simp)]
    exact fun a ha => by simpa using (hpre a ha).ne

theorem lookup_eq_none : t.lookup key = none ↔ ∀ n ∈ t.nodes, n.1 ≠ key := by
  rw [lookup, Option.map_eq_none_iff, List.find?_eq_none]
  simp

theorem split_le (t : EbUniq κ α) (key : κ) :
    t.nodes = t.nodes.filter (·.1 ≤ key) ++ t.above key := by
  rw [above]
  obtain ⟨nodes, hsorted⟩ := t
  show nodes = nodes.filter _ ++ nodes.filter _
  induction nodes with
  | nil => rfl
  | cons n ns ih =>
    rw [List.pairwise_cons] at hsorted
    by_cases hn : n.1 ≤ key
    · rw [List.filter_cons_of_pos (by simpa using hn),
        List.filter_cons_of_neg (by simpa using hn), List.cons_append, ← ih hsorted.2]
    · have hall : ∀ a ∈ ns, key < a.1 := fun a ha => (not_le.mp hn).trans (hsorted.1 a ha)
      rw [List.filter_cons_of_neg (by simpa using hn),
        List.filter_cons_of_pos (by simpa using hn), List.filter_eq_nil_iff.mpr,
        List.filter_eq_self.mpr, List.nil_append]
      · exact fun a ha => decide_eq_true (hall a ha)
      · exact fun a ha => by simpa using hall a ha

theorem lookupLe_eq_some (h : t.lookupLe key = some n) :
    n.1 ≤ key ∧ ∃ pre, t.nodes = pre ++ n :: t.above key := by
  obtain ⟨pre, hpre⟩ := List.getLast?_eq_some_iff.mp h
  have hmem : n ∈ t.nodes.filter (·.1 ≤ key) := hpre ▸ List.mem_append_right _ List.mem_cons_self
  refine ⟨by simpa using (List.mem_filter.mp hmem).2, pre, ?_⟩
  have hsplit := t.split_le key
  rw [hpre, List.append_assoc] at hsplit
  exact hsplit

theorem lookupLe_eq_none (h : t.lookupLe key = none) : t.nodes = t.above key := by
  have hsplit := t.split_le key
  rwa [List.getLast?_eq_none_iff.mp h, List.nil_append] at hsplit

/-! ### Insertion -/

theorem nodes_insert_of_append (h : t.nodes = pre ++ post) (hpre : ∀ a ∈ pre, a.1 < key)
    (hpost : ∀ a ∈ post, key < a.1) (x : α) : (t.insert key x).nodes = pre ++ (key, x) :: post := by
  have hnone : t.lookup key = none := by
    rw [lookup_eq_none, h]
    intro n hn
    rcases List.mem_append.mp hn with hn | hn
    · exact (hpre n hn).ne
    · exact (hpost n hn).ne'
  have hbelow : t.below key = pre := by
    rw [below, h, List.filter_append, List.filter_eq_self.mpr, List.filter_eq_nil_iff.mpr,
      List.append_nil]
    · exact fun a ha => by simpa using (hpost a ha).le
    · exact fun a ha => decide_eq_true (hpre a ha)
  have habove : t.above key = post := by
    rw [above, h, List.filter_append, List.filter_eq_nil_iff.mpr, List.filter_eq_self.mpr,
      List.nil_append]
    · exact fun a ha => decide_eq_true (hpost a ha)
    · exact fun a ha => by simpa using (hpre a ha).le
  show t.below key ++ (key, (t.lookup key).getD x) :: t.above key = _
  rw [hbelow, habove, hnone]
  rfl

theorem nodup_keys (t : EbUniq κ α) : (t.nodes.map Prod.fst).Nodup :=
  List.pairwise_map.mpr (t.sorted.imp fun h => h.ne)

end EbUniq

end SmartHAProxy
