/-
Nodes of an elastic binary tree that share a key.

The nodes with one key come out in the order of their insertion; `eb32_lookup` finds
the oldest of them, and `eb32_next_dup` and `eb32_prev_dup` go from one to the next.
-/
import SmartHAProxy.Lib.EbTree

namespace SmartHAProxy

namespace EbTree

variable {κ α : Type*} [LinearOrder κ]
variable {t : EbTree κ α} {key : κ} {x : α} {pre post : List α}

/-! ### Operations -/

/-- The objects with a key, oldest first. -/
def dups (t : EbTree κ α) (key : κ) : List α := (t.nodes.filter (·.1 = key)).map Prod.snd

/-- `eb32_lookup`. -/
def lookup (t : EbTree κ α) (key : κ) : Option α := (t.dups key).head?

variable [DecidableEq α]

/-- The objects with the key of an object, itself included. -/
def siblings (t : EbTree κ α) (x : α) : List α :=
  match t.nodes.find? (·.2 = x) with
  | none => []
  | some n => t.dups n.1

/-- `eb32_next_dup`. -/
def nextDup (t : EbTree κ α) (x : α) : Option α := ((t.siblings x).dropWhile (· ≠ x)).tail.head?

/-- `eb32_prev_dup`. -/
def prevDup (t : EbTree κ α) (x : α) : Option α := ((t.siblings x).takeWhile (· ≠ x)).getLast?

/-! ### What they are about -/

omit [DecidableEq α] in
theorem mem_dups : x ∈ t.dups key ↔ (key, x) ∈ t.nodes := by
  constructor
  · intro h
    obtain ⟨n, hn, rfl⟩ := List.mem_map.mp h
    obtain ⟨hmem, hk⟩ := List.mem_filter.mp hn
    obtain rfl : n.1 = key := by simpa using hk
    exact hmem
  · intro h
    exact List.mem_map.mpr ⟨(key, x), List.mem_filter.mpr ⟨h, by simp⟩, rfl⟩

omit [DecidableEq α] in
theorem mem_items_of_mem_nodes {n : κ × α} (h : n ∈ t.nodes) : n.2 ∈ t.items :=
  List.mem_map_of_mem h

omit [DecidableEq α] in
theorem key_unique (hnodup : t.items.Nodup) {k k' : κ} (h : (k, x) ∈ t.nodes)
    (h' : (k', x) ∈ t.nodes) : k = k' :=
  congrArg Prod.fst (List.inj_on_of_nodup_map hnodup h h' rfl)

omit [DecidableEq α] in
theorem nodup_dups (hnodup : t.items.Nodup) (key : κ) : (t.dups key).Nodup :=
  hnodup.sublist (List.filter_sublist.map Prod.snd)

theorem siblings_eq (hnodup : t.items.Nodup) (h : x ∈ t.dups key) : t.siblings x = t.dups key := by
  rw [mem_dups] at h
  rw [siblings]
  rcases hfind : t.nodes.find? (·.2 = x) with - | ⟨k, y⟩
  · have hnone := List.find?_eq_none.mp hfind _ h
    exact absurd (decide_eq_true rfl) hnone
  · obtain rfl : y = x := by simpa using List.find?_some hfind
    rw [hfind, ← key_unique hnodup (List.mem_of_find?_eq_some hfind) h]

theorem dropWhile_ne_append (hx : x ∉ pre) : (pre ++ x :: post).dropWhile (· ≠ x) = x :: post := by
  induction pre with
  | nil => simp
  | cons y pre ih =>
    have hy : y ≠ x := fun h => hx (by simp [h])
    rw [List.cons_append, List.dropWhile_cons_of_pos (by simpa using hy)]
    exact ih fun h => hx (List.mem_cons_of_mem y h)

theorem nextDup_eq (hnodup : t.items.Nodup) (h : t.dups key = pre ++ x :: post) :
    t.nextDup x = post.head? := by
  have hx : x ∈ t.dups key := by
    rw [h]
    simp
  have hpre : x ∉ pre := fun hmem => by
    have hrow := nodup_dups hnodup key
    rw [h, List.nodup_append] at hrow
    exact hrow.2.2 x hmem x (by simp) rfl
  rw [nextDup, siblings_eq hnodup hx, h, dropWhile_ne_append hpre]
  rfl

theorem prevDup_eq (hnodup : t.items.Nodup) (h : t.dups key = pre ++ x :: post) :
    t.prevDup x = pre.getLast? := by
  have hx : x ∈ t.dups key := by
    rw [h]
    simp
  have hpre : ∀ y ∈ pre, decide (y ≠ x) = true := by
    intro y hy
    have hrow := nodup_dups hnodup key
    rw [h, List.nodup_append] at hrow
    exact decide_eq_true (hrow.2.2 y hy x (by simp))
  rw [prevDup, siblings_eq hnodup hx, h, List.takeWhile_append_of_pos hpre,
    List.takeWhile_cons_of_neg (by simp), List.append_nil]

omit [DecidableEq α] in
/-- A new object is the last one in its row. -/
theorem dups_insert (t : EbTree κ α) (key k : κ) (x : α) :
    (t.insert key x).dups k = if k = key then t.dups key ++ [x] else t.dups k := by
  have hnodes : ∀ l : List (κ × α), l.Pairwise (fun a b => a.1 ≤ b.1) →
      (l.orderedInsert (fun a b => a.1 < b.1) (key, x)).filter (·.1 = k) =
        if k = key then l.filter (·.1 = k) ++ [(key, x)] else l.filter (·.1 = k) := by
    intro l hl
    induction l with
    | nil =>
      by_cases hk : k = key
      · simp [hk]
      · simp [hk, Ne.symm hk]
    | cons b l ih =>
      rw [List.pairwise_cons] at hl
      rw [List.orderedInsert_cons]
      by_cases hlt : key < b.1
      · rw [if_pos hlt]
        by_cases hk : k = key
        · -- all that follow have greater keys
          have hnone : (b :: l).filter (·.1 = k) = [] := by
            rw [List.filter_eq_nil_iff]
            intro a ha
            have hle : b.1 ≤ a.1 := by
              rcases List.mem_cons.mp ha with rfl | ha
              · exact le_refl _
              · exact hl.1 a ha
            have hne : a.1 ≠ k := (hk.trans_lt (hlt.trans_le hle)).ne'
            simpa using hne
          rw [if_pos hk, hnone, List.filter_cons_of_pos (by simp [hk]), hnone]
          rfl
        · rw [if_neg hk, List.filter_cons_of_neg (by simpa using Ne.symm hk)]
      · rw [if_neg hlt, List.filter_cons, ih hl.2, List.filter_cons]
        split_ifs <;> rfl
  rw [dups, insert, hnodes t.nodes t.sorted]
  split_ifs with hk
  · rw [List.map_append, hk]
    rfl
  · rfl

omit [DecidableEq α] in
theorem filter_dups_sublist {t' : EbTree κ α} {p : α → Bool}
    (h : (t'.nodes.filter fun n => p n.2).Sublist t.nodes) (key : κ) :
    ((t'.dups key).filter p).Sublist (t.dups key) := by
  have hsub := (h.filter (·.1 = key)).map Prod.snd
  rw [List.filter_filter] at hsub
  rw [dups, List.filter_map, List.filter_filter,
    List.filter_congr fun n _ => Bool.and_comm ((p ∘ Prod.snd) n) (decide (n.1 = key))]
  exact hsub

omit [DecidableEq α] in
theorem filter_nodes_insert (t : EbTree κ α) (key : κ) (x : α) {p : κ × α → Bool}
    (hp : ¬ p (key, x)) : (t.insert key x).nodes.filter p = t.nodes.filter p := by
  show (t.nodes.orderedInsert (fun a b => a.1 < b.1) (key, x)).filter p = _
  induction t.nodes with
  | nil => exact List.filter_cons_of_neg hp
  | cons b l ih =>
    rw [List.orderedInsert_cons]
    split_ifs
    · exact List.filter_cons_of_neg hp
    · rw [List.filter_cons, ih, List.filter_cons]

omit [LinearOrder κ] in
theorem dups_delete [LinearOrder κ] (t : EbTree κ α) (x : α) (key : κ) :
    (t.delete x).dups key = (t.dups key).filter (· ≠ x) := by
  rw [dups, dups, delete, List.filter_map, List.filter_filter, List.filter_filter]
  congr 1
  apply List.filter_congr
  intro n _
  simp [Bool.and_comm]

end EbTree

end SmartHAProxy
