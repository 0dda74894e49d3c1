/-
Consistent hashing: which nodes of a server are in its ring (lb_chash.c).

The nodes of a server that are linked are a prefix of its array.  They leave
the ring from the end of the prefix on and join it there; when the array has to
grow, all of them leave first, because the reallocation moves them.  `last`, the
node that round robin has reached, hops to the next node before its own node
leaves.

`ChashPlaced` says so of the ring.  A node that leaves keeps it, and so does a
node that joins under its key.
-/
import SmartHAProxy.Lb.Keeps
import SmartHAProxy.Lb.Random

namespace SmartHAProxy

universe u

variable {ι : Type u}

/-! ### The rings -/

namespace Chash

theorem tree_updTree (c : Chash ι) (backup backup' : Bool)
    (f : EbTree UInt32 (ι × ℕ) → EbTree UInt32 (ι × ℕ)) :
    (c.updTree backup f).tree backup' =
      if backup' = backup then f (c.tree backup') else c.tree backup' := by
  cases backup <;> cases backup' <;> rfl

@[simp] theorem updTree_last (c : Chash ι) (backup : Bool)
    (f : EbTree UInt32 (ι × ℕ) → EbTree UInt32 (ι × ℕ)) :
    (c.updTree backup f).last = c.last := by
  cases backup <;> rfl

@[simp] theorem updTree_lbNodesNow (c : Chash ι) (backup : Bool)
    (f : EbTree UInt32 (ι × ℕ) → EbTree UInt32 (ι × ℕ)) :
    (c.updTree backup f).lbNodesNow = c.lbNodesNow := by
  cases backup <;> rfl

@[simp] theorem updTree_lbNodesTot (c : Chash ι) (backup : Bool)
    (f : EbTree UInt32 (ι × ℕ) → EbTree UInt32 (ι × ℕ)) :
    (c.updTree backup f).lbNodesTot = c.lbNodesTot := by
  cases backup <;> rfl

@[simp] theorem updTree_heap (c : Chash ι) (backup : Bool)
    (f : EbTree UInt32 (ι × ℕ) → EbTree UInt32 (ι × ℕ)) :
    (c.updTree backup f).heap = c.heap := by
  cases backup <;> rfl

end Chash

/-- The linked nodes of each server are the first ones of its array, each once,
in the ring of its group and under its key; `last` is one of them. -/
structure ChashPlaced (srv : ι → Server) (c : Chash ι) : Prop where
  nodup : ∀ backup, (c.tree backup).items.Nodup
  mem : ∀ {backup key i j}, (key, (i, j)) ∈ (c.tree backup).nodes ↔
    (srv i).backup = backup ∧ j < c.lbNodesNow i ∧ key = chashKey (srv i) j
  now_le : ∀ i, c.lbNodesNow i ≤ c.lbNodesTot i
  last : ∀ {i j}, c.last = some (i, j) → j < c.lbNodesNow i

namespace ChashPlaced

variable {srv : ι → Server} {c : Chash ι}

theorem mem_items (h : ChashPlaced srv c) {backup : Bool} {i : ι} {j : ℕ} :
    (i, j) ∈ (c.tree backup).items ↔ (srv i).backup = backup ∧ j < c.lbNodesNow i := by
  rw [EbTree.items, List.mem_map]
  constructor
  · rintro ⟨⟨key, n⟩, hn, rfl⟩
    obtain ⟨hb, hj, -⟩ := h.mem.mp hn
    exact ⟨hb, hj⟩
  · rintro ⟨hb, hj⟩
    exact ⟨(chashKey (srv i) j, (i, j)), h.mem.mpr ⟨hb, hj, rfl⟩, rfl⟩

theorem congr {srv' : ι → Server} (h : ChashPlaced srv c)
    (hb : ∀ i, (srv' i).backup = (srv i).backup) (hp : ∀ i, (srv' i).puid = (srv i).puid) :
    ChashPlaced srv' c where
  nodup := h.nodup
  mem {backup key i j} := by rw [h.mem, hb, chashKey, chashKey, hp]
  now_le := h.now_le
  last := h.last

end ChashPlaced

variable [DecidableEq ι]

/-! ### Nodes that leave -/

theorem chashSkipNode_mem {t : EbTree UInt32 (ι × ℕ)} {node n : ι × ℕ}
    (h : chashSkipNode t node = some n) : n ∈ t.items ∧ n ≠ node := by
  unfold chashSkipNode at h
  dsimp only at h
  split_ifs at h with hne
  refine ⟨?_, fun he => hne (he ▸ h)⟩
  rcases Option.or_eq_some_iff.mp h with hafter | ⟨-, hfirst⟩
  · exact mem_of_mem_after (List.mem_of_mem_head? hafter)
  · exact EbTree.first_mem hfirst

namespace ChashPlaced

variable {srv : ι → Server} {c : Chash ι} {i : ι}

theorem dropNode_spec (h : ChashPlaced srv c) (i : ι) :
    (∀ backup, (chashDropNode srv c i).tree backup =
      if backup = (srv i).backup then (c.tree backup).delete (i, c.lbNodesNow i - 1)
      else c.tree backup) ∧
    (chashDropNode srv c i).last =
      (if c.last = some (i, c.lbNodesNow i - 1) then
        chashSkipNode (c.tree (srv i).backup) (i, c.lbNodesNow i - 1)
      else c.last) ∧
    (chashDropNode srv c i).lbNodesNow = Function.update c.lbNodesNow i (c.lbNodesNow i - 1) ∧
    (chashDropNode srv c i).lbNodesTot = c.lbNodesTot ∧
    (chashDropNode srv c i).heap = c.heap := by
  unfold chashDropNode
  rw [Nat.min_eq_left (h.now_le i)]
  dsimp only
  refine ⟨fun backup => ?_, ?_, ?_, ?_, ?_⟩
  · rw [Chash.tree_updTree]
    split_ifs <;> rfl
  · rw [Chash.updTree_last]
    split_ifs <;> rfl
  · rw [Chash.updTree_lbNodesNow]
    split_ifs <;> rfl
  · rw [Chash.updTree_lbNodesTot]
    split_ifs <;> rfl
  · rw [Chash.updTree_heap]
    split_ifs <;> rfl

/-- **A node leaves the ring**, the last one of its server. -/
theorem dropNode (h : ChashPlaced srv c) (hpos : 0 < c.lbNodesNow i) :
    ChashPlaced srv (chashDropNode srv c i) := by
  obtain ⟨htree, hlast, hnow, htot, -⟩ := h.dropNode_spec i
  have hlt {i' : ι} {j : ℕ} : j < (chashDropNode srv c i).lbNodesNow i' ↔
      j < c.lbNodesNow i' ∧ (i', j) ≠ (i, c.lbNodesNow i - 1) := by
    rw [hnow]
    by_cases hi : i' = i
    · subst hi
      simp only [Function.update_self, Ne, Prod.mk.injEq, true_and]
      omega
    · rw [Function.update_of_ne hi]
      exact ⟨fun hj => ⟨hj, fun he => hi (Prod.mk.inj he).1⟩, fun hj => hj.1⟩
  refine ⟨fun backup => ?_, fun {backup key i' j} => ?_, fun i' => ?_, fun {i' j} hl => ?_⟩
  · rw [htree]
    split_ifs
    · exact EbTree.nodup_items_delete _ (h.nodup backup)
    · exact h.nodup backup
  · rw [htree, hlt]
    split_ifs with hb
    · rw [EbTree.mem_nodes_delete, h.mem]
      exact ⟨fun ⟨⟨hb', hj, hk⟩, hne⟩ => ⟨hb', ⟨hj, hne⟩, hk⟩,
        fun ⟨hb', ⟨hj, hne⟩, hk⟩ => ⟨⟨hb', hj, hk⟩, hne⟩⟩
    · -- in the other ring nothing changes
      rw [h.mem]
      refine and_congr_right fun hb' => and_congr_left fun _ => ⟨fun hj => ⟨hj, fun he => ?_⟩,
        fun hj => hj.1⟩
      rw [(Prod.mk.inj he).1] at hb'
      exact hb hb'.symm
  · rw [htot]
    refine Nat.le_trans (Nat.le_of_not_lt fun hgt => ?_) (h.now_le i')
    exact Nat.lt_irrefl _ (hlt.mp hgt).1
  · rw [hlast] at hl
    rw [hlt]
    split_ifs at hl with hsame
    · obtain ⟨hmem, hne⟩ := chashSkipNode_mem hl
      exact ⟨(h.mem_items.mp hmem).2, hne⟩
    · exact ⟨h.last hl, fun he => hsame (he ▸ hl)⟩

/-- What trimming and filling leave alone: the other servers, and the arrays. -/
structure Moves (i : ι) (c c' : Chash ι) : Prop where
  now : ∀ j, j ≠ i → c'.lbNodesNow j = c.lbNodesNow j
  tot : c'.lbNodesTot = c.lbNodesTot

/-- **Nodes leave the ring** until `target` of them are left. -/
theorem trim (target fuel : ℕ) {c : Chash ι} (h : ChashPlaced srv c)
    (hfuel : c.lbNodesNow i ≤ target + fuel) :
    ChashPlaced srv (chashTrim srv target c i fuel) ∧ Moves i c (chashTrim srv target c i fuel) ∧
      (chashTrim srv target c i fuel).lbNodesNow i = min (c.lbNodesNow i) target := by
  induction fuel generalizing c with
  | zero =>
    exact ⟨h, ⟨fun _ _ => rfl, rfl⟩, (Nat.min_eq_left hfuel).symm⟩
  | succ fuel ih =>
    rw [chashTrim]
    split_ifs with hgt
    · obtain ⟨-, -, hnow, htot, -⟩ := h.dropNode_spec i
      have hself : (chashDropNode srv c i).lbNodesNow i = c.lbNodesNow i - 1 := by
        rw [hnow, Function.update_self]
      have hpos : 0 < c.lbNodesNow i := Nat.lt_of_le_of_lt (Nat.zero_le _) hgt
      obtain ⟨hplaced, hmoves, hmin⟩ := ih (h.dropNode hpos) (by rw [hself]; omega)
      refine ⟨hplaced, ⟨fun j hj => ?_, hmoves.tot.trans htot⟩, ?_⟩
      · rw [hmoves.now j hj, hnow, Function.update_of_ne hj]
      · rw [hmin, hself, Nat.min_eq_right (Nat.le_of_lt hgt)]
        exact Nat.min_eq_right (Nat.le_sub_one_of_lt hgt)
    · exact ⟨h, ⟨fun _ _ => rfl, rfl⟩, (Nat.min_eq_left (Nat.le_of_not_lt hgt)).symm⟩

end ChashPlaced

/-! ### Nodes that join -/

/-- One turn of the last loop of `chash_queue_dequeue_srv`; `key` is the one that is stored in
the node. -/
def chashLinkNode (srv : ι → Server) (c : Chash ι) (i : ι) (key : UInt32) : Chash ι :=
  let now := c.lbNodesNow i
  let c :=
    if c.last = some (i, now) then
      { c with last := chashSkipNode (c.tree (srv i).backup) (i, now) }
    else c
  let c := c.updTree (srv i).backup fun t => t.insert key (i, now)
  { c with lbNodesNow := Function.update c.lbNodesNow i (now + 1) }

/-- The last loop of `chash_queue_dequeue_srv`; `key` is the array of the server. -/
def chashFillKeys (srv : ι → Server) (target : ℕ) (key : ℕ → UInt32) (c : Chash ι) (i : ι) :
    ℕ → Chash ι
  | 0 => c
  | fuel + 1 =>
    if c.lbNodesNow i < target ∧ ¬c.lbNodesNow i ≥ c.lbNodesTot i then
      chashFillKeys srv target key (chashLinkNode srv c i (key (c.lbNodesNow i))) i fuel
    else c

namespace ChashPlaced

variable {srv : ι → Server} {c : Chash ι} {i : ι}

theorem linkNode_spec (h : ChashPlaced srv c) (i : ι) (key : UInt32) :
    (∀ backup, (chashLinkNode srv c i key).tree backup =
      if backup = (srv i).backup then (c.tree backup).insert key (i, c.lbNodesNow i)
      else c.tree backup) ∧
    (chashLinkNode srv c i key).last = c.last ∧
    (chashLinkNode srv c i key).lbNodesNow =
      Function.update c.lbNodesNow i (c.lbNodesNow i + 1) ∧
    (chashLinkNode srv c i key).lbNodesTot = c.lbNodesTot ∧
    (chashLinkNode srv c i key).heap = c.heap := by
  have hne : c.last ≠ some (i, c.lbNodesNow i) := fun hl => Nat.lt_irrefl _ (h.last hl)
  have heq : chashLinkNode srv c i key =
      { c.updTree (srv i).backup (fun t => t.insert key (i, c.lbNodesNow i)) with
        lbNodesNow := Function.update (c.updTree (srv i).backup fun t =>
          t.insert key (i, c.lbNodesNow i)).lbNodesNow i (c.lbNodesNow i + 1) } := by
    unfold chashLinkNode
    dsimp only
    rw [if_neg hne]
  rw [heq]
  refine ⟨fun backup => ?_, ?_, ?_, ?_, ?_⟩
  · exact Chash.tree_updTree ..
  · exact Chash.updTree_last ..
  · rw [Chash.updTree_lbNodesNow]
  · exact Chash.updTree_lbNodesTot ..
  · exact Chash.updTree_heap ..

/-- **A node joins the ring**, the next one of its server. -/
theorem linkNode (h : ChashPlaced srv c) (hlt : c.lbNodesNow i < c.lbNodesTot i) {key : UInt32}
    (hkey : key = chashKey (srv i) (c.lbNodesNow i)) :
    ChashPlaced srv (chashLinkNode srv c i key) := by
  obtain ⟨htree, hlast, hnow, htot, -⟩ := h.linkNode_spec i key
  have hmore {i' : ι} {j : ℕ} : j < (chashLinkNode srv c i key).lbNodesNow i' ↔
      (i', j) = (i, c.lbNodesNow i) ∨ j < c.lbNodesNow i' := by
    rw [hnow]
    by_cases hi : i' = i
    · subst hi
      simp only [Function.update_self, Prod.mk.injEq, true_and]
      omega
    · rw [Function.update_of_ne hi]
      exact ⟨fun hj => .inr hj, fun hor => hor.resolve_left fun he => hi (Prod.mk.inj he).1⟩
  refine ⟨fun backup => ?_, fun {backup key' i' j} => ?_, fun i' => ?_, fun {i' j} hl => ?_⟩
  · rw [htree]
    split_ifs with hb
    · rw [(EbTree.items_insert_perm _ _ _).nodup_iff, List.nodup_cons]
      refine ⟨fun hmem => ?_, h.nodup backup⟩
      exact Nat.lt_irrefl _ (h.mem_items.mp hmem).2
    · exact h.nodup backup
  · rw [htree, hmore]
    split_ifs with hb
    · rw [EbTree.mem_nodes_insert, h.mem]
      constructor
      · rintro (he | ⟨hb', hj, hk⟩)
        · obtain ⟨rfl, hn⟩ := Prod.mk.inj he
          obtain ⟨rfl, rfl⟩ := Prod.mk.inj hn
          exact ⟨hb.symm, .inl rfl, hkey⟩
        · exact ⟨hb', .inr hj, hk⟩
      · rintro ⟨hb', he | hj, hk⟩
        · obtain ⟨rfl, rfl⟩ := Prod.mk.inj he
          exact .inl (by rw [hk, hkey])
        · exact .inr ⟨hb', hj, hk⟩
    · rw [h.mem]
      refine and_congr_right fun hb' => and_congr_left fun _ => ⟨.inr, fun hor => ?_⟩
      refine hor.resolve_left fun he => ?_
      rw [(Prod.mk.inj he).1] at hb'
      exact hb hb'.symm
  · rw [htot, hnow]
    by_cases hi : i' = i
    · subst hi
      rw [Function.update_self]
      exact hlt
    · rw [Function.update_of_ne hi]
      exact h.now_le i'
  · rw [hlast] at hl
    exact hmore.mpr (.inr (h.last hl))

/-- **Nodes join the ring** until there are `target` of them or none is left. -/
theorem fill {target : ℕ} {key : ℕ → UInt32} (fuel : ℕ) {c : Chash ι} (h : ChashPlaced srv c)
    (hkey : ∀ j < c.lbNodesTot i, key j = chashKey (srv i) j) (hle : c.lbNodesNow i ≤ target)
    (hfuel : target ≤ c.lbNodesNow i + fuel) :
    ChashPlaced srv (chashFillKeys srv target key c i fuel) ∧
      Moves i c (chashFillKeys srv target key c i fuel) ∧
      (chashFillKeys srv target key c i fuel).lbNodesNow i = min target (c.lbNodesTot i) := by
  have hnow := h.now_le i
  induction fuel generalizing c with
  | zero => exact ⟨h, ⟨fun _ _ => rfl, rfl⟩, show c.lbNodesNow i = _ by omega⟩
  | succ fuel ih =>
    rw [chashFillKeys]
    split_ifs with hlt
    · obtain ⟨hroom, hfree⟩ := hlt
      rw [ge_iff_le, not_le] at hfree
      obtain ⟨-, -, hnow', htot, -⟩ := h.linkNode_spec i (key (c.lbNodesNow i))
      have hself : (chashLinkNode srv c i (key (c.lbNodesNow i))).lbNodesNow i =
          c.lbNodesNow i + 1 := by
        rw [hnow', Function.update_self]
      obtain ⟨hplaced, hmoves, hmin⟩ := ih (h.linkNode hfree (hkey _ hfree))
        (by rw [htot]; exact hkey) (by rw [hself]; exact hroom) (by rw [hself]; omega)
        (by rw [hself, htot]; exact hfree)
      refine ⟨hplaced, ⟨fun j hj => ?_, hmoves.tot.trans htot⟩, by rw [hmin, htot]⟩
      rw [hmoves.now j hj, hnow', Function.update_of_ne hj]
    · refine ⟨h, ⟨fun _ _ => rfl, rfl⟩, ?_⟩
      rw [not_and_or, not_not] at hlt
      omega

end ChashPlaced

end SmartHAProxy
