/-
The number of variants of a resource in the cache (cache.c).

The last entry with a key knows how many there are.  Some removals do not update this
number, and others copy it to another entry.  What all of them keep is `Cache.Counted`: the
number in an entry is at least its place among the entries with its key, and at most the
maximum.  `variants_bounded` follows.
-/
import SmartHAProxy.Cache.Action
import SmartHAProxy.Lib.Ranked

namespace SmartHAProxy

variable {fuel : ℕ} {pre post : List ℕ}

namespace Cache

/-- `secondary_entries_count`. -/
def count (c : Cache) (x : ℕ) : ℕ := (c.obj x).secondaryEntriesCount.toNat

/-- The numbers in the entries are not too small, and not above the maximum. -/
structure Counted (M : UInt32) (c : Cache) : Prop where
  max : c.maxSecondaryEntries = M
  nodup : c.entries.items.Nodup
  ranked : ∀ key, Ranked c.count 0 (c.entries.dups key)
  le_max : ∀ x ∈ c.entries.items, c.count x ≤ M.toNat

/-- The entry whose counter `delete_entry` decrements. -/
def decremented (c : Cache) (delEntry : ℕ) : Option ℕ :=
  match lastDup c.entries c.entries.items.length delEntry none with
  | some last => some last
  | none => (c.entries.prevDup delEntry).map fun _ => delEntry

variable {M : UInt32} {c c' c'' : Cache} {e x : ℕ} {key : UInt32}

/-! ### Entries that leave without a count -/

/-- `c'` is `c` less some entries, with the same numbers in the entries. -/
structure Drops (c c' : Cache) : Prop where
  max : c'.maxSecondaryEntries = c.maxSecondaryEntries
  count : c'.count = c.count
  nodes : c'.entries.nodes.Sublist c.entries.nodes

theorem Drops.refl (c : Cache) : Drops c c := ⟨rfl, rfl, .refl _⟩

theorem Drops.trans (h : Drops c c') (h' : Drops c' c'') : Drops c c'' :=
  ⟨h'.max.trans h.max, h'.count.trans h.count, h'.nodes.trans h.nodes⟩

theorem Counted.drops (h : Counted M c) (hdrops : Drops c c') : Counted M c' where
  max := hdrops.max.trans h.max
  nodup := h.nodup.sublist (hdrops.nodes.map Prod.snd)
  ranked key := by
    rw [hdrops.count]
    apply (h.ranked key).sublist
    exact (hdrops.nodes.filter _).map Prod.snd
  le_max x hx := by
    rw [hdrops.count]
    exact h.le_max x ((hdrops.nodes.map Prod.snd).subset hx)

theorem count_modify {f : CacheEntry → CacheEntry}
    (hf : ∀ o, (f o).secondaryEntriesCount = o.secondaryEntriesCount) :
    (c.modify e f).count = c.count := by
  funext x
  show (Function.update c.obj e (f (c.obj e)) x).secondaryEntriesCount.toNat = _
  rcases eq_or_ne x e with rfl | hne
  · rw [Function.update_self, hf]
    rfl
  · rw [Function.update_of_ne hne]
    rfl

theorem drops_modify {f : CacheEntry → CacheEntry}
    (hf : ∀ o, (f o).secondaryEntriesCount = o.secondaryEntriesCount) :
    Drops c (c.modify e f) :=
  ⟨rfl, count_modify hf, .refl _⟩

theorem drops_unlink (c : Cache) (e : ℕ) : Drops c (c.unlink e) := by
  have hdelete : Drops c { c with entries := c.entries.delete e } :=
    ⟨rfl, rfl, List.filter_sublist⟩
  apply hdelete.trans
  apply drops_modify
  intro o
  rfl

theorem drops_secondaryLoop {secondaryKey : CacheSecKey} :
    Drops c (secondaryLoop secondaryKey fuel c e).1 := by
  induction fuel generalizing c e with
  | zero => exact .refl c
  | succ fuel ih =>
    rw [secondaryLoop]
    split_ifs with hcmp hexp
    · have hunlink := drops_unlink c e
      dsimp only
      split
      · exact hunlink
      · exact hunlink.trans ih
    · dsimp only
      split
      · exact .refl c
      · exact ih
    · exact .refl c

theorem drops_secondaryEntryExist {secondaryKey : CacheSecKey} :
    Drops c (c.secondaryEntryExist e secondaryKey).1 := by
  have hloop : Drops c (secondaryLoop secondaryKey c.entries.items.length c e).1 :=
    drops_secondaryLoop
  rw [secondaryEntryExist]
  split_ifs
  · exact .refl c
  · rcases hrun : secondaryLoop secondaryKey c.entries.items.length c e with ⟨c', - | y⟩
    · rw [hrun] at hloop
      exact hloop
    · rw [hrun] at hloop
      dsimp only at hloop ⊢
      split_ifs
      · exact hloop.trans (drops_unlink c' y)
      · exact hloop

/-! ### delete_entry -/

theorem lastDup_eq {t : EbTree UInt32 ℕ} (hnodup : t.items.Nodup)
    (hrow : t.dups key = pre ++ x :: post) (hfuel : post.length ≤ fuel) (last : Option ℕ) :
    lastDup t fuel x last = post.getLast?.or last := by
  induction fuel generalizing x pre post last with
  | zero =>
    rw [List.length_eq_zero_iff.mp (Nat.le_zero.mp hfuel)]
    rfl
  | succ fuel ih =>
    rw [lastDup, EbTree.nextDup_eq hnodup hrow]
    cases post with
    | nil => rfl
    | cons y post =>
      have hrow' : t.dups key = (pre ++ [x]) ++ y :: post := by
        rw [hrow, List.append_assoc]
        rfl
      show lastDup t fuel y (some y) = _
      rw [ih hrow' (Nat.le_of_succ_le_succ hfuel), List.getLast?_cons]
      rcases post.getLast? with - | z <;> rfl

theorem exists_row (he : e ∈ c.entries.items) :
    ∃ key pre post, c.entries.dups key = pre ++ e :: post := by
  obtain ⟨n, hn, rfl⟩ := List.mem_map.mp he
  obtain ⟨pre, post, hrow⟩ := List.append_of_mem (EbTree.mem_dups.mpr hn)
  exact ⟨n.1, pre, post, hrow⟩

theorem lastDup_row (hnodup : c.entries.items.Nodup)
    (hrow : c.entries.dups key = pre ++ e :: post) :
    lastDup c.entries c.entries.items.length e none = post.getLast? := by
  have hlen := length_dups_le c.entries key
  rw [hrow, List.length_append, List.length_cons] at hlen
  rw [lastDup_eq hnodup hrow (by omega), Option.or_none]

theorem count_setCount (c : Cache) (x y : ℕ) (f : CacheEntry → UInt32) :
    (c.modify x fun o => { o with secondaryEntriesCount := f o }).count y =
      if y = x then (f (c.obj x)).toNat else c.count y := by
  show (Function.update c.obj x _ y).secondaryEntriesCount.toNat = _
  split_ifs with hy
  · rw [hy, Function.update_self]
  · rw [Function.update_of_ne hy]
    rfl

/-- An entry leaves, and another one in its row gets its new number. -/
theorem Counted.leave (h : Counted M c) (hrow : c.entries.dups key = pre ++ e :: post)
    (hx : x ∈ pre ++ post) {f : CacheEntry → UInt32}
    (hranked : Ranked (c.modify x fun o => { o with secondaryEntriesCount := f o }).count 0
      (pre ++ post)) (hmax : (f (c.obj x)).toNat ≤ M.toNat) :
    Counted M ((c.modify x fun o => { o with secondaryEntriesCount := f o }).unlink e) := by
  have hxkey : (key, x) ∈ c.entries.nodes := by
    rw [← EbTree.mem_dups, hrow]
    rcases List.mem_append.mp hx with hx | hx
    · exact List.mem_append_left _ hx
    · exact List.mem_append_right _ (List.mem_cons_of_mem e hx)
  have hnodup := EbTree.nodup_dups h.nodup key
  generalize hc' : (c.modify x fun o => { o with secondaryEntriesCount := f o }) = c' at hranked ⊢
  have hcount : ∀ y, c'.count y = if y = x then (f (c.obj x)).toNat else c.count y := by
    intro y
    rw [← hc', count_setCount]
  have hentries : c'.entries = c.entries := by rw [← hc']; rfl
  have hdrops := drops_unlink c' e
  refine ⟨?_, ?_, ?_, ?_⟩
  · rw [hdrops.max, ← hc']
    exact h.max
  · have hitems : c'.entries.items.Nodup := by
      rw [hentries]
      exact h.nodup
    exact hitems.sublist (hdrops.nodes.map Prod.snd)
  · intro k
    have hdups : (c'.unlink e).entries.dups k = (c.entries.dups k).filter (· ≠ e) := by
      show (c'.entries.delete e).dups k = _
      rw [EbTree.dups_delete, hentries]
    rw [hdrops.count, hdups]
    by_cases hk : k = key
    · rw [hrow, List.nodup_append, List.nodup_cons] at hnodup
      obtain ⟨-, ⟨he, -⟩, hdis⟩ := hnodup
      have hpre : pre.filter (· ≠ e) = pre := List.filter_eq_self.mpr fun y hy =>
        decide_eq_true (hdis y hy e List.mem_cons_self)
      have hpost : post.filter (· ≠ e) = post := List.filter_eq_self.mpr fun y hy =>
        decide_eq_true fun heq => he (heq ▸ hy)
      rw [hk, hrow, List.filter_append, List.filter_cons_of_neg (by simp), hpre, hpost]
      exact hranked
    · -- no number changes in another row
      apply Ranked.sublist _ List.filter_sublist
      apply (h.ranked k).congr
      intro y hy
      rw [hcount, if_neg]
      rintro rfl
      exact hk (EbTree.key_unique h.nodup (EbTree.mem_dups.mp hy) hxkey)
  · intro y hy
    have hy : y ∈ c.entries.items := by
      rw [← hentries]
      exact (hdrops.nodes.map Prod.snd).subset hy
    rw [hdrops.count, hcount]
    split_ifs
    · exact hmax
    · exact h.le_max y hy

/-- **A counter that is decremented is not 0.** -/
theorem Counted.decremented_pos (h : Counted M c) (he : e ∈ c.entries.items)
    (hx : c.decremented e = some x) : 0 < c.count x := by
  obtain ⟨key, pre, post, hrow⟩ := exists_row he
  have hranked := h.ranked key
  rw [hrow] at hranked
  rw [decremented, lastDup_row h.nodup hrow] at hx
  rcases hlast : post.getLast? with - | last
  · rw [hlast] at hx
    obtain ⟨-, -, rfl⟩ := Option.map_eq_some_iff.mp hx
    exact Nat.lt_of_le_of_lt (Nat.zero_le _) hranked.lt_rank
  · rw [hlast] at hx
    obtain rfl := Option.some.inj hx
    obtain ⟨post, rfl⟩ := List.getLast?_eq_some_iff.mp hlast
    rw [← List.cons_append, ← List.append_assoc] at hranked
    exact Nat.lt_of_le_of_lt (Nat.zero_le _) hranked.lt_rank

theorem toNat_pred {a : UInt32} (h : 0 < a.toNat) : (a - 1).toNat = a.toNat - 1 :=
  UInt32.toNat_sub_of_le a 1 (UInt32.le_iff_toNat_le.mpr h)

theorem Counted.deleteEntry (h : Counted M c) (he : e ∈ c.entries.items) :
    Counted M (c.deleteEntry e) := by
  obtain ⟨key, pre, post, hrow⟩ := exists_row he
  have hranked := h.ranked key
  have hnodup := EbTree.nodup_dups h.nodup key
  rw [hrow] at hranked hnodup
  rw [Cache.deleteEntry]
  split_ifs with hsig
  · rw [lastDup_row h.nodup hrow]
    rcases hlast : post.getLast? with - | last
    · -- the entry is the last one
      obtain rfl := List.getLast?_eq_none_iff.mp hlast
      dsimp only
      rw [EbTree.prevDup_eq h.nodup hrow]
      rcases hprev : pre.getLast? with - | prev
      · exact h.drops (drops_unlink c e)
      · obtain ⟨pre, rfl⟩ := List.getLast?_eq_some_iff.mp hprev
        have hlt : 0 + (pre ++ [prev]).length < c.count e := hranked.lt_rank
        rw [List.length_append, List.length_singleton] at hlt
        have hval : ((c.obj e).secondaryEntriesCount - 1).toNat = c.count e - 1 :=
          toNat_pred (Nat.lt_of_le_of_lt (Nat.zero_le _) hlt)
        refine h.leave hrow (by simp) ?_ ?_
        · rw [List.append_nil, Ranked.append_iff]
          refine ⟨?_, ?_, trivial⟩
          · apply (Ranked.append_iff.mp (Ranked.append_iff.mp hranked).1).1.congr
            intro y hy
            rw [count_setCount, if_neg]
            rintro rfl
            rw [List.append_assoc, List.nodup_append] at hnodup
            exact hnodup.2.2 y hy y (by simp) rfl
          · rw [count_setCount, if_pos rfl, hval]
            omega
        · rw [hval]
          exact (Nat.sub_le _ _).trans (h.le_max e he)
    · have hmem : last ∈ post := List.mem_of_getLast? hlast
      have hpos : 0 < c.count last := by
        apply h.decremented_pos he
        rw [decremented, lastDup_row h.nodup hrow, hlast]
      have hval : ((c.obj last).secondaryEntriesCount - 1).toNat = c.count last - 1 :=
        toNat_pred hpos
      refine h.leave hrow (List.mem_append_right pre hmem) ?_ ?_
      · apply hranked.remove
        · intro y hy
          rw [count_setCount, if_neg]
          rintro rfl
          rw [List.nodup_append] at hnodup
          exact hnodup.2.2 y hy y (List.mem_cons_of_mem e hmem) rfl
        · intro y hy
          rw [count_setCount]
          split_ifs with heq
          · rw [heq, hval]
            omega
          · exact Nat.le_succ _
      · rw [hval]
        apply (Nat.sub_le _ _).trans
        apply h.le_max
        apply EbTree.mem_items_of_mem_nodes (n := (key, last))
        rw [← EbTree.mem_dups, hrow]
        exact List.mem_append_right _ (List.mem_cons_of_mem e hmem)
  · exact h.drops (drops_unlink c e)

/-! ### insert_entry -/

/-- A new entry is linked, but not counted yet. -/
structure Pending (M : UInt32) (key : UInt32) (row : List ℕ) (e : ℕ) (c : Cache) : Prop where
  nodup : c.entries.items.Nodup
  row : c.entries.dups key = row ++ [e]
  rest : Counted M { c with entries := c.entries.delete e }

variable {row : List ℕ}

theorem Pending.ranked (h : Pending M key row e c) : Ranked c.count 0 row := by
  have hrow := EbTree.nodup_dups h.nodup key
  rw [h.row, List.nodup_append] at hrow
  have hfilter : row.filter (· ≠ e) = row := List.filter_eq_self.mpr fun y hy =>
    decide_eq_true (hrow.2.2 y hy e List.mem_cons_self)
  have hranked : Ranked c.count 0 ((c.entries.delete e).dups key) := h.rest.ranked key
  rw [EbTree.dups_delete, h.row, List.filter_append, hfilter,
    List.filter_cons_of_neg (by simp), List.filter_nil, List.append_nil] at hranked
  exact hranked

theorem Pending.drops {row' : List ℕ} (h : Pending M key row e c) (hdrops : Drops c c')
    (hrow : c'.entries.dups key = row' ++ [e]) : Pending M key row' e c' where
  nodup := h.nodup.sublist (hdrops.nodes.map Prod.snd)
  row := hrow
  rest := h.rest.drops ⟨hdrops.max, hdrops.count, hdrops.nodes.filter _⟩

theorem Pending.unlink (h : Pending M key row e c) : Counted M (c.unlink e) := by
  apply h.rest.drops
  apply drops_modify
  intro o
  rfl

/-- The new entry is counted. -/
theorem Pending.insertCounted (h : Pending M key row e c) {n ts : UInt32}
    (hn : row.length ≤ n.toNat) (hlt : n < M) : Counted M (c.insertCounted e n ts) := by
  have hsucc : (n + 1).toNat = n.toNat + 1 := by
    have := M.toNat_lt
    rw [UInt32.lt_iff_toNat_lt] at hlt
    rw [UInt32.toNat_add]
    exact Nat.mod_eq_of_lt (by show n.toNat + 1 < 2 ^ 32; omega)
  have hcount : ∀ y, (c.insertCounted e n ts).count y =
      if y = e then n.toNat + 1 else c.count y := by
    intro y
    show (Function.update c.obj e _ y).secondaryEntriesCount.toNat = _
    split_ifs with hy
    · rw [hy, Function.update_self]
      exact hsucc
    · rw [Function.update_of_ne hy]
      rfl
  have hother : ∀ l : List ℕ, e ∉ l → ∀ y ∈ l, (c.insertCounted e n ts).count y = c.count y := by
    intro l hl y hy
    rw [hcount, if_neg]
    rintro rfl
    exact hl hy
  refine ⟨h.rest.max, h.nodup, ?_, ?_⟩
  · intro k
    show Ranked _ 0 (c.entries.dups k)
    have hnodup := EbTree.nodup_dups h.nodup key
    rw [h.row, List.nodup_append] at hnodup
    by_cases hk : k = key
    · rw [hk, h.row, Ranked.append_iff]
      refine ⟨h.ranked.congr (hother row fun he => ?_), ?_, trivial⟩
      · exact hnodup.2.2 e he e List.mem_cons_self rfl
      · rw [hcount, if_pos rfl]
        omega
    · have he : e ∉ c.entries.dups k := by
        intro he
        have hmem : e ∈ c.entries.dups key := by rw [h.row]; simp
        exact hk (EbTree.key_unique h.nodup (EbTree.mem_dups.mp he) (EbTree.mem_dups.mp hmem))
      have hranked : Ranked c.count 0 ((c.entries.delete e).dups k) := h.rest.ranked k
      have hfilter : (c.entries.dups k).filter (· ≠ e) = c.entries.dups k :=
        List.filter_eq_self.mpr fun y hy => decide_eq_true fun heq => he (heq ▸ hy)
      rw [EbTree.dups_delete, hfilter] at hranked
      exact hranked.congr (hother _ he)
  · intro y hy
    rw [hcount]
    split_ifs with heq
    · rw [UInt32.lt_iff_toNat_lt] at hlt
      exact hlt
    · apply h.rest.le_max y
      show y ∈ (c.entries.delete e).items
      rw [EbTree.items_delete]
      exact List.mem_filter.mpr ⟨hy, decide_eq_true heq⟩

/-- `clear_expired_duplicates` leaves the entries that are not expired, and counts them. -/
theorem clearLoop_spec (tail : Option ℕ) {n : UInt32} (hnodup : c.entries.items.Nodup)
    (hrow : c.entries.dups key = pre ++ post) (hfuel : pre.length ≤ fuel)
    (hn : n.toNat + pre.length < 2 ^ 32) :
    Drops c (clearLoop fuel c pre.getLast? tail n).1 ∧
      (clearLoop fuel c pre.getLast? tail n).1.entries.dups key =
        pre.filter (fun x => ¬ c.Expired x) ++ post ∧
      (clearLoop fuel c pre.getLast? tail n).2.2.toNat =
        n.toNat + (pre.filter (fun x => ¬ c.Expired x)).length := by
  induction fuel generalizing c pre post tail n with
  | zero =>
    obtain rfl := List.length_eq_zero_iff.mp (Nat.le_zero.mp hfuel)
    exact ⟨.refl c, hrow, rfl⟩
  | succ fuel ih =>
    rcases List.eq_nil_or_concat pre with rfl | ⟨pre, x, rfl⟩
    · exact ⟨.refl c, hrow, rfl⟩
    · rw [List.concat_eq_append] at *
      rw [List.append_assoc, List.singleton_append] at hrow
      rw [List.length_append, List.length_singleton] at hfuel hn
      rw [List.getLast?_append, List.getLast?_singleton, Option.some_or, clearLoop,
        EbTree.prevDup_eq hnodup hrow, List.filter_append]
      -- from the last entry of the row to the first
      by_cases hexp : c.Expired x
      · rw [if_pos hexp]
        have hdrops := drops_unlink c x
        have hface : Prunes c.Expired c (c.unlink x) := prunes_unlink hexp
        have hrow' : (c.unlink x).entries.dups key = pre ++ post := by
          have := EbTree.nodup_dups hnodup key
          rw [hrow, List.nodup_append, List.nodup_cons] at this
          obtain ⟨-, ⟨hpost, -⟩, hpre⟩ := this
          show (c.entries.delete x).dups key = _
          rw [EbTree.dups_delete, hrow, List.filter_append, List.filter_cons_of_neg (by simp),
            List.filter_eq_self.mpr fun y hy => decide_eq_true (hpre y hy x List.mem_cons_self),
            List.filter_eq_self.mpr]
          rintro y hy
          exact decide_eq_true fun heq : y = x => hpost (heq ▸ hy)
        obtain ⟨h1, h2, h3⟩ := ih tail (n := n)
          (hnodup.sublist (hdrops.nodes.map Prod.snd)) hrow' (by omega) (by omega)
        have hsame : pre.filter (fun y => ¬ (c.unlink x).Expired y) =
            pre.filter (fun y => ¬ c.Expired y) := by
          apply List.filter_congr
          intro y _
          rw [decide_eq_decide, hface.expired_iff]
        rw [hsame] at h2 h3
        have hnone : [x].filter (fun y => ¬ c.Expired y) = [] := by simp [hexp]
        rw [hnone, List.append_nil]
        exact ⟨hdrops.trans h1, h2, h3⟩
      · rw [if_neg hexp]
        have hsucc : (n + 1).toNat = n.toNat + 1 := by
          rw [UInt32.toNat_add]
          exact Nat.mod_eq_of_lt (by show n.toNat + 1 < 2 ^ 32; omega)
        obtain ⟨h1, h2, h3⟩ := ih (tail.or (some x)) (n := n + 1) hnodup hrow (by omega)
          (by omega)
        have hone : [x].filter (fun y => ¬ c.Expired y) = [x] := by simp [hexp]
        rw [hone, List.append_assoc, List.length_append, List.length_singleton]
        refine ⟨h1, h2, ?_⟩
        rw [h3, hsucc]
        omega

theorem Counted.insertEntry (h : Counted M c) (hM : 1 ≤ M) (he : e ∉ c.entries.items)
    (hsig : (c.obj e).secondaryKeySignature ≠ 0) : Counted M (c.insertEntry e).1 := by
  obtain ⟨key, hkey⟩ : ∃ key, (c.obj e).key = key := ⟨_, rfl⟩
  obtain ⟨c₀, hc₀⟩ : ∃ c₀, c₀ = { c with entries := c.entries.insert key e } := ⟨_, rfl⟩
  obtain ⟨row, hrow⟩ : ∃ row, c.entries.dups key = row := ⟨_, rfl⟩
  have hpending : Pending M key row e c₀ := by
    rw [hc₀]
    refine ⟨?_, ?_, ?_⟩
    · rw [(EbTree.items_insert_perm _ _ _).nodup_iff, List.nodup_cons]
      exact ⟨he, h.nodup⟩
    · rw [EbTree.dups_insert, if_pos rfl, hrow]
    · apply h.drops
      refine ⟨rfl, rfl, ?_⟩
      show ((c.entries.insert key e).nodes.filter _).Sublist _
      rw [EbTree.filter_nodes_insert _ _ _ (by simp)]
      exact List.filter_sublist
  have hnodup := hpending.nodup
  have hsig₀ : (c₀.obj e).secondaryKeySignature ≠ 0 := by
    rw [hc₀]
    exact hsig
  have hmax : c₀.maxSecondaryEntries = M := by
    rw [hc₀]
    exact h.max
  rw [Cache.insertEntry, hkey, ← hc₀]
  dsimp only
  rw [if_neg hsig₀, EbTree.prevDup_eq hnodup hpending.row, hmax]
  rcases hprev : row.getLast? with - | prev
  · obtain rfl := List.getLast?_eq_none_iff.mp hprev
    exact hpending.insertCounted (Nat.zero_le _) (UInt32.lt_iff_le_and_ne.mpr ⟨UInt32.zero_le, by
      rintro rfl
      exact absurd hM (by decide)⟩)
  · have hlen : row.length ≤ c₀.count prev := hpending.ranked.length_le hprev
    have hlt : c₀.count prev < 2 ^ 32 := (c₀.obj prev).secondaryEntriesCount.toNat_lt
    have hfuel := length_dups_le c₀.entries key
    rw [hpending.row, List.length_append] at hfuel
    obtain ⟨hdrops, hclear, hn⟩ := clearLoop_spec none (n := 0) hnodup hpending.row
      (Nat.le_of_add_right_le hfuel) (by rw [UInt32.toNat_zero]; omega)
    rw [hprev] at hdrops hclear hn
    rw [UInt32.toNat_zero, Nat.zero_add] at hn
    have hcleared := hpending.drops hdrops hclear
    dsimp only
    split_ifs with hroom hts hroom'
    · exact hpending.insertCounted hlen hroom
    · exact hpending.unlink
    · have hmax' := hdrops.max.trans hmax
      exact hcleared.insertCounted (le_of_eq hn.symm) (hmax' ▸ hroom')
    · -- still too many: the last entry remembers the date
      show Counted M (Cache.unlink _ e)
      apply Pending.unlink
      rw [clearExpiredDuplicates]
      rcases (clearLoop c₀.entries.items.length c₀ (some prev) none 0).2.1 with - | tail
      · exact hcleared
      · exact hcleared.drops (drops_modify fun o => rfl) hclear

theorem Counted.entryExist (h : Counted M c) (hash : CacheHash) :
    Counted M (c.entryExist hash).1 := by
  rw [Cache.entryExist]
  rcases hlook : c.entries.lookup (readU32 hash) with - | x
  · exact h
  · have hx : x ∈ c.entries.items :=
      EbTree.mem_items_of_mem_nodes (EbTree.mem_dups.mp (List.mem_of_mem_head? hlook))
    dsimp only
    split_ifs
    · exact h
    · exact h
    · apply (h.deleteEntry hx).drops
      dsimp only
      apply drops_modify
      intro o
      rfl

end Cache

/-! ### Runs -/

/-- What is inserted has a Vary signature. -/
def CacheAct.Vary : CacheAct → Prop
  | .op (.insert _ _ _ _ signature) => signature ≠ 0
  | _ => True

namespace CacheSys

variable {M : UInt32} {s : CacheSys}

theorem counted_step (h : s.cache.Counted M) (hM : 1 ≤ M) {op : CacheOp}
    (hvary : (CacheAct.op op).Vary) : (s.step op).cache.Counted M := by
  cases op with
  | insert e expire hash secondaryKey signature =>
    show (s.insert e expire hash secondaryKey signature).cache.Counted M
    rw [CacheSys.insert]
    split_ifs with he
    · exact h
    · obtain ⟨c, hc⟩ : ∃ c, c = s.cache.modify e fun _ =>
        ⟨expire, readU32 hash, hash, secondaryKey, signature, 0, 0⟩ := ⟨_, rfl⟩
      have hobj : c.obj e = ⟨expire, readU32 hash, hash, secondaryKey, signature, 0, 0⟩ := by
        rw [hc]
        exact Function.update_self e _ _
      have hcount : ∀ x, x ∈ s.cache.entries.items → c.count x = s.cache.count x := by
        intro x hx
        have hne : x ≠ e := fun heq => he (heq ▸ hx)
        rw [hc]
        show (Function.update s.cache.obj e _ x).secondaryEntriesCount.toNat = _
        rw [Function.update_of_ne hne]
        rfl
      -- the memory of an entry that is not linked is written
      have hcounted : c.Counted M := by
        rw [hc] at hcount ⊢
        refine ⟨h.max, h.nodup, fun key => (h.ranked key).congr fun x hx => ?_, fun x hx => ?_⟩
        · exact hcount x (EbTree.mem_items_of_mem_nodes (EbTree.mem_dups.mp hx))
        · rw [hcount x hx]
          exact h.le_max x hx
      have hinsert := hcounted.insertEntry (e := e) hM (by rw [hc]; exact he)
        (by rw [hobj]; exact hvary)
      rw [← hc]
      dsimp only
      rcases hrun : c.insertEntry e with ⟨c', - | -⟩
      · rw [hrun] at hinsert
        exact hinsert
      · rw [hrun] at hinsert
        exact hinsert
  | delete e =>
    show (s.delete e).cache.Counted M
    rw [CacheSys.delete]
    split_ifs with he
    · exact h.deleteEntry he
    · exact h
  | lookup hash secondaryKey =>
    have hexist := h.entryExist hash
    show (s.lookup hash secondaryKey).cache.Counted M
    rw [CacheSys.lookup]
    rcases hrun : s.cache.entryExist hash with ⟨c, - | e⟩
    · rw [hrun] at hexist
      exact hexist
    · rw [hrun] at hexist
      exact hexist.drops Cache.drops_secondaryEntryExist
  | tick secs => exact ⟨h.max, h.nodup, h.ranked, h.le_max⟩

theorem counted_act (h : s.cache.Counted M) (hM : 1 ≤ M) {a : CacheAct} (hvary : a.Vary) :
    (s.act a).cache.Counted M := by
  cases a with
  | op op => exact counted_step h hM hvary
  | remove e => exact h.drops (Cache.drops_unlink s.cache e)
  | store txn hash =>
    have hexist := h.entryExist hash
    show (s.httpActionStoreCache txn hash).cache.Counted M
    rw [httpActionStoreCache]
    rcases hrun : s.cache.entryExist hash with ⟨c, old⟩
    rw [hrun] at hexist
    rcases old with - | old
    · split_ifs <;> first | exact h | exact hexist
    · have hremove : (c.unlink old).Counted M := hexist.drops (Cache.drops_unlink c old)
      split_ifs <;> first | exact h | exact hremove

theorem counted_run (h : s.cache.Counted M) (hM : 1 ≤ M) {acts : List CacheAct}
    (hvary : ∀ a ∈ acts, a.Vary) : (s.run acts).cache.Counted M := by
  induction acts generalizing s with
  | nil => exact h
  | cons a acts ih =>
    rw [run_cons]
    apply ih (counted_act h hM (hvary a List.mem_cons_self))
    exact fun b hb => hvary b (List.mem_cons_of_mem a hb)

theorem counted_init (M : UInt32) (obj : ℕ → CacheEntry) (now : ℕ) :
    (init M obj now).cache.Counted M :=
  ⟨rfl, List.nodup_nil, fun _ => trivial, fun _ h => absurd h List.not_mem_nil⟩

end CacheSys

/-- **The number of variants is bounded**: in every state of every run, at most `M` entries
have one key, and no counter that `delete_entry` would decrement is 0. -/
theorem variants_bounded {M : UInt32} (hM : 1 ≤ M) (obj : ℕ → CacheEntry) (now : ℕ)
    {acts : List CacheAct} (hvary : ∀ a ∈ acts, a.Vary) :
    let c := ((CacheSys.init M obj now).run acts).cache
    (∀ key, (c.entries.dups key).length ≤ M.toNat) ∧
      ∀ e ∈ c.entries.items, ∀ x, c.decremented e = some x →
        (c.obj x).secondaryEntriesCount ≠ 0 := by
  have h := CacheSys.counted_run (CacheSys.counted_init M obj now) hM hvary
  constructor
  · intro key
    rcases hlast : (((CacheSys.init M obj now).run acts).cache.entries.dups key).getLast?
      with - | x
    · rw [List.getLast?_eq_none_iff.mp hlast]
      exact Nat.zero_le _
    · apply ((h.ranked key).length_le hlast).trans
      apply h.le_max
      exact EbTree.mem_items_of_mem_nodes (EbTree.mem_dups.mp (List.mem_of_getLast? hlast))
  · intro e he x hx hzero
    have hpos := h.decremented_pos he hx
    rw [Cache.count, hzero] at hpos
    exact absurd hpos (Nat.lt_irrefl 0)

/-- Two variants, of which the older one is unlinked without a count, a third one, and the
deletion of the second one. -/
def staleCountActs : List CacheAct :=
  [.op (.insert 0 10 hashA keyDeflate 1), .op (.insert 1 10 hashA keyGzip 1), .remove 0,
    .op (.insert 2 10 hashA keyDeflate 1), .op (.delete 1)]

/-- **The number of variants**: after such a run. -/
theorem variants_bounded_staleCount :
    let c := ((CacheSys.init 3 (fun _ => noEntry) 0).run staleCountActs).cache
    (∀ key, (c.entries.dups key).length ≤ 3) ∧
      ∀ e ∈ c.entries.items, ∀ x, c.decremented e = some x →
        (c.obj x).secondaryEntriesCount ≠ 0 :=
  variants_bounded (by decide) (fun _ => noEntry) 0 (by simp [staleCountActs, CacheAct.Vary])

end SmartHAProxy
