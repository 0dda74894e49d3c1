/-
When the lookups of the HTTP cache are exact (cache.c).

In every state that a run of a cache reaches, the tree holds the stored entries, less some
that are expired (`CacheSys.Good`).  `cache_exact_iff` says when a lookup is exact there: it
is not when another resource with the same 32 bits comes first, since `entry_exist` looks
at the oldest entry only, and `secondary_entry_exist` does not look at hashes.
-/
import Mathlib.Data.List.Induction
import SmartHAProxy.Cache.Lookup

namespace SmartHAProxy

/-! ### Statements -/

/-- The entry is of this resource and not expired. -/
def Cache.Right (c : Cache) (hash : CacheHash) (x : ℕ) : Prop :=
  (c.obj x).hash = hash ∧ ¬ c.Expired x

instance Cache.decidableRight (c : Cache) (hash : CacheHash) (x : ℕ) :
    Decidable (c.Right hash x) :=
  inferInstanceAs (Decidable (_ ∧ _))

/-- **Cache lookups are exact**: an entry that `entry_exist` returns has the full hash, and
one that is stored and not expired is found; and the same of `secondary_entry_exist` with a
matching secondary key. -/
def CacheSys.Exact (s : CacheSys) (hash : CacheHash) (secondaryKey : CacheSecKey) : Prop :=
  let r := s.cache.entryExist hash
  (∀ e, r.2 = some e → (s.cache.obj e).hash = hash) ∧
  ((∃ x ∈ s.stored, s.cache.Right hash x) → r.2 ≠ none) ∧
  ∀ e, r.2 = some e →
    let q := r.1.secondaryEntryExist e secondaryKey
    (∀ x, q.2 = some x → (s.cache.obj x).hash = hash ∧ s.cache.Matches secondaryKey x) ∧
    ((∃ x ∈ s.stored, s.cache.Right hash x ∧ (s.cache.obj x).secondaryKeySignature ≠ 0 ∧
      s.cache.Matches secondaryKey x) → q.2 ≠ none)

/-- Nothing comes before the right entry.  `row` are the entries with the 32 bits, oldest
first. -/
def Cache.ClearFor (c : Cache) (hash : CacheHash) (secondaryKey : CacheSecKey) : Prop :=
  let row := c.entries.dups (readU32 hash)
  ∀ e, row.head? = some e →
    if c.Right hash e then
      ∀ x, row.find? (c.Matches secondaryKey) = some x →
        if (c.obj e).secondaryKeySignature ≠ 0 ∧ ¬ c.Expired x then (c.obj x).hash = hash
        else ∀ y ∈ row, c.Right hash y → (c.obj y).secondaryKeySignature ≠ 0 →
          ¬ c.Matches secondaryKey y
    else ∀ y ∈ row, ¬ c.Right hash y

namespace CacheSys

/-! ### What every run keeps -/

/-- The tree holds stored entries, all that are not expired among them. -/
structure Good (s : CacheSys) : Prop where
  keyed : s.cache.Keyed
  stored : ∀ x ∈ s.cache.entries.items, x ∈ s.stored
  linked : ∀ x ∈ s.stored, ¬ s.cache.Expired x → x ∈ s.cache.entries.items

variable {s : CacheSys}

theorem Good.prunes {c' : Cache} (h : s.Good) (hprune : Cache.Prunes s.cache.Expired s.cache c') :
    Good { s with cache := c' } where
  keyed := hprune.keyed h.keyed
  stored x hx := h.stored x (hprune.items hx)
  linked x hx hexp := by
    have hexp' : ¬ s.cache.Expired x := fun h => hexp ((hprune.expired_iff x).mpr h)
    exact hprune.items_kept (h.linked x hx hexp') hexp'

theorem Good.delete {c' : Cache} {e : ℕ} (h : s.Good)
    (hprune : Cache.Prunes (fun x => s.cache.Expired x ∨ x = e) s.cache c')
    (he : e ∉ c'.entries.items) : Good ⟨c', s.stored.filter (· ≠ e)⟩ where
  keyed := hprune.keyed h.keyed
  stored x hx := by
    have hne : x ≠ e := fun heq => he (heq ▸ hx)
    exact List.mem_filter.mpr ⟨h.stored x (hprune.items hx), decide_eq_true hne⟩
  linked x hx hexp := by
    obtain ⟨hmem, hne⟩ := List.mem_filter.mp hx
    have hexp' : ¬ s.cache.Expired x := fun h => hexp ((hprune.expired_iff x).mpr h)
    apply hprune.items_kept (h.linked x hmem hexp')
    rintro (hx | rfl)
    · exact hexp' hx
    · simp at hne

theorem Good.link {e : ℕ} {o : CacheEntry} (h : s.Good) (he : e ∉ s.cache.entries.items)
    (ho : o.key = readU32 o.hash) :
    Good ⟨{ s.cache.modify e fun _ => o with entries := s.cache.entries.insert o.key e },
      e :: s.stored.filter (· ≠ e)⟩ where
  keyed := by
    have hobj : ∀ x, x ≠ e → (s.cache.modify e fun _ => o).obj x = s.cache.obj x :=
      fun x hne => Function.update_of_ne hne _ _
    constructor
    · show (s.cache.entries.insert o.key e).items.Nodup
      rw [(EbTree.items_insert_perm _ _ _).nodup_iff, List.nodup_cons]
      exact ⟨he, h.keyed.nodup⟩
    · intro n hn
      show n.1 = readU32 ((s.cache.modify e fun _ => o).obj n.2).hash
      rcases EbTree.mem_nodes_insert.mp hn with rfl | hn
      · show o.key = readU32 (Function.update s.cache.obj e o e).hash
        rw [Function.update_self, ho]
      · rw [hobj n.2 fun heq => he (heq ▸ EbTree.mem_items_of_mem_nodes hn)]
        exact h.keyed.key n hn
  stored x hx := by
    rcases EbTree.mem_insert.mp hx with rfl | hx
    · exact List.mem_cons_self
    · have hne : x ≠ e := fun heq => he (heq ▸ hx)
      exact List.mem_cons_of_mem e (List.mem_filter.mpr ⟨h.stored x hx, decide_eq_true hne⟩)
  linked x hx hexp := by
    rw [EbTree.mem_insert]
    rcases List.mem_cons.mp hx with rfl | hx
    · exact .inl rfl
    · obtain ⟨hmem, hne⟩ := List.mem_filter.mp hx
      have hne : x ≠ e := by simpa using hne
      refine .inr (h.linked x hmem fun hx => hexp ?_)
      show (Function.update s.cache.obj e o x).expire.toNat ≤ s.cache.now
      rw [Function.update_of_ne hne]
      exact hx

theorem Good.insert (h : s.Good) (e : ℕ) (expire : UInt32) (hash : CacheHash)
    (secondaryKey : CacheSecKey) (signature : UInt32) :
    (s.insert e expire hash secondaryKey signature).Good := by
  rw [CacheSys.insert]
  split_ifs with he
  · exact h
  · obtain ⟨o, ho⟩ : ∃ o : CacheEntry,
      o = ⟨expire, readU32 hash, hash, secondaryKey, signature, 0, 0⟩ := ⟨_, rfl⟩
    have hkey : o.key = readU32 o.hash := by rw [ho]
    have hlink := h.link he hkey
    obtain ⟨c', hprune, hrun⟩ := Cache.insertEntry_spec (s.cache.modify e fun _ => o) e
    have hobj : (s.cache.modify e fun _ => o).obj e = o := Function.update_self _ _ _
    rw [hobj] at hprune
    rw [← ho]
    dsimp only
    rcases hrun with hrun | hrun
    · rw [hrun]
      exact hlink.prunes hprune
    · rw [hrun]
      have hgone : Cache.Prunes (fun x => (s.cache.modify e fun _ => o).Expired x ∨ x = e) _
          (c'.unlink e) :=
        (hprune.mono fun x hx => .inl hx).trans (Cache.prunes_unlink (.inr rfl))
      have hgood := hlink.delete hgone (Cache.not_mem_unlink c' e)
      have hstored : (e :: s.stored.filter (· ≠ e)).filter (· ≠ e) = s.stored.filter (· ≠ e) := by
        rw [List.filter_cons_of_neg (by simp), List.filter_filter]
        simp
      rw [← hstored]
      exact hgood

theorem Good.lookup (h : s.Good) (hash : CacheHash) (secondaryKey : CacheSecKey) :
    (s.lookup hash secondaryKey).Good := by
  have hprune := s.cache.prunes_entryExist hash
  rw [CacheSys.lookup]
  rcases hrun : s.cache.entryExist hash with ⟨c, - | e⟩
  · rw [hrun] at hprune
    exact h.prunes hprune
  · have hsome : (s.cache.entryExist hash).2 = some e := by rw [hrun]
    have hfst := Cache.entryExist_fst hsome
    rw [hrun] at hfst
    obtain rfl : c = s.cache := hfst
    exact h.prunes (Cache.prunes_secondaryEntryExist h.keyed.nodup
      (Cache.entryExist_eq_some.mp hsome).1)

theorem Good.step (h : s.Good) (op : CacheOp) : (s.step op).Good := by
  cases op with
  | insert e expire hash secondaryKey signature =>
    exact h.insert e expire hash secondaryKey signature
  | delete e =>
    show (s.delete e).Good
    rw [CacheSys.delete]
    split_ifs with he
    · exact h.delete (Cache.prunes_deleteEntry (.inr rfl)) (Cache.not_mem_deleteEntry _ _)
    · exact h
  | lookup hash secondaryKey => exact h.lookup hash secondaryKey
  | tick secs =>
    refine ⟨⟨h.keyed.nodup, h.keyed.key⟩, h.stored, fun x hx hexp => ?_⟩
    apply h.linked x hx
    intro hx
    apply hexp
    exact Nat.le_add_right_of_le hx

theorem init_good (maxSecondaryEntries : UInt32) (obj : ℕ → CacheEntry) (now : ℕ) :
    (init maxSecondaryEntries obj now).Good :=
  ⟨⟨List.nodup_nil, nofun⟩, nofun, nofun⟩

theorem run_good (maxSecondaryEntries : UInt32) (obj : ℕ → CacheEntry) (now : ℕ)
    (ops : List CacheOp) : (ops.foldl step (init maxSecondaryEntries obj now)).Good := by
  induction ops using List.reverseRecOn with
  | nil => exact init_good maxSecondaryEntries obj now
  | append_singleton ops op ih =>
    rw [List.foldl_concat]
    exact ih.step op

/-! ### Lookups -/

theorem Good.right_iff (h : s.Good) {hash : CacheHash} {x : ℕ} :
    x ∈ s.stored ∧ s.cache.Right hash x ↔
      x ∈ s.cache.entries.dups (readU32 hash) ∧ s.cache.Right hash x := by
  constructor
  · rintro ⟨hx, hright⟩
    obtain ⟨n, hn, rfl⟩ := List.mem_map.mp (h.linked x hx hright.2)
    have hkey := h.keyed.key n hn
    rw [hright.1] at hkey
    rw [EbTree.mem_dups, ← hkey]
    exact ⟨hn, hright⟩
  · rintro ⟨hx, hright⟩
    exact ⟨h.stored x (EbTree.mem_items_of_mem_nodes (EbTree.mem_dups.mp hx)), hright⟩

/-- The secondary lookup, from a right entry. -/
theorem Good.secondary_iff (h : s.Good) {hash : CacheHash} (secondaryKey : CacheSecKey) {e : ℕ}
    (hhead : s.cache.entries.lookup (readU32 hash) = some e) :
    ((∀ x, (s.cache.secondaryEntryExist e secondaryKey).2 = some x →
        (s.cache.obj x).hash = hash ∧ s.cache.Matches secondaryKey x) ∧
      ((∃ x ∈ s.stored, s.cache.Right hash x ∧ (s.cache.obj x).secondaryKeySignature ≠ 0 ∧
        s.cache.Matches secondaryKey x) →
        (s.cache.secondaryEntryExist e secondaryKey).2 ≠ none)) ↔
    ∀ x, (s.cache.entries.dups (readU32 hash)).find? (s.cache.Matches secondaryKey) = some x →
      if (s.cache.obj e).secondaryKeySignature ≠ 0 ∧ ¬ s.cache.Expired x then
        (s.cache.obj x).hash = hash
      else ∀ y ∈ s.cache.entries.dups (readU32 hash), s.cache.Right hash y →
        (s.cache.obj y).secondaryKeySignature ≠ 0 → ¬ s.cache.Matches secondaryKey y := by
  have hsome : ∀ x, (s.cache.secondaryEntryExist e secondaryKey).2 = some x ↔ _ :=
    fun x => Cache.secondaryEntryExist_eq_some secondaryKey x h.keyed.nodup hhead
  constructor
  · rintro ⟨hsound, hfound⟩ x hfind
    split_ifs with hx
    · exact (hsound x ((hsome x).mpr ⟨hx.1, hfind, hx.2⟩)).1
    · intro y hy hright hsig hmatch
      obtain ⟨hstored, -⟩ := h.right_iff.mpr ⟨hy, hright⟩
      obtain ⟨z, hz⟩ := Option.ne_none_iff_exists'.mp (hfound ⟨y, hstored, hright, hsig, hmatch⟩)
      obtain ⟨hsig', hfind', hexp⟩ := (hsome z).mp hz
      obtain rfl := Option.some.inj (hfind'.symm.trans hfind)
      exact hx ⟨hsig', hexp⟩
  · intro hclear
    constructor
    · intro x hx
      obtain ⟨hsig, hfind, hexp⟩ := (hsome x).mp hx
      have hhash := hclear x hfind
      rw [if_pos ⟨hsig, hexp⟩] at hhash
      exact ⟨hhash, List.find?_some hfind⟩
    · rintro ⟨y, hy, hright, hsig, hmatch⟩
      obtain ⟨hrow, -⟩ := h.right_iff.mp ⟨hy, hright⟩
      -- the row has an entry that matches, `y` if no other
      rcases hfind : (s.cache.entries.dups (readU32 hash)).find? (s.cache.Matches secondaryKey)
        with - | x
      · exact absurd hmatch (List.find?_eq_none.mp hfind y hrow)
      · have hx := hclear x hfind
        split_ifs at hx with hcond
        · rw [(hsome x).mpr ⟨hcond.1, hfind, hcond.2⟩]
          nofun
        · exact absurd hmatch (hx y hrow hright hsig)

/-- A lookup is exact if and only if nothing comes before the right entry. -/
theorem Good.exact_iff (h : s.Good) (hash : CacheHash) (secondaryKey : CacheSecKey) :
    s.Exact hash secondaryKey ↔ s.cache.ClearFor hash secondaryKey := by
  rw [Exact, Cache.ClearFor]
  dsimp only
  have hlook : (s.cache.entries.dups (readU32 hash)).head? =
    s.cache.entries.lookup (readU32 hash) := rfl
  rw [hlook]
  rcases hrun : (s.cache.entryExist hash).2 with - | e
  · -- nothing is returned
    have hnone : ∀ e, s.cache.entries.lookup (readU32 hash) = some e → ¬ s.cache.Right hash e := by
      intro e he hright
      rw [Cache.entryExist_eq_some.mpr ⟨he, hright.1, hright.2⟩] at hrun
      cases hrun
    constructor
    · rintro ⟨-, hfound, -⟩ e he
      rw [if_neg (hnone e he)]
      intro y hy hright
      exact hfound ⟨y, h.right_iff.mpr ⟨hy, hright⟩⟩ rfl
    · intro hclear
      refine ⟨nofun, ?_, nofun⟩
      rintro ⟨y, hy, hright⟩
      obtain ⟨hrow, -⟩ := h.right_iff.mp ⟨hy, hright⟩
      obtain ⟨e, he⟩ : ∃ e, s.cache.entries.lookup (readU32 hash) = some e := by
        rw [← hlook]
        exact ⟨_, List.head?_eq_some_head (List.ne_nil_of_mem hrow)⟩
      have hall := hclear e he
      rw [if_neg (hnone e he)] at hall
      exact absurd hright (hall y hrow)
  · have hfst := Cache.entryExist_fst hrun
    obtain ⟨hhead, hhash, hexp⟩ := Cache.entryExist_eq_some.mp hrun
    have hright : s.cache.Right hash e := ⟨hhash, hexp⟩
    rw [hfst]
    have hiff := h.secondary_iff secondaryKey hhead
    constructor
    · rintro ⟨-, -, hsec⟩ x hx
      obtain rfl := Option.some.inj (hhead.symm.trans hx)
      rw [if_pos hright]
      exact hiff.mp (hsec e rfl)
    · intro hclear
      refine ⟨?_, fun _ => nofun, ?_⟩
      · intro x hx
        obtain rfl := Option.some.inj hx
        exact hhash
      · intro x hx
        obtain rfl := Option.some.inj hx
        have hrest := hclear e hhead
        rw [if_pos hright] at hrest
        exact hiff.mpr hrest

end CacheSys

/-- **Cache lookups**: in every state of every run, a lookup is exact if and only if nothing
comes before the right entry in the row of those with the same 32 bits. -/
theorem cache_exact_iff (maxSecondaryEntries : UInt32) (obj : ℕ → CacheEntry) (now : ℕ)
    (ops : List CacheOp) (hash : CacheHash) (secondaryKey : CacheSecKey) :
    (ops.foldl CacheSys.step (CacheSys.init maxSecondaryEntries obj now)).Exact hash secondaryKey ↔
      (ops.foldl CacheSys.step
        (CacheSys.init maxSecondaryEntries obj now)).cache.ClearFor hash secondaryKey :=
  (CacheSys.run_good maxSecondaryEntries obj now ops).exact_iff hash secondaryKey

/-! ### Resources with the same 32 bits -/

/-- Two hashes with the same first 32 bits. -/
def hashA : CacheHash := ⟨List.replicate 20 7, rfl⟩

def hashB : CacheHash := ⟨List.replicate 19 7 ++ [8], rfl⟩

def keyDeflate : CacheSecKey := ⟨[2, 0, 0, 0, 0, 0, 0, 0], rfl⟩

def keyGzip : CacheSecKey := ⟨[1, 0, 0, 0, 0, 0, 0, 0], rfl⟩

def noEntry : CacheEntry := ⟨0, 0, hashA, keyDeflate, 0, 0, 0⟩

def emptyCache : CacheSys := CacheSys.init 10 (fun _ => noEntry) 0

/-- A variant of one resource, then one of another. -/
def collidingOps : List CacheOp :=
  [.insert 0 10 hashA keyDeflate 1, .insert 1 10 hashB keyGzip 1]

/-- Two variants of one resource, the older one expired. -/
def expiredOps : List CacheOp :=
  [.insert 0 5 hashA keyDeflate 1, .insert 1 10 hashA keyGzip 1, .tick 5]

/-- **Cache lookups**: one resource is returned for another, and entries that are stored
and not expired are not found behind one with the same 32 bits. -/
theorem not_cache_exact :
    ¬ (collidingOps.foldl CacheSys.step emptyCache).Exact hashA keyGzip ∧
    ¬ (collidingOps.foldl CacheSys.step emptyCache).Exact hashB keyGzip ∧
    ¬ (expiredOps.foldl CacheSys.step emptyCache).Exact hashA keyGzip := by
  refine ⟨?_, ?_, ?_⟩
  · rintro ⟨-, -, hsec⟩
    exact absurd ((hsec 0 (by decide +kernel)).1 1 (by decide +kernel)).1 (by decide +kernel)
  · rintro ⟨-, hfound, -⟩
    exact hfound ⟨1, by decide +kernel, by decide +kernel⟩ (by decide +kernel)
  · rintro ⟨-, hfound, -⟩
    exact hfound ⟨1, by decide +kernel, by decide +kernel⟩ (by decide +kernel)

end SmartHAProxy
