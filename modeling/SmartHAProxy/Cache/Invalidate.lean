/-
What an unsafe method leaves of a resource in the cache (cache.c).

After a successful POST, `http_action_store_cache` unlinks the entry that `entry_exist`
finds, which is one variant; the others stay (`Cache.behind`).  `Cache.Ages` follows the
entries that were stored before through any later run, and `invalidated_iff` says when none
of them is found any more.

Main results:
* `ages_act`, `ages_run`: what one action and a run leave of the entries stored before
* `found_eq_some`: what a lookup returns
* `exists_run_found`: an entry that can be found is found after some run
* `invalidated_iff`
-/
import Mathlib.Data.List.Perm.Subperm
import SmartHAProxy.Cache.Action

namespace SmartHAProxy

variable {x : ℕ} {secondaryKey : CacheSecKey}

/-! ### Statements -/

/-- The action inserts an entry under `hash`. -/
def CacheAct.Stores (hash : CacheHash) : CacheAct → Prop
  | .op (.insert _ _ hash' _ _) => hash' = hash
  | _ => False

namespace CacheSys

/-- The entry that a request with a secondary key gets: that of `entry_exist` if it has no
secondary key, or else that of `secondary_entry_exist`. -/
def found (s : CacheSys) (hash : CacheHash) (secondaryKey : CacheSecKey) : Option ℕ :=
  match s.cache.entryExist hash with
  | (_, none) => none
  | (c, some res) =>
    if (c.obj res).secondaryKeySignature = 0 then some res
    else (c.secondaryEntryExist res secondaryKey).2

/-- The entry that an action inserts, unless it is in the tree already. -/
def inserted (s : CacheSys) : CacheAct → List ℕ
  | .op (.insert e _ _ _ _) => if e ∈ s.cache.entries.items then [] else [e]
  | _ => []

/-- The entries that are inserted in a run. -/
def storedSince (s : CacheSys) : List CacheAct → List ℕ
  | [] => []
  | a :: acts => s.inserted a ++ (s.act a).storedSince acts

/-- After the response to an unsafe method, no later lookup of the resource returns an entry
that was stored before, as long as the resource is not stored again. -/
def Invalidated (s : CacheSys) (txn : CacheTxn) (hash : CacheHash) : Prop :=
  let s' := s.act (.store txn hash)
  ∀ acts, (∀ a ∈ acts, ¬ a.Stores hash) → ∀ secondaryKey x,
    (s'.run acts).found hash secondaryKey = some x → x ∈ s'.storedSince acts

end CacheSys

namespace Cache

/-- The entries with the 32 bits, oldest first, less the first one if `entry_exist` is called
and it is of the resource. -/
def behind (c : Cache) (txn : CacheTxn) (hash : CacheHash) : List ℕ :=
  let row := c.entries.dups (readU32 hash)
  if txn.fromCache ∨ ¬ txn.ver11 then row
  else
    match row with
    | [] => []
    | e :: rest => if (c.obj e).hash = hash then rest else row

/-- An entry in the row can be found later on: one of the resource that is not expired, and
itself or one behind it has a secondary key that some request has. -/
def Findable (c : Cache) (hash : CacheHash) (row : List ℕ) : Prop :=
  ∃ y ∈ row, c.Right hash y ∧ ((c.obj y).secondaryKeySignature = 0 ∨
    ∃ z, (z = y ∨ [y, z].Sublist row) ∧ ¬ c.Expired z ∧ c.Matches (c.obj z).secondaryKey z)

variable {c c' c'' : Cache} {hash : CacheHash} {fresh : List ℕ} {gone : ℕ → Prop}

theorem Prunes.matches_eq (h : Prunes gone c c') (secondaryKey : CacheSecKey) :
    c'.Matches secondaryKey = c.Matches secondaryKey := by
  funext x
  rw [Matches, Matches, h.secondaryKey_eq]

theorem Prunes.right_iff (h : Prunes gone c c') : c'.Right hash x ↔ c.Right hash x := by
  rw [Right, Right, h.hash_eq, h.expired_iff]

theorem Prunes.findable_iff (h : Prunes gone c c') {row : List ℕ} :
    c'.Findable hash row ↔ c.Findable hash row := by
  have hz : ∀ z, (¬ c'.Expired z ∧ c'.Matches (c'.obj z).secondaryKey z) ↔
      ¬ c.Expired z ∧ c.Matches (c.obj z).secondaryKey z := by
    intro z
    rw [h.expired_iff, h.matches_eq, h.secondaryKey_eq]
  simp only [Findable, h.right_iff, h.signature_eq, hz]

theorem matches_self (h : c.Matches secondaryKey x) : c.Matches (c.obj x).secondaryKey x := by
  rw [Matches, Bool.not_eq_true'] at h ⊢
  rw [secondaryKeyCmp] at h ⊢
  simp only [varyInformation, secondaryKeyCmpLoop, acceptEncodingBitmapCmp] at h ⊢
  simp at h ⊢
  exact h.1.1

/-! ### The response to the unsafe method -/

theorem entries_deleteEntry (c : Cache) (e : ℕ) :
    (c.deleteEntry e).entries = c.entries.delete e := by
  rw [deleteEntry]
  split_ifs
  · split
    · rfl
    · split <;> rfl
  · rfl

end Cache

namespace CacheSys

variable {s : CacheSys} {hash : CacheHash}

/-- The action only takes entries out of the tree. -/
theorem prunes_store (s : CacheSys) (txn : CacheTxn) (hash : CacheHash) :
    Cache.Prunes (fun _ => True) s.cache (s.act (.store txn hash)).cache := by
  have hexist : Cache.Prunes (fun _ => True) s.cache (s.cache.entryExist hash).1 :=
    (s.cache.prunes_entryExist hash).mono fun _ _ => trivial
  show Cache.Prunes _ _ (s.httpActionStoreCache txn hash).cache
  rw [httpActionStoreCache]
  rcases hrun : s.cache.entryExist hash with ⟨c, old⟩
  rw [hrun] at hexist
  rcases old with - | old
  · split_ifs <;> first | exact .refl _ | exact hexist
  · have hremove := hexist.trans (Cache.prunes_unlink (e := old) trivial)
    split_ifs <;> first | exact .refl _ | exact hremove

/-- After an unsafe method, `behind` is what is left in the row. -/
theorem dups_store (h : s.Good) {txn : CacheTxn} (hmeth : txn.meth.isUnsafe)
    (hstatus : 200 ≤ txn.status ∧ txn.status < 400) :
    (s.act (.store txn hash)).cache.entries.dups (readU32 hash) = s.cache.behind txn hash := by
  have hget : txn.meth ≠ .get := by
    intro hget
    rw [hget] at hmeth
    cases hmeth
  show (s.httpActionStoreCache txn hash).cache.entries.dups _ = _
  rw [httpActionStoreCache, Cache.behind]
  by_cases hcache : txn.fromCache
  · rw [if_pos hcache, if_pos (.inl hcache)]
  · by_cases hver : txn.ver11
    · rw [if_neg hcache, if_neg (not_not.mpr hver), if_pos hget, if_pos hstatus, if_pos hmeth,
        if_neg (by simp [hcache, hver]), Cache.entryExist, EbTree.lookup]
      rcases hrow : s.cache.entries.dups (readU32 hash) with - | ⟨e, rest⟩
      · exact hrow
      · have hdelete : (s.cache.entries.delete e).dups (readU32 hash) = rest := by
          have hnodup := EbTree.nodup_dups h.keyed.nodup (readU32 hash)
          rw [hrow, List.nodup_cons] at hnodup
          rw [EbTree.dups_delete, hrow, List.filter_cons_of_neg (by simp), List.filter_eq_self]
          intro y hy
          exact decide_eq_true fun heq : y = e => hnodup.1 (heq ▸ hy)
        dsimp only [List.head?_cons]
        by_cases hhash : (s.cache.obj e).hash = hash
        · rw [if_neg (not_not.mpr hhash), if_pos hhash]
          split_ifs
          · exact hdelete
          · show (s.cache.deleteEntry e).entries.dups _ = _
            rw [Cache.entries_deleteEntry, hdelete]
        · rw [if_pos hhash, if_neg hhash]
          exact hrow
    · rw [if_neg hcache, if_pos hver, if_pos (.inr hver)]

end CacheSys

/-! ### Later runs -/

namespace Cache

/-- `c'` is `c` some time later: the entries that are not fresh are as they were, some have
left, and no fresh one is of the resource. -/
structure Ages (hash : CacheHash) (fresh : List ℕ) (c c' : Cache) : Prop where
  now : c.now ≤ c'.now
  face : ∀ x ∉ fresh, (c'.obj x).face = (c.obj x).face
  nodes : (c'.entries.nodes.filter (·.2 ∉ fresh)).Sublist c.entries.nodes
  other : ∀ x ∈ c'.entries.items, x ∈ fresh → (c'.obj x).hash ≠ hash

variable {c c' c'' : Cache} {hash : CacheHash} {fresh : List ℕ} {gone : ℕ → Prop} {e : ℕ}

theorem Ages.refl (c : Cache) : Ages hash [] c c where
  now := le_refl _
  face _ _ := rfl
  nodes := List.filter_sublist
  other _ _ h := absurd h List.not_mem_nil

/-- Entries may go at any time. -/
theorem Ages.prunes (h : Ages hash fresh c c') (hprune : Prunes gone c' c'') :
    Ages hash fresh c c'' where
  now := h.now.trans (le_of_eq hprune.now.symm)
  face x hx := (hprune.face x).trans (h.face x hx)
  nodes := (hprune.nodes.filter _).trans h.nodes
  other x hx hfresh := by
    rw [hprune.hash_eq]
    exact h.other x (hprune.items hx) hfresh

theorem Ages.unlink (h : Ages hash fresh c c') (e : ℕ) : Ages hash fresh c (c'.unlink e) := by
  have hprune : Prunes (fun _ => True) c' (c'.unlink e) := prunes_unlink trivial
  exact h.prunes hprune

theorem Ages.deleteEntry (h : Ages hash fresh c c') (e : ℕ) :
    Ages hash fresh c (c'.deleteEntry e) := by
  have hprune : Prunes (fun _ => True) c' (c'.deleteEntry e) := prunes_deleteEntry trivial
  exact h.prunes hprune

/-- An entry of another resource may be linked, and it is fresh. -/
theorem Ages.link {o : CacheEntry} (h : Ages hash fresh c c') (key : UInt32)
    (he : e ∉ c'.entries.items) (ho : o.hash ≠ hash) :
    Ages hash (fresh ++ [e]) c
      { c'.modify e fun _ => o with entries := c'.entries.insert key e } where
  now := h.now
  face x hx := by
    rw [List.mem_append, not_or, List.mem_singleton] at hx
    show (Function.update c'.obj e o x).face = _
    rw [Function.update_of_ne hx.2]
    exact h.face x hx.1
  nodes := by
    show ((c'.entries.insert key e).nodes.filter _).Sublist _
    rw [EbTree.filter_nodes_insert _ _ _ (by simp)]
    apply List.Sublist.trans _ h.nodes
    apply List.monotone_filter_right
    intro n hn
    have hn : n.2 ∉ fresh ++ [e] := of_decide_eq_true hn
    exact decide_eq_true fun hmem => hn (List.mem_append_left _ hmem)
  other x hx hfresh := by
    show (Function.update c'.obj e o x).hash ≠ hash
    rcases EbTree.mem_insert.mp hx with rfl | hx
    · rw [Function.update_self]
      exact ho
    · have hne : x ≠ e := fun heq => he (heq ▸ hx)
      rw [Function.update_of_ne hne]
      apply h.other x hx
      simpa [hne] using hfresh

theorem Ages.dups (h : Ages hash fresh c c') (key : UInt32) :
    ((c'.entries.dups key).filter (· ∉ fresh)).Sublist (c.entries.dups key) :=
  EbTree.filter_dups_sublist h.nodes key

/-- The dates do not change, so what has not expired yet had not expired before. -/
theorem Ages.not_expired (h : Ages hash fresh c c') (hx : x ∉ fresh) (hexp : ¬ c'.Expired x) :
    ¬ c.Expired x := by
  have hexpire : (c'.obj x).expire = (c.obj x).expire := congrArg Prod.fst (h.face x hx)
  intro hold
  apply hexp
  rw [Expired, hexpire]
  exact hold.trans h.now

end Cache

namespace CacheSys

variable {s : CacheSys} {hash : CacheHash} {fresh : List ℕ} {c : Cache}

/-- **One action** that stores nothing under `hash`. -/
theorem ages_act (h : c.Ages hash fresh s.cache) (hgood : s.Good) {a : CacheAct}
    (ha : ¬ a.Stores hash) : c.Ages hash (fresh ++ s.inserted a) (s.act a).cache := by
  cases a with
  | op op =>
    cases op with
    | insert e expire hash' secondaryKey signature =>
      show c.Ages hash (fresh ++ if _ then _ else _)
        (s.insert e expire hash' secondaryKey signature).cache
      rw [CacheSys.insert]
      split_ifs with he
      · rw [List.append_nil]
        exact h
      · obtain ⟨o, ho⟩ : ∃ o : CacheEntry,
          o = ⟨expire, readU32 hash', hash', secondaryKey, signature, 0, 0⟩ := ⟨_, rfl⟩
        -- the new entry is linked under another hash, all else takes entries away
        have hhash : o.hash ≠ hash := by
          rw [ho]
          exact ha
        obtain ⟨c', hprune, hrun⟩ := Cache.insertEntry_spec (s.cache.modify e fun _ => o) e
        have hlink := (h.link ((s.cache.modify e fun _ => o).obj e).key he
          hhash).prunes hprune
        rw [← ho]
        dsimp only
        rcases hrun with hrun | hrun
        · rw [hrun]
          exact hlink
        · rw [hrun]
          exact hlink.unlink e
    | delete e =>
      show c.Ages hash (fresh ++ []) (s.delete e).cache
      rw [List.append_nil, CacheSys.delete]
      split_ifs
      · exact h.deleteEntry e
      · exact h
    | lookup hash' secondaryKey =>
      have hprune := s.cache.prunes_entryExist hash'
      show c.Ages hash (fresh ++ []) (s.lookup hash' secondaryKey).cache
      rw [List.append_nil, CacheSys.lookup]
      rcases hrun : s.cache.entryExist hash' with ⟨c', - | e⟩
      · rw [hrun] at hprune
        exact h.prunes hprune
      · have hsome : (s.cache.entryExist hash').2 = some e := by rw [hrun]
        have hfst := Cache.entryExist_fst hsome
        rw [hrun] at hfst
        obtain rfl : c' = s.cache := hfst
        exact h.prunes (Cache.prunes_secondaryEntryExist hgood.keyed.nodup
          (Cache.entryExist_eq_some.mp hsome).1)
    | tick secs =>
      show c.Ages hash (fresh ++ []) { s.cache with now := s.cache.now + secs }
      rw [List.append_nil]
      exact ⟨h.now.trans (Nat.le_add_right _ _), h.face, h.nodes, h.other⟩
  | remove e =>
    show c.Ages hash (fresh ++ []) (s.cache.unlink e)
    rw [List.append_nil]
    exact h.unlink e
  | store txn hash' =>
    show c.Ages hash (fresh ++ []) _
    rw [List.append_nil]
    exact h.prunes (prunes_store s txn hash')

/-- **A run** that stores nothing under `hash`. -/
theorem ages_run (h : c.Ages hash fresh s.cache) (hgood : s.Good) {acts : List CacheAct}
    (hacts : ∀ a ∈ acts, ¬ a.Stores hash) :
    c.Ages hash (fresh ++ s.storedSince acts) (s.run acts).cache := by
  induction acts generalizing s fresh with
  | nil =>
    show c.Ages hash (fresh ++ []) s.cache
    rw [List.append_nil]
    exact h
  | cons a acts ih =>
    rw [storedSince, ← List.append_assoc, run_cons]
    apply ih (ages_act h hgood (hacts a List.mem_cons_self)) (hgood.act a)
    exact fun b hb => hacts b (List.mem_cons_of_mem a hb)

/-! ### Lookups after a run -/

/-- What a lookup returns. -/
theorem found_eq_some (h : s.Good) :
    s.found hash secondaryKey = some x ↔
      ∃ e, (s.cache.entries.dups (readU32 hash)).head? = some e ∧ s.cache.Right hash e ∧
        ((s.cache.obj e).secondaryKeySignature = 0 ∧ x = e ∨
          (s.cache.obj e).secondaryKeySignature ≠ 0 ∧
            (s.cache.entries.dups (readU32 hash)).find? (s.cache.Matches secondaryKey) = some x ∧
            ¬ s.cache.Expired x) := by
  rw [found]
  rcases hrun : s.cache.entryExist hash with ⟨c, - | e⟩
  · constructor
    · intro hx
      cases hx
    · rintro ⟨e, he, hright, -⟩
      have hsome := Cache.entryExist_eq_some.mpr ⟨he, hright⟩
      rw [hrun] at hsome
      cases hsome
  · have hsome : (s.cache.entryExist hash).2 = some e := by rw [hrun]
    have hfst := Cache.entryExist_fst hsome
    rw [hrun] at hfst
    obtain rfl : c = s.cache := hfst
    obtain ⟨hhead, hright⟩ := Cache.entryExist_eq_some.mp hsome
    have hsec := Cache.secondaryEntryExist_eq_some secondaryKey x
      h.keyed.nodup hhead
    dsimp only
    constructor
    · intro hx
      refine ⟨e, hhead, hright, ?_⟩
      split_ifs at hx with hsig
      · exact .inl ⟨hsig, (Option.some.inj hx).symm⟩
      · exact .inr (hsec.mp hx)
    · rintro ⟨e', hhead', -, hx⟩
      obtain rfl := Option.some.inj (hhead.symm.trans hhead')
      rcases hx with ⟨hsig, rfl⟩ | hx
      · rw [if_pos hsig]
      · rw [if_neg hx.1]
        exact hsec.mpr hx

/-- What is found and not fresh could be found from the start. -/
theorem mem_fresh_of_found (hages : c.Ages hash fresh s.cache) (hgood : s.Good)
    (hnot : ¬ c.Findable hash (c.entries.dups (readU32 hash)))
    (hx : s.found hash secondaryKey = some x) : x ∈ fresh := by
  by_contra hfresh
  obtain ⟨e, hhead, hright, hx⟩ := (found_eq_some hgood).mp hx
  obtain ⟨row, hrow⟩ : ∃ row, s.cache.entries.dups (readU32 hash) = e :: row :=
    ⟨_, List.eq_cons_of_mem_head? hhead⟩
  have hmem : e ∈ s.cache.entries.items := by
    apply EbTree.mem_items_of_mem_nodes (n := (readU32 hash, e))
    rw [← EbTree.mem_dups, hrow]
    exact List.mem_cons_self
  have he : e ∉ fresh := fun he => hages.other e hmem he hright.1
  have hdups := hages.dups (readU32 hash)
  rw [hrow, List.filter_cons_of_pos (by simpa using he)] at hdups
  have hface := hages.face
  have hrightc : c.Right hash e := by
    refine ⟨?_, hages.not_expired he hright.2⟩
    rw [← hright.1]
    exact (congrArg (fun o => o.2.1) (hface e he)).symm
  apply hnot
  refine ⟨e, hdups.subset List.mem_cons_self, hrightc, ?_⟩
  rcases hx with ⟨hsig, rfl⟩ | ⟨-, hfind, hexp⟩
  · left
    rw [← hsig]
    exact (congrArg (fun o => o.2.2.2) (hface x he)).symm
  · right
    have hkey : (s.cache.obj x).secondaryKey = (c.obj x).secondaryKey :=
      congrArg (fun o => o.2.2.1) (hface x hfresh)
    refine ⟨x, ?_, hages.not_expired hfresh hexp, ?_⟩
    · -- in the row, it is the first entry or behind it
      have hxrow := List.mem_of_find?_eq_some hfind
      rw [hrow, List.mem_cons] at hxrow
      rcases hxrow with rfl | hxrow
      · exact .inl rfl
      · right
        apply List.Sublist.trans _ hdups
        apply List.Sublist.cons_cons
        rw [List.singleton_sublist]
        exact List.mem_filter.mpr ⟨hxrow, decide_eq_true hfresh⟩
    · have hmatch := Cache.matches_self (List.find?_some hfind)
      rw [Cache.Matches, hkey] at hmatch
      exact hmatch

/-! ### A run after which an entry is found -/

/-- Sublists of a list without duplicates that have the same members are equal. -/
theorem sublist_ext {l a b : List ℕ} (hnodup : l.Nodup) (ha : a.Sublist l) (hb : b.Sublist l)
    (h : ∀ x, x ∈ a ↔ x ∈ b) : a = b := by
  have heq : ∀ a : List ℕ, a.Sublist l → a = l.filter (· ∈ a) := by
    intro a ha
    have hself : a.filter (· ∈ a) = a := List.filter_eq_self.mpr fun x hx => decide_eq_true hx
    have hsub := ha.filter (· ∈ a)
    rw [hself] at hsub
    apply hsub.eq_of_length_le
    apply (List.Nodup.subperm (hnodup.filter _) _).length_le
    intro x hx
    exact of_decide_eq_true (List.mem_filter.mp hx).2
  rw [heq a ha, heq b hb]
  apply List.filter_congr
  intro x _
  rw [decide_eq_decide]
  exact h x

/-- Deleting the entries of a list takes out these and no other ones. -/
theorem run_deletes (s : CacheSys) (l : List ℕ) :
    Cache.Prunes (· ∈ l) s.cache (s.run (l.map fun x => .op (.delete x))).cache ∧
      (∀ x ∈ l, x ∉ (s.run (l.map fun x => .op (.delete x))).cache.entries.items) ∧
      s.storedSince (l.map fun x => .op (.delete x)) = [] := by
  induction l generalizing s with
  | nil => exact ⟨.refl _, fun x hx => absurd hx List.not_mem_nil, rfl⟩
  | cons y l ih =>
    obtain ⟨hprune, hgone, hsince⟩ := ih (s.delete y)
    have hdelete : Cache.Prunes (· ∈ y :: l) s.cache (s.delete y).cache ∧
        y ∉ (s.delete y).cache.entries.items := by
      rw [CacheSys.delete]
      split_ifs with hy
      · exact ⟨Cache.prunes_deleteEntry List.mem_cons_self, Cache.not_mem_deleteEntry _ _⟩
      · exact ⟨.refl _, hy⟩
    refine ⟨hdelete.1.trans (hprune.mono fun x hx => List.mem_cons_of_mem y hx), ?_, hsince⟩
    intro x hx hmem
    rcases List.mem_cons.mp hx with rfl | hx
    · exact hdelete.2 (hprune.items hmem)
    · exact hgone x hx hmem

/-- Every sublist of a row is what some run leaves of it. -/
theorem exists_run_row (hash : CacheHash) (h : s.Good) {key : UInt32} {l : List ℕ}
    (hl : l.Sublist (s.cache.entries.dups key)) :
    ∃ acts, (∀ a ∈ acts, ¬ a.Stores hash) ∧ s.storedSince acts = [] ∧
      Cache.Prunes (· ∉ l) s.cache (s.run acts).cache ∧
      (s.run acts).cache.entries.dups key = l := by
  obtain ⟨hprune, hgone, hsince⟩ :=
    s.run_deletes ((s.cache.entries.dups key).filter (· ∉ l))
  refine ⟨_, ?_, hsince, hprune.mono fun x hx => ?_, ?_⟩
  · intro a ha
    obtain ⟨x, -, rfl⟩ := List.mem_map.mp ha
    exact id
  · exact of_decide_eq_true (List.mem_filter.mp hx).2
  · have hnodup := EbTree.nodup_dups h.keyed.nodup key
    apply sublist_ext hnodup ((hprune.nodes.filter _).map Prod.snd) hl
    intro x
    constructor
    · intro hx
      have hrow := ((hprune.nodes.filter _).map Prod.snd).subset hx
      by_contra hnot
      exact hgone x (List.mem_filter.mpr ⟨hrow, decide_eq_true hnot⟩)
        (EbTree.mem_items_of_mem_nodes (EbTree.mem_dups.mp hx))
    · intro hx
      apply EbTree.mem_dups.mpr
      apply hprune.kept _ (EbTree.mem_dups.mp (hl.subset hx))
      intro hmem
      exact of_decide_eq_true (List.mem_filter.mp hmem).2 hx

/-- An entry that can be found is found after a run that stores nothing. -/
theorem exists_run_found (h : s.Good)
    (hfind : s.cache.Findable hash (s.cache.entries.dups (readU32 hash))) :
    ∃ acts, (∀ a ∈ acts, ¬ a.Stores hash) ∧ s.storedSince acts = [] ∧
      ∃ secondaryKey x, (s.run acts).found hash secondaryKey = some x := by
  obtain ⟨y, hy, hright, hcases⟩ := hfind
  -- all entries are deleted but `y`, or `y` and `z`
  obtain ⟨z, l, hl, hlist, hmatch⟩ : ∃ z l, List.Sublist l (s.cache.entries.dups (readU32 hash)) ∧
      (l = [y] ∧ z = y ∨ l = [y, z]) ∧ ((s.cache.obj y).secondaryKeySignature = 0 ∨
        ¬ s.cache.Expired z ∧ s.cache.Matches (s.cache.obj z).secondaryKey z) := by
    rcases hcases with hsig | ⟨z, rfl | hsub, hz⟩
    · exact ⟨y, [y], List.singleton_sublist.mpr hy, .inl ⟨rfl, rfl⟩, .inl hsig⟩
    · exact ⟨z, [z], List.singleton_sublist.mpr hy, .inl ⟨rfl, rfl⟩, .inr hz⟩
    · exact ⟨z, [y, z], hsub, .inr rfl, .inr hz⟩
  obtain ⟨acts, hacts, hsince, hprune, hrow⟩ := exists_run_row hash h hl
  have hhead : l.head? = some y := by
    rcases hlist with ⟨rfl, -⟩ | rfl <;> rfl
  have hright' : (s.run acts).cache.Right hash y := hprune.right_iff.mpr hright
  refine ⟨acts, hacts, hsince, (s.cache.obj z).secondaryKey, ?_⟩
  by_cases hsig : (s.cache.obj y).secondaryKeySignature = 0
  · refine ⟨y, (found_eq_some (h.run acts)).mpr ⟨y, ?_, hright', .inl ⟨?_, rfl⟩⟩⟩
    · rw [hrow, hhead]
    · rw [hprune.signature_eq, hsig]
  · obtain ⟨hexp, hself⟩ := hmatch.resolve_left hsig
    obtain ⟨x, hx, hxexp⟩ : ∃ x, l.find? (s.cache.Matches (s.cache.obj z).secondaryKey) = some x ∧
        ¬ s.cache.Expired x := by
      rcases hlist with ⟨rfl, rfl⟩ | rfl
      · exact ⟨z, List.find?_cons_of_pos hself, hexp⟩
      · by_cases hym : s.cache.Matches (s.cache.obj z).secondaryKey y
        · exact ⟨y, List.find?_cons_of_pos hym, hright.2⟩
        · refine ⟨z, ?_, hexp⟩
          rw [List.find?_cons_of_neg hym, List.find?_cons_of_pos hself]
    refine ⟨x, (found_eq_some (h.run acts)).mpr ⟨y, ?_, hright', .inr ⟨?_, ?_, ?_⟩⟩⟩
    · rw [hrow, hhead]
    · rw [hprune.signature_eq]
      exact hsig
    · rw [hrow, hprune.matches_eq]
      exact hx
    · rw [hprune.expired_iff]
      exact hxexp

end CacheSys

/-- **Unsafe methods invalidate** a resource if and only if no other entry in its row can be
found: in every state of every run, for every unsafe method and successful response. -/
theorem invalidated_iff (maxSecondaryEntries : UInt32) (obj : ℕ → CacheEntry) (now : ℕ)
    (acts : List CacheAct) (hash : CacheHash) {txn : CacheTxn} (hmeth : txn.meth.isUnsafe)
    (hstatus : 200 ≤ txn.status ∧ txn.status < 400) :
    ((CacheSys.init maxSecondaryEntries obj now).run acts).Invalidated txn hash ↔
      ¬ ((CacheSys.init maxSecondaryEntries obj now).run acts).cache.Findable hash
        (((CacheSys.init maxSecondaryEntries obj now).run acts).cache.behind txn hash) := by
  have hgood := (CacheSys.init_good maxSecondaryEntries obj now).run acts
  generalize (CacheSys.init maxSecondaryEntries obj now).run acts = s at hgood ⊢
  have hgood' := hgood.act (.store txn hash)
  rw [← CacheSys.dups_store hgood hmeth hstatus,
    ← (CacheSys.prunes_store s txn hash).findable_iff]
  constructor
  · intro h hfind
    obtain ⟨acts, hacts, hsince, secondaryKey, x, hx⟩ := CacheSys.exists_run_found hgood' hfind
    have hmem := h acts hacts secondaryKey x hx
    rw [hsince] at hmem
    exact absurd hmem List.not_mem_nil
  · intro hnot acts hacts secondaryKey x hx
    have hages := CacheSys.ages_run (.refl _) hgood' hacts
    exact CacheSys.mem_fresh_of_found hages (hgood'.run acts) hnot hx

/-! ### Variants -/

def postTxn : CacheTxn := ⟨false, true, .post, 200⟩

def variantActs : List CacheAct :=
  [.op (.insert 0 10 hashA keyDeflate 1), .op (.insert 1 10 hashA keyGzip 1)]

/-- **Unsafe methods invalidate**: the only entry of a resource is found no more. -/
theorem invalidated_single : ((CacheSys.init 10 (fun _ => noEntry) 0).run
    [.op (.insert 0 10 hashA keyDeflate 1)]).Invalidated postTxn hashA := by
  refine (invalidated_iff 10 (fun _ => noEntry) 0 _ hashA rfl (by decide)).mpr ?_
  have hrow : ((CacheSys.init 10 (fun _ => noEntry) 0).run
      [.op (.insert 0 10 hashA keyDeflate 1)]).cache.behind postTxn hashA = [] := by decide +kernel
  rintro ⟨y, hy, -⟩
  rw [hrow] at hy
  exact absurd hy List.not_mem_nil

/-- **Unsafe methods invalidate**: of two variants, the second one is still found. -/
theorem not_invalidated :
    ¬ ((CacheSys.init 10 (fun _ => noEntry) 0).run variantActs).Invalidated postTxn hashA := by
  intro h
  have hmem := h [] (fun a ha => absurd ha List.not_mem_nil) keyGzip 1 (by decide +kernel)
  exact absurd hmem List.not_mem_nil

end SmartHAProxy
