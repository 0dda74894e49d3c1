/-
What the lookups of the HTTP cache find (cache.c).

`Cache.Prunes` is all that an operation does to the tree: some entries leave it, and what
is looked up in an entry stays.  `entryExist_eq_some` and `secondaryEntryExist_eq_some`
say which entry a lookup returns: the oldest one with the 32 bits, and the oldest one with
the secondary key behind it, whatever its hash is.
-/
import SmartHAProxy.Cache.Entry

namespace SmartHAProxy

def CacheEntry.face (o : CacheEntry) : UInt32 × CacheHash × CacheSecKey × UInt32 :=
  (o.expire, o.hash, o.secondaryKey, o.secondaryKeySignature)

namespace Cache

/-! ### Entries that leave the tree -/

/-- `c'` is `c` less some entries that `gone` allows. -/
structure Prunes (gone : ℕ → Prop) (c c' : Cache) : Prop where
  now : c'.now = c.now
  face : ∀ x, (c'.obj x).face = (c.obj x).face
  nodes : c'.entries.nodes.Sublist c.entries.nodes
  kept : ∀ n ∈ c.entries.nodes, ¬ gone n.2 → n ∈ c'.entries.nodes

/-- The tree is keyed on the first 32 bits of the hashes. -/
structure Keyed (c : Cache) : Prop where
  nodup : c.entries.items.Nodup
  key : ∀ n ∈ c.entries.nodes, n.1 = readU32 (c.obj n.2).hash

section Prunes

variable {gone gone' : ℕ → Prop} {c c' c'' : Cache} {e : ℕ}

namespace Prunes

theorem refl (c : Cache) : Prunes gone c c := ⟨rfl, fun _ => rfl, .refl _, fun _ h _ => h⟩

theorem trans (h : Prunes gone c c') (h' : Prunes gone c' c'') : Prunes gone c c'' where
  now := h'.now.trans h.now
  face x := (h'.face x).trans (h.face x)
  nodes := h'.nodes.trans h.nodes
  kept n hn hgone := h'.kept n (h.kept n hn hgone) hgone

theorem mono (h : Prunes gone c c') (hle : ∀ x, gone x → gone' x) : Prunes gone' c c' :=
  { h with kept := fun n hn hgone => h.kept n hn fun hg => hgone (hle _ hg) }

theorem expire_eq (h : Prunes gone c c') (x : ℕ) : (c'.obj x).expire = (c.obj x).expire :=
  congrArg Prod.fst (h.face x)

theorem hash_eq (h : Prunes gone c c') (x : ℕ) : (c'.obj x).hash = (c.obj x).hash :=
  congrArg (fun o => o.2.1) (h.face x)

theorem secondaryKey_eq (h : Prunes gone c c') (x : ℕ) :
    (c'.obj x).secondaryKey = (c.obj x).secondaryKey :=
  congrArg (fun o => o.2.2.1) (h.face x)

theorem signature_eq (h : Prunes gone c c') (x : ℕ) :
    (c'.obj x).secondaryKeySignature = (c.obj x).secondaryKeySignature :=
  congrArg (fun o => o.2.2.2) (h.face x)

theorem expired_iff (h : Prunes gone c c') (x : ℕ) : c'.Expired x ↔ c.Expired x := by
  rw [Expired, Expired, h.expire_eq, h.now]

theorem items (h : Prunes gone c c') {x : ℕ} (hx : x ∈ c'.entries.items) : x ∈ c.entries.items :=
  (h.nodes.map Prod.snd).subset hx

theorem items_kept (h : Prunes gone c c') {x : ℕ} (hx : x ∈ c.entries.items) (hgone : ¬ gone x) :
    x ∈ c'.entries.items := by
  obtain ⟨n, hn, rfl⟩ := List.mem_map.mp hx
  exact EbTree.mem_items_of_mem_nodes (h.kept n hn hgone)

theorem keyed (h : Prunes gone c c') (hc : c.Keyed) : c'.Keyed where
  nodup := hc.nodup.sublist (h.nodes.map Prod.snd)
  key n hn := by
    rw [h.hash_eq]
    exact hc.key n (h.nodes.subset hn)

end Prunes

theorem prunes_modify {f : CacheEntry → CacheEntry} (hf : ∀ o, (f o).face = o.face) :
    Prunes gone c (c.modify e f) where
  now := rfl
  face x := by
    rcases eq_or_ne x e with rfl | hne
    · show (Function.update c.obj x (f (c.obj x)) x).face = _
      rw [Function.update_self, hf]
    · show (Function.update c.obj e (f (c.obj e)) x).face = _
      rw [Function.update_of_ne hne]
  nodes := .refl _
  kept _ h _ := h

theorem prunes_unlink (he : gone e) : Prunes gone c (c.unlink e) := by
  have hdelete : Prunes gone c { c with entries := c.entries.delete e } :=
    ⟨rfl, fun _ => rfl, List.filter_sublist, fun n hn hgone => List.mem_filter.mpr
      ⟨hn, decide_eq_true fun heq => hgone (heq ▸ he)⟩⟩
  exact hdelete.trans (prunes_modify fun _ => rfl)

theorem not_mem_unlink (c : Cache) (e : ℕ) : e ∉ (c.unlink e).entries.items := by
  show e ∉ (c.entries.delete e).items
  simp

/-! ### delete_entry -/

theorem deleteEntry_eq (gone : ℕ → Prop) (c : Cache) (e : ℕ) :
    ∃ c', Prunes gone c c' ∧ c.deleteEntry e = c'.unlink e := by
  rw [deleteEntry]
  refine ⟨_, ?_, rfl⟩
  split_ifs
  · split
    · exact prunes_modify fun _ => rfl
    · split
      · exact prunes_modify fun _ => rfl
      · exact .refl c
  · exact .refl c

theorem prunes_deleteEntry (he : gone e) : Prunes gone c (c.deleteEntry e) := by
  obtain ⟨c', hc', heq⟩ := deleteEntry_eq gone c e
  rw [heq]
  exact hc'.trans (prunes_unlink he)

theorem not_mem_deleteEntry (c : Cache) (e : ℕ) : e ∉ (c.deleteEntry e).entries.items := by
  obtain ⟨c', -, heq⟩ := deleteEntry_eq (fun _ => False) c e
  rw [heq]
  exact not_mem_unlink c' e

/-! ### entry_exist -/

theorem prunes_entryExist (c : Cache) (hash : CacheHash) :
    Prunes c.Expired c (c.entryExist hash).1 := by
  rw [entryExist]
  split
  · exact .refl c
  · rename_i x _
    split_ifs with hhash hexp
    · exact .refl c
    · exact .refl c
    · have hx : c.Expired x := Nat.le_of_not_lt hexp
      dsimp only
      apply (prunes_deleteEntry hx).trans
      apply prunes_modify
      intro o
      rfl

theorem entryExist_eq_some {hash : CacheHash} :
    (c.entryExist hash).2 = some e ↔
      c.entries.lookup (readU32 hash) = some e ∧ (c.obj e).hash = hash ∧ ¬ c.Expired e := by
  rw [entryExist]
  rcases hlook : c.entries.lookup (readU32 hash) with - | x
  · simp
  · dsimp only
    split_ifs with hhash hexp
    · constructor
      · nofun
      · rintro ⟨hx, hhash', -⟩
        obtain rfl := Option.some.inj hx
        exact absurd hhash' hhash
    · constructor
      · intro hx
        obtain rfl := Option.some.inj hx
        exact ⟨rfl, not_not.mp hhash, Nat.not_le.mpr hexp⟩
      · exact fun hx => hx.1
    · constructor
      · nofun
      · rintro ⟨hx, -, hexp'⟩
        obtain rfl := Option.some.inj hx
        exact absurd (Nat.le_of_not_lt hexp) hexp'

theorem entryExist_fst {hash : CacheHash} (h : (c.entryExist hash).2 = some e) :
    (c.entryExist hash).1 = c := by
  obtain ⟨hlook, hhash, hexp⟩ := entryExist_eq_some.mp h
  rw [entryExist, hlook]
  dsimp only
  rw [if_neg (not_not.mpr hhash), if_pos (Nat.lt_of_not_le hexp)]

/-! ### secondary_entry_exist -/

/-- The entry has a secondary key that matches. -/
def Matches (c : Cache) (secondaryKey : CacheSecKey) (x : ℕ) : Bool :=
  !secondaryKeyCmp (c.obj x).secondaryKey secondaryKey

/-- The loop comes to the oldest entry that matches, from `e` on. -/
theorem secondaryLoop_spec {secondaryKey : CacheSecKey} {key : UInt32} {fuel : ℕ}
    {pre post : List ℕ} (hnodup : c.entries.items.Nodup) (hrow : c.entries.dups key = pre ++ e :: post)
    (hfuel : (e :: post).length ≤ fuel) :
    (secondaryLoop secondaryKey fuel c e).2 = (e :: post).find? (c.Matches secondaryKey) ∧
      Prunes c.Expired c (secondaryLoop secondaryKey fuel c e).1 := by
  induction fuel generalizing c e pre post with
  | zero => exact absurd hfuel (by simp)
  | succ fuel ih =>
    rw [secondaryLoop]
    by_cases hcmp : secondaryKeyCmp (c.obj e).secondaryKey secondaryKey
    · rw [if_pos hcmp]
      have hmatch : c.Matches secondaryKey e = false := by rw [Matches, hcmp]; rfl
      rw [EbTree.nextDup_eq hnodup hrow, List.find?_cons_of_neg (by rw [hmatch]; nofun)]
      -- the entry leaves the row if it is expired
      obtain ⟨c', hc'⟩ : ∃ c', c' = if c.Expired e then c.unlink e else c := ⟨_, rfl⟩
      have hprune : Prunes c.Expired c c' := by
        rw [hc']
        split_ifs with hexp
        · exact prunes_unlink hexp
        · exact .refl c
      obtain ⟨pre', hrow'⟩ : ∃ pre', c'.entries.dups key = pre' ++ post := by
        rw [hc']
        split_ifs with hexp
        · refine ⟨pre.filter (· ≠ e), ?_⟩
          have hpost : post.filter (· ≠ e) = post := by
            have := EbTree.nodup_dups hnodup key
            rw [hrow, List.nodup_append, List.nodup_cons] at this
            rw [List.filter_eq_self]
            intro x hx
            exact decide_eq_true fun heq => this.2.1.1 (heq ▸ hx)
          show (c.entries.delete e).dups key = _
          rw [EbTree.dups_delete, hrow, List.filter_append, List.filter_cons_of_neg (by simp),
            hpost]
        · exact ⟨pre ++ [e], by rw [hrow, List.append_assoc]; rfl⟩
      dsimp only
      rw [← hc']
      cases post with
      | nil => exact ⟨rfl, hprune⟩
      | cons x post =>
        dsimp only [List.head?_cons]
        obtain ⟨hfind, hrest⟩ := ih (hnodup.sublist (hprune.nodes.map Prod.snd)) hrow'
          (by simpa using hfuel)
        have hsame : c'.Matches secondaryKey = c.Matches secondaryKey := by
          funext y
          rw [Matches, Matches, hprune.secondaryKey_eq]
        rw [hfind, hsame]
        exact ⟨rfl, hprune.trans (hrest.mono fun y => (hprune.expired_iff y).mp)⟩
    · rw [if_neg hcmp]
      refine ⟨?_, .refl c⟩
      rw [List.find?_cons_of_pos]
      rw [Matches, Bool.eq_false_of_not_eq_true hcmp]
      rfl

theorem length_dups_le (t : EbTree UInt32 ℕ) (key : UInt32) :
    (t.dups key).length ≤ t.items.length := by
  rw [EbTree.dups, EbTree.items, List.length_map, List.length_map]
  exact List.length_filter_le _ _

theorem secondaryLoop_head (secondaryKey : CacheSecKey) {key : UInt32}
    (hnodup : c.entries.items.Nodup) (hhead : c.entries.lookup key = some e) :
    (secondaryLoop secondaryKey c.entries.items.length c e).2 =
        (c.entries.dups key).find? (c.Matches secondaryKey) ∧
      Prunes c.Expired c (secondaryLoop secondaryKey c.entries.items.length c e).1 := by
  obtain ⟨post, hrow⟩ : ∃ post, c.entries.dups key = e :: post :=
    ⟨_, (List.eq_cons_of_mem_head? hhead)⟩
  have hlen := length_dups_le c.entries key
  rw [hrow] at hlen ⊢
  rw [← List.nil_append (e :: post)] at hrow
  exact secondaryLoop_spec hnodup hrow hlen

theorem secondaryEntryExist_eq_some (secondaryKey : CacheSecKey) {key : UInt32} (x : ℕ)
    (hnodup : c.entries.items.Nodup) (hhead : c.entries.lookup key = some e) :
    (c.secondaryEntryExist e secondaryKey).2 = some x ↔
      (c.obj e).secondaryKeySignature ≠ 0 ∧
        (c.entries.dups key).find? (c.Matches secondaryKey) = some x ∧ ¬ c.Expired x := by
  obtain ⟨hfind, hprune⟩ := secondaryLoop_head secondaryKey hnodup hhead
  rw [secondaryEntryExist, ← hfind]
  split_ifs with hsig
  · simp [hsig]
  · rcases hloop : secondaryLoop secondaryKey c.entries.items.length c e with ⟨c', - | y⟩
    · simp
    · rw [hloop] at hprune
      dsimp only
      have hiff := hprune.expired_iff y
      split_ifs with hexp
      · constructor
        · nofun
        · rintro ⟨-, hx, hexp'⟩
          obtain rfl := Option.some.inj hx
          exact absurd (hiff.mp hexp) hexp'
      · constructor
        · intro hx
          obtain rfl := Option.some.inj hx
          exact ⟨hsig, rfl, fun h => hexp (hiff.mpr h)⟩
        · exact fun hx => hx.2.1

theorem prunes_secondaryEntryExist {secondaryKey : CacheSecKey} {key : UInt32}
    (hnodup : c.entries.items.Nodup) (hhead : c.entries.lookup key = some e) :
    Prunes c.Expired c (c.secondaryEntryExist e secondaryKey).1 := by
  obtain ⟨-, hprune⟩ := secondaryLoop_head secondaryKey hnodup hhead
  rw [secondaryEntryExist]
  split_ifs with hsig
  · exact .refl c
  · rcases hloop : secondaryLoop secondaryKey c.entries.items.length c e with ⟨c', - | y⟩
    · rw [hloop] at hprune
      exact hprune
    · rw [hloop] at hprune
      dsimp only at hprune ⊢
      split_ifs with hexp
      · exact hprune.trans (prunes_unlink ((hprune.expired_iff y).mp hexp))
      · exact hprune

/-! ### insert_entry -/

theorem prunes_clearLoop {fuel : ℕ} {prev tail : Option ℕ} {count : UInt32} :
    Prunes c.Expired c (clearLoop fuel c prev tail count).1 := by
  induction fuel generalizing c prev tail count with
  | zero => exact .refl c
  | succ fuel ih =>
    rcases prev with - | x
    · exact .refl c
    · rw [clearLoop]
      split_ifs with hexp
      · have hprune : Prunes c.Expired c (c.unlink x) := prunes_unlink hexp
        exact hprune.trans (ih.mono fun y => (hprune.expired_iff y).mp)
      · exact ih

theorem prunes_insertCounted {count ts : UInt32} : Prunes gone c (c.insertCounted e count ts) := by
  apply prunes_modify
  intro o
  rfl

theorem insertEntry_spec (c : Cache) (e : ℕ) :
    ∃ c', Prunes c.Expired { c with entries := c.entries.insert (c.obj e).key e } c' ∧
      (c.insertEntry e = (c', true) ∨ c.insertEntry e = (c'.unlink e, false)) := by
  obtain ⟨c₀, hc₀⟩ : ∃ c₀, c₀ = { c with entries := c.entries.insert (c.obj e).key e } := ⟨_, rfl⟩
  have hexp : c₀.Expired = c.Expired := by rw [hc₀]; rfl
  rw [insertEntry, ← hc₀, ← hexp]
  dsimp only
  by_cases hsig : (c₀.obj e).secondaryKeySignature = 0
  · rw [if_pos hsig]
    exact ⟨_, .refl _, .inl rfl⟩
  · rw [if_neg hsig]
    rcases c₀.entries.prevDup e with - | prev
    · exact ⟨_, prunes_insertCounted, .inl rfl⟩
    · dsimp only
      have hclear : Prunes c₀.Expired c₀ (c₀.clearExpiredDuplicates (some prev)).1 :=
        prunes_clearLoop
      split_ifs
      · exact ⟨_, prunes_insertCounted, .inl rfl⟩
      · exact ⟨_, .refl _, .inr rfl⟩
      · exact ⟨_, hclear.trans prunes_insertCounted, .inl rfl⟩
      · refine ⟨_, ?_, .inr rfl⟩
        rcases (c₀.clearExpiredDuplicates (some prev)).2.1 with - | x
        · exact hclear
        · apply hclear.trans
          apply prunes_modify
          intro o
          rfl

end Prunes

end Cache

end SmartHAProxy
