/-
The whitelist hash table of whitelist.c.

The table is direct mapped: `hashRequest` adds up the bytes of the key, and
slot `sum % CAPACITY` holds at most one request.  `insertRequest` has three
outcomes on a slot that exists: a free slot takes the request, the owner of
the slot gets its server string overwritten in place, and any other key is a
collision, which is reported and dropped.

Three things in the C code can go wrong besides collisions, and all three are
faults here: `key[MAX_LINE]` may be too short for the method, `char` is
signed so that the slot number of a key may be negative, and the in-place
`strcpy` writes into the buffer that `createRequest` sized for the *first*
server string of that key (`Request.room`).

`Whitelist.Holds wl ops` describes the table after the history `ops` of
inserts completely: slot by slot, the owner of the slot with its last server
string.  The step lemmas `insertRequest_holds` and `admits_of_insertRequest`
say that an insert succeeds exactly on the histories that `Admits` it, and
`insertAll_holds` and `insertAll_of_allAdmitted` carry this to whole runs.
-/
import Mathlib.Algebra.Ring.Int.Defs
import SmartHAProxy.Lib.CString
import SmartHAProxy.Lib.History
import SmartHAProxy.Lib.Run

namespace SmartHAProxy

variable {ops : List (CStr × CStr)} {o : CStr × CStr} {wl : Whitelist}

def capacity : ℕ := 100

def maxLine : ℕ := 1024

/-- A hashed item.  `room` is the number of bytes allocated for `servers`. -/
structure Request where
  key : CStr
  method : CStr
  servers : CStr
  room : ℕ
  deriving DecidableEq, Repr

structure Whitelist where
  requests : List (Option Request)
  size : ℕ
  count : ℕ
  deriving DecidableEq, Repr

/-! ### The operations of whitelist.c -/

/-- Sum of the (signed) bytes, with C's truncating remainder.  The sum of a
key that fits `key[MAX_LINE]` is far from the limits of `int`. -/
def hashRequest (key : CStr) : ℤ := (key.map charVal).sum.tmod capacity

def createWhitelist (size : ℕ) : Whitelist :=
  { requests := List.replicate size none, size := size, count := 0 }

def createRequest (method servers : CStr) : Except Fault Request := do
  let key ← strcpy maxLine method
  pure { key := key, method := method, servers := servers, room := servers.length + 1 }

/-- `whitelist.requests[index]`. -/
def Whitelist.at (wl : Whitelist) : ℤ → Except Fault (Option Request)
  | .ofNat i =>
    match wl.requests[i]? with
    | some r => .ok r
    | none => .error .outOfBounds
  | .negSucc _ => .error .outOfBounds

def insertRequest (wl : Whitelist) (method servers : CStr) : Except Fault Whitelist := do
  let request ← createRequest method servers
  let key ← strcpy maxLine method
  let index := hashRequest key
  let current ← wl.at index
  match current with
  | none =>
    -- "Whitelist has reached capacity"
    if wl.count = wl.size then pure wl
    else pure { wl with
      requests := wl.requests.set index.toNat (some request)
      count := wl.count + 1 }
  | some cur =>
    if cur.key = key then do
      let servers ← strcpy cur.room servers
      pure { wl with
        requests := wl.requests.set index.toNat (some { cur with servers := servers }) }
    else
      -- collision(): the request is printed and freed
      pure wl

def searchRequest (wl : Whitelist) (key : CStr) : Except Fault (Option CStr) := do
  let request ← wl.at (hashRequest key)
  match request with
  | some r => if r.key = key then pure (some r.servers) else pure none
  | none => pure none

/-- A sequence of `insertRequest` calls. -/
def insertAll (wl : Whitelist) (ops : List (CStr × CStr)) : Except Fault Whitelist :=
  ops.foldlM (fun wl o => insertRequest wl o.1 o.2) wl

/-! ### What the table holds after a history of inserts -/

/-- The entry that the history `ops` leaves in slot `i`. -/
def entryOf (ops : List (CStr × CStr)) (i : ℤ) : Option Request :=
  (owner hashRequest ops i).map fun o =>
    { key := o.1, method := o.1, servers := (lastValue ops o.1).getD [],
      room := o.2.length + 1 }

/-- `wl` is the table left by the history `ops`. -/
structure Whitelist.Holds (wl : Whitelist) (ops : List (CStr × CStr)) : Prop where
  size_eq : wl.size = capacity
  length_eq : wl.requests.length = capacity
  count_eq : wl.count = wl.requests.countP Option.isSome
  entry_eq : ∀ i < capacity, wl.requests[i]? = some (entryOf ops i)

/-- The insert `o` meets no fault after the history `ops`: the method fits
`key[MAX_LINE]`, its slot exists, and if it owns the slot the new server
string is no longer than the one the slot was allocated for. -/
def Admits (ops : List (CStr × CStr)) (o : CStr × CStr) : Prop :=
  o.1.length < maxLine ∧ 0 ≤ hashRequest o.1 ∧
    ∀ p, owner hashRequest ops (hashRequest o.1) = some p → p.1 = o.1 →
      o.2.length ≤ p.2.length

/-- Every insert of the history is admitted when its turn comes. -/
def AllAdmitted (ops : List (CStr × CStr)) : Prop :=
  ∀ pre o, pre ++ [o] <+: ops → Admits pre o

theorem allAdmitted_concat : AllAdmitted (ops ++ [o]) ↔ AllAdmitted ops ∧ Admits ops o := by
  constructor
  · intro h
    refine ⟨fun pre p hp => h pre p (hp.trans (List.prefix_append _ _)), ?_⟩
    exact h ops o (List.prefix_refl _)
  · rintro ⟨h, ho⟩ pre p hp
    rcases List.prefix_concat_iff.mp hp with heq | hpre
    · obtain ⟨rfl, hop⟩ := List.append_inj' heq rfl
      obtain rfl : p = o := by simpa using hop
      exact ho
    · exact h pre p hpre

/-! ### Slots -/

theorem hashRequest_lt (key : CStr) : hashRequest key < capacity :=
  Int.tmod_lt_of_pos _ (by decide)

theorem Whitelist.Holds.at_eq (h : wl.Holds ops) {key : CStr} (hk : 0 ≤ hashRequest key) :
    wl.at (hashRequest key) = .ok (entryOf ops (hashRequest key)) := by
  obtain ⟨i, hi⟩ := Int.eq_ofNat_of_zero_le hk
  have hlt : i < capacity := by
    have := hashRequest_lt key
    omega
  rw [hi]
  simp only [Whitelist.at, h.entry_eq i hlt]

theorem Whitelist.at_neg (wl : Whitelist) {i : ℤ} (hi : i < 0) :
    wl.at i = .error .outOfBounds := by
  rcases i with i | i
  · exact absurd hi (by simp)
  · rfl

theorem entryOf_concat_of_ne {i : ℤ} (hi : hashRequest o.1 ≠ i) :
    entryOf (ops ++ [o]) i = entryOf ops i := by
  unfold entryOf
  rw [owner_concat, if_neg hi, Option.or_none]
  rcases e : owner hashRequest ops i with - | p
  · rfl
  · have hp : o.1 ≠ p.1 := fun h => hi (h ▸ (owner_mem e).2)
    simp [lastValue_concat, hp]

theorem entryOf_concat_free (hown : owner hashRequest ops (hashRequest o.1) = none) :
    entryOf (ops ++ [o]) (hashRequest o.1)
      = some { key := o.1, method := o.1, servers := o.2, room := o.2.length + 1 } := by
  simp [entryOf, owner_concat, hown, lastValue_concat]

theorem entryOf_concat_owned {p : CStr × CStr}
    (hown : owner hashRequest ops (hashRequest o.1) = some p) :
    entryOf (ops ++ [o]) (hashRequest o.1)
      = some { key := p.1, method := p.1,
               servers := if p.1 = o.1 then o.2 else (lastValue ops p.1).getD [],
               room := p.2.length + 1 } := by
  by_cases h : p.1 = o.1
  · simp [entryOf, owner_concat, hown, lastValue_concat, h]
  · have h' : o.1 ≠ p.1 := fun e => h e.symm
    simp [entryOf, owner_concat, hown, lastValue_concat, h, h']

/-! ### One insert -/

theorem createWhitelist_holds : (createWhitelist capacity).Holds [] where
  size_eq := rfl
  length_eq := by simp [createWhitelist]
  count_eq := by simp [createWhitelist, List.countP_replicate]
  entry_eq := by
    intro i hi
    simp [createWhitelist, entryOf, owner, hi]

theorem Whitelist.Holds.count_lt (h : wl.Holds ops) {i : ℕ} (hi : i < capacity)
    (hfree : entryOf ops i = none) : wl.count < wl.size := by
  rw [h.count_eq, h.size_eq, ← h.length_eq]
  refine lt_of_le_of_ne (List.countP_le_length) fun heq => ?_
  have hmem : (none : Option Request) ∈ wl.requests := by
    have := h.entry_eq i hi
    rw [hfree] at this
    exact List.mem_of_getElem? this
  simpa using List.countP_eq_length.mp heq none hmem

theorem Whitelist.Holds.set (h : wl.Holds ops) {i : ℕ} (hi : hashRequest o.1 = i) {r : Request}
    (hr : entryOf (ops ++ [o]) i = some r) {c : ℕ}
    (hc : c = (wl.requests.set i (some r)).countP Option.isSome) :
    ({ requests := wl.requests.set i (some r), size := wl.size, count := c }
      : Whitelist).Holds (ops ++ [o]) where
  size_eq := h.size_eq
  length_eq := by simpa using h.length_eq
  count_eq := hc
  entry_eq := by
    intro j hj
    have hlen := h.length_eq
    rw [List.getElem?_set]
    by_cases hij : i = j
    · subst hij
      rw [if_pos rfl, if_pos (by omega), hr]
    · have hne : hashRequest o.1 ≠ (j : ℤ) := by omega
      rw [if_neg hij, h.entry_eq j hj, entryOf_concat_of_ne hne]

theorem Whitelist.Holds.insertRequest_eq (h : wl.Holds ops) (hlen : o.1.length < maxLine)
    (hk : 0 ≤ hashRequest o.1) :
    insertRequest wl o.1 o.2 =
      match entryOf ops (hashRequest o.1) with
      | none =>
        if wl.count = wl.size then .ok wl
        else .ok { wl with
          requests := wl.requests.set (hashRequest o.1).toNat
            (some { key := o.1, method := o.1, servers := o.2, room := o.2.length + 1 })
          count := wl.count + 1 }
      | some cur =>
        if cur.key = o.1 then
          (strcpy cur.room o.2).map fun servers => { wl with
            requests := wl.requests.set (hashRequest o.1).toNat
              (some { cur with servers := servers }) }
        else .ok wl := by
  have hkey : strcpy maxLine o.1 = .ok o.1 := strcpy_eq_ok.mpr ⟨hlen, rfl⟩
  simp only [insertRequest, createRequest, hkey, bind, Except.bind, pure,
    Except.pure, h.at_eq hk]
  rcases entryOf ops (hashRequest o.1) with - | cur
  · rfl
  · simp only
    split_ifs with hcur
    · rcases strcpy cur.room o.2 with e | servers <;> rfl
    · rfl

/-- An admitted insert succeeds and extends the history. -/
theorem insertRequest_holds (h : wl.Holds ops) (ho : Admits ops o) :
    ∃ wl', insertRequest wl o.1 o.2 = .ok wl' ∧ wl'.Holds (ops ++ [o]) := by
  obtain ⟨hlen, hk, hfit⟩ := ho
  obtain ⟨i, hi⟩ := Int.eq_ofNat_of_zero_le hk
  have hlt : i < capacity := by
    have := hashRequest_lt o.1
    omega
  have hnat : (hashRequest o.1).toNat = i := by omega
  have hget : wl.requests[i]? = some (entryOf ops (hashRequest o.1)) := by
    rw [hi]; exact h.entry_eq i hlt
  rw [h.insertRequest_eq hlen hk, hnat]
  rcases e : owner hashRequest ops (hashRequest o.1) with - | p
  · -- the slot is free, hence the table is not full
    have hentry : entryOf ops (hashRequest o.1) = none := by simp [entryOf, e]
    have hcount := h.count_lt hlt (hi ▸ hentry)
    simp only [hentry, if_neg (Nat.ne_of_lt hcount)]
    refine ⟨_, rfl, h.set hi (hi ▸ entryOf_concat_free e) ?_⟩
    obtain ⟨hil, hgi⟩ := List.getElem?_eq_some_iff.mp (hentry ▸ hget)
    rw [List.countP_set hil, hgi, h.count_eq]
    simp
  · -- the slot is taken: by this very key, or by another one
    have hentry : entryOf ops (hashRequest o.1) = some
        { key := p.1, method := p.1, servers := (lastValue ops p.1).getD [],
          room := p.2.length + 1 } := by simp [entryOf, e]
    have hset := hi ▸ entryOf_concat_owned e
    obtain ⟨hil, hgi⟩ := List.getElem?_eq_some_iff.mp (hentry ▸ hget)
    simp only [hentry]
    by_cases hp : p.1 = o.1
    · have hroom : strcpy (p.2.length + 1) o.2 = .ok o.2 :=
        strcpy_eq_ok.mpr ⟨Nat.lt_succ_of_le (hfit p e hp), rfl⟩
      simp only [if_pos hp, hroom, Except.map] at hset ⊢
      refine ⟨_, rfl, h.set hi hset ?_⟩
      rw [List.countP_set hil, hgi, h.count_eq]
      simp only [Option.isSome_some, if_true]
      have hpos : 0 < wl.requests.countP Option.isSome :=
        List.countP_pos_iff.mpr ⟨_, List.getElem_mem hil, by rw [hgi]; rfl⟩
      omega
    · simp only [if_neg hp] at hset ⊢
      refine ⟨wl, rfl, ?_⟩
      -- a collision leaves the table as it is, and it already holds the longer history
      have hself : wl.requests.set i (wl.requests[i]) = wl.requests :=
        List.set_getElem_self hil
      rw [hgi] at hself
      have := h.set hi hset (c := wl.count) (by rw [hself]; exact h.count_eq)
      rw [hself] at this
      exact this

theorem admits_of_insertRequest {wl' : Whitelist} (h : wl.Holds ops)
    (hins : insertRequest wl o.1 o.2 = .ok wl') : Admits ops o := by
  have hlen : o.1.length < maxLine := by
    by_contra hlen
    simp [insertRequest, createRequest, strcpy, hlen, bind, Except.bind] at hins
  have hkey : strcpy maxLine o.1 = .ok o.1 := strcpy_eq_ok.mpr ⟨hlen, rfl⟩
  have hk : 0 ≤ hashRequest o.1 := by
    by_contra hk
    simp [insertRequest, createRequest, hkey, wl.at_neg (Int.not_le.mp hk), bind,
      Except.bind, pure, Except.pure] at hins
  refine ⟨hlen, hk, ?_⟩
  intro p hp hpo
  rw [h.insertRequest_eq hlen hk] at hins
  simp only [entryOf, hp, Option.map_some, if_pos hpo, strcpy] at hins
  by_contra hfit
  rw [if_neg (by omega)] at hins
  cases hins

/-! ### Whole runs -/

theorem insertAll_holds (h : insertAll (createWhitelist capacity) ops = .ok wl) :
    AllAdmitted ops ∧ wl.Holds ops := by
  refine foldlM_invariant (P := fun ops wl => AllAdmitted ops ∧ wl.Holds ops) ?_ ?_ h
  · refine ⟨fun pre o hp => ?_, createWhitelist_holds⟩
    simp at hp
  · rintro ops wl o wl' ⟨hall, hwl⟩ hins
    have ho := admits_of_insertRequest hwl hins
    obtain ⟨wl'', hins', hwl''⟩ := insertRequest_holds hwl ho
    obtain rfl : wl'' = wl' := by simpa [hins] using hins'.symm
    exact ⟨allAdmitted_concat.mpr ⟨hall, ho⟩, hwl''⟩

theorem insertAll_of_allAdmitted (h : AllAdmitted ops) :
    ∃ wl, insertAll (createWhitelist capacity) ops = .ok wl := by
  induction ops using List.reverseRecOn with
  | nil => exact ⟨_, rfl⟩
  | append_singleton ops o ih =>
    obtain ⟨hall, ho⟩ := allAdmitted_concat.mp h
    obtain ⟨wl, hrun⟩ := ih hall
    obtain ⟨wl', hins, -⟩ := insertRequest_holds (insertAll_holds hrun).2 ho
    exact ⟨wl', foldlM_concat_eq_ok.mpr ⟨wl, hrun, hins⟩⟩

theorem Whitelist.Holds.searchRequest_eq (h : wl.Holds ops) {k : CStr} (hk : 0 ≤ hashRequest k) :
    searchRequest wl k = .ok
      (if (owner hashRequest ops (hashRequest k)).map Prod.fst = some k
        then lastValue ops k else none) := by
  simp only [searchRequest, h.at_eq hk, bind, Except.bind, entryOf, pure, Except.pure]
  rcases e : owner hashRequest ops (hashRequest k) with - | p
  · simp
  · have hsome := lastValue_owner_isSome e
    by_cases hp : p.1 = k
    · subst hp
      obtain ⟨v, hv⟩ := Option.isSome_iff_exists.mp hsome
      simp [hv]
    · simp [hp]

theorem searchRequest_neg (wl : Whitelist) {k : CStr} (hk : hashRequest k < 0) :
    searchRequest wl k = .error .outOfBounds := by
  simp [searchRequest, wl.at_neg hk, bind, Except.bind]

theorem Whitelist.Holds.searchRequest_insert_of_ne {wl' : Whitelist} (h : wl.Holds ops)
    {k m v : CStr} (hk : 0 ≤ hashRequest k) (hne : m ≠ k) (hins : insertRequest wl m v = .ok wl') :
    searchRequest wl' k = searchRequest wl k := by
  obtain ⟨wl'', hins', hwl''⟩ :=
    insertRequest_holds h (admits_of_insertRequest (o := (m, v)) h hins)
  obtain rfl : wl'' = wl' := by simpa [hins] using hins'.symm
  rw [hwl''.searchRequest_eq hk, h.searchRequest_eq hk, lastValue_concat, if_neg hne,
    owner_concat]
  rcases owner hashRequest ops (hashRequest k) with - | p
  · by_cases hm : hashRequest m = hashRequest k <;> simp [hm, hne]
  · rfl

/-- The table behaves as a map at key `k` after the inserts `ops`: the run
meets no fault, a lookup of `k` gives the server string of its last insert
(NULL if it has none), and inserting any other key does not change that. -/
def MapAt (ops : List (CStr × CStr)) (k : CStr) : Prop :=
  ∃ wl, insertAll (createWhitelist capacity) ops = .ok wl ∧
    searchRequest wl k = .ok (lastValue ops k) ∧
    ∀ m v wl', m ≠ k → insertRequest wl m v = .ok wl' →
      searchRequest wl' k = searchRequest wl k

/-- **The table is a map where no other key came first.**  After any run of
inserts from the empty table it behaves as a map at `k` exactly when

* no insert of the run meets a fault (`AllAdmitted`),
* the slot number of `k` is not negative, and
* if `k` was inserted, the first key that the run put into its slot is `k`. -/
theorem mapAt_iff (ops : List (CStr × CStr)) (k : CStr) :
    MapAt ops k ↔ AllAdmitted ops ∧ 0 ≤ hashRequest k ∧
      (k ∈ ops.map Prod.fst →
        (owner hashRequest ops (hashRequest k)).map Prod.fst = some k) := by
  constructor
  · rintro ⟨wl, hrun, hsearch, -⟩
    obtain ⟨hall, hwl⟩ := insertAll_holds hrun
    have hk : 0 ≤ hashRequest k := by
      by_contra hk
      rw [searchRequest_neg wl (by omega)] at hsearch
      cases hsearch
    refine ⟨hall, hk, fun hmem => ?_⟩
    rw [hwl.searchRequest_eq hk] at hsearch
    by_contra hown
    rw [if_neg hown] at hsearch
    have hnone : lastValue ops k = none := by simpa using hsearch.symm
    exact lastValue_eq_none_iff.mp hnone hmem
  · rintro ⟨hall, hk, hown⟩
    obtain ⟨wl, hrun⟩ := insertAll_of_allAdmitted hall
    have hwl := (insertAll_holds hrun).2
    refine ⟨wl, hrun, ?_, fun m v wl' => hwl.searchRequest_insert_of_ne hk⟩
    rw [hwl.searchRequest_eq hk]
    by_cases hmem : k ∈ ops.map Prod.fst
    · rw [if_pos (hown hmem)]
    · rw [lastValue_eq_none_iff.mpr hmem, ite_self]

/-- Two anagrams fall into one slot, and the second one is lost. -/
theorem not_mapAt_anagram :
    ¬ MapAt [(bytes "GET", bytes "1"), (bytes "TEG", bytes "2")] (bytes "TEG") := by
  rintro ⟨wl, hrun, hsearch, -⟩
  have hlost : (insertAll (createWhitelist capacity)
      [(bytes "GET", bytes "1"), (bytes "TEG", bytes "2")]
      >>= fun wl => searchRequest wl (bytes "TEG")) = .ok none := by decide
  rw [hrun] at hlost
  have hlost' : searchRequest wl (bytes "TEG") = .ok none := hlost
  rw [hlost'] at hsearch
  exact absurd hsearch (by decide)

end SmartHAProxy
