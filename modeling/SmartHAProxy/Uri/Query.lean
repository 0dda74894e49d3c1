/-
Sorting the arguments of a query by their names (src/uri_normalizer.c).

The arguments are cut at the delimiters and sorted with a comparison that falls back to
their addresses.  The names are compared like `memcmp` does, with shorter names first,
which is the lexicographic order of their bytes, so that the result is sorted by name and
stable (`querySort_sorted`).

An array of arguments is kept in a trash chunk: a query with more arguments is refused.
The names are shorter than 2^31 bytes, as all buffers are, so that their lengths fit in
an `int`.
-/
import SmartHAProxy.Lib.KeySort
import SmartHAProxy.Uri.Percent
import Mathlib.Data.List.Lex

namespace SmartHAProxy

variable {args : List (List UInt8)} {out : List UInt8}

open scoped List

/-! ### The normalizer -/

/-- An argument, with its address relative to the query. -/
structure QueryParam where
  ptr : ℕ
  bytes : List UInt8
  deriving DecidableEq

/-- `iststop` at a character. -/
def iststop (l : List UInt8) (chr : UInt8) : List UInt8 := l.takeWhile (· != chr)

def istdiff : List UInt8 → List UInt8 → ℤ
  | [], r => -(r.length : ℤ)
  | _ :: _, [] => 1
  | a :: l, b :: r => if a = b then istdiff l r else (a.toNat : ℤ) - b.toNat

/-- `query_param_cmp`; 61 is the equal sign. -/
def queryParamCmp (a b : QueryParam) : ℤ :=
  let cmp := istdiff (iststop a.bytes 61) (iststop b.bytes 61)
  if cmp ≠ 0 then cmp
  else if a.ptr < b.ptr then -1
  else if a.ptr > b.ptr then 1
  else 0

/-- `qsort`, which no two arguments compare equal for. -/
def qsort {α : Type} (cmp : α → α → ℤ) (l : List α) : List α :=
  l.mergeSort fun a b => decide (cmp a b ≤ 0)

/-- The arguments that `istsplit` cuts off, one after the other. -/
def splitParams (delim : UInt8) (ptr : ℕ) (scanner : List UInt8) : List QueryParam :=
  match scanner with
  | [] => []
  | c :: rest =>
    let param := iststop (c :: rest) delim
    ⟨ptr, param⟩ :: splitParams delim (ptr + (param.length + 1))
      ((c :: rest).drop (param.length + 1))
termination_by scanner.length
decreasing_by
  simp only [List.length_drop, List.length_cons]
  omega

/-- `__istappend` to an output that starts at the destination of `size` bytes. -/
def istappend (size : ℕ) (dst : List UInt8) (src : UInt8) : Except Fault (List UInt8) :=
  if dst.length < size then .ok (dst ++ [src]) else .error .outOfBounds

/-- `istcat`: nothing is returned when the destination is too small. -/
def tryIstcat (size : ℕ) (dst src : List UInt8) : Option (List UInt8) :=
  if dst.length + src.length ≤ size then some (dst ++ src) else none

/-- The loop of `uri_normalizer_query_sort` that writes the arguments, from the one of number `i`
on. -/
def catParams (delim : UInt8) (size : ℕ) : ℕ → List QueryParam → List UInt8 →
    Except Fault (Except UriNormalizerErr (List UInt8))
  | _, [], newquery => .ok (.ok newquery)
  | i, param :: params, newquery => do
    let newquery ← if i > 0 then istappend size newquery delim else pure newquery
    (tryIstcat size newquery param.bytes).elim (pure (.error .internalError))
      (catParams delim size (i + 1) params)

/-- `uri_normalizer_query_sort` into a destination of `size` bytes, with a trash chunk of
`trashSize` bytes; an argument takes 16 of them. -/
def uriNormalizerQuerySort (trashSize : ℕ) (query : List UInt8) (delim : UInt8) (size : ℕ) :
    Except Fault (Except UriNormalizerErr (List UInt8)) :=
  if size < query.length then .ok (.error .alloc)
  else do
    -- handle the leading '?'; there is a zero if the query is empty
    let newquery ← istappend size [] (query.headD 0)
    let params := splitParams delim 1 query.tail
    if trashSize / 16 < params.length then pure (.error .alloc)
    else catParams delim size 0 (qsort queryParamCmp params) newquery

/-! ### What it is for -/

/-- The arguments of a query: what is between the delimiters behind the question mark. -/
def queryArgs (delim : UInt8) (query : List UInt8) : List (List UInt8) :=
  if query.tail = [] then [] else query.tail.splitOn delim

def argName (arg : List UInt8) : List ℕ := (iststop arg 61).map UInt8.toNat

/-- The arguments of the query, each as often as there, sorted by name; those with one name stand
in the order of the query. -/
structure SortedArgs (delim : UInt8) (query : List UInt8) (args : List (List UInt8)) : Prop where
  perm : args ~ queryArgs delim query
  sorted : args.Pairwise fun a b => argName a ≤ argName b
  stable : ∀ name,
    args.filter (argName · = name) = (queryArgs delim query).filter (argName · = name)

/-- The output is the query with its arguments sorted, and stays as it is when it is sorted. -/
def QuerySorted (trashSize : ℕ) (query : List UInt8) (delim : UInt8) (size : ℕ) : Prop :=
  ∃ output args, uriNormalizerQuerySort trashSize query delim size = .ok (.ok output) ∧
    output = 63 :: [delim].intercalate args ∧ SortedArgs delim query args ∧
    ∀ size', output.length ≤ size' →
      uriNormalizerQuerySort trashSize output delim size' = .ok (.ok output)

/-! ### The comparison -/

theorem toNat_map_inj {l r : List UInt8} : l.map UInt8.toNat = r.map UInt8.toNat ↔ l = r :=
  List.map_inj_right fun _ _ => UInt8.toNat_inj.1

theorem istdiff_spec (l r : List UInt8) :
    (istdiff l r < 0 ↔ l.map UInt8.toNat < r.map UInt8.toNat) ∧ (istdiff l r = 0 ↔ l = r) := by
  induction l generalizing r with
  | nil =>
    cases r with
    | nil => simp [istdiff]
    | cons b r =>
      have hpos : istdiff [] (b :: r) < 0 := by
        simp only [istdiff, List.length_cons]
        omega
      exact ⟨iff_of_true hpos (List.nil_lt_cons _ _),
        iff_of_false hpos.ne (List.cons_ne_nil _ _).symm⟩
  | cons a l ih =>
    cases r with
    | nil => simp [istdiff]
    | cons b r =>
      rw [istdiff, List.map_cons, List.map_cons, List.cons_lt_cons_iff, List.cons.injEq]
      by_cases hab : a = b
      · subst hab
        simpa using ih r
      · have hne : a.toNat ≠ b.toNat := fun h => hab (UInt8.toNat_inj.1 h)
        rw [if_neg hab]
        constructor
        · constructor
          · intro h
            left
            omega
          · rintro (h | ⟨h, -⟩)
            · omega
            · exact absurd h hne
        · exact iff_of_false (by omega) fun h => hab h.1

theorem queryParamCmp_le_iff (a b : QueryParam) : decide (queryParamCmp a b ≤ 0) = true ↔
    KeyLe (fun p : QueryParam => argName p.bytes) QueryParam.ptr a b := by
  obtain ⟨hneg, hzero⟩ := istdiff_spec (iststop a.bytes 61) (iststop b.bytes 61)
  rw [decide_eq_true_eq, KeyLe, argName, argName, toNat_map_inj, ← hneg, ← hzero, queryParamCmp]
  split_ifs with hdiff hlt hgt <;> omega

/-! ### The arguments -/

section Args

variable {delim : UInt8}

theorem iststop_cases (delim : UInt8) (l : List UInt8) :
    delim ∉ iststop l delim ∧
      (l = iststop l delim ∨ ∃ rest, l = iststop l delim ++ delim :: rest) := by
  constructor
  · intro h
    simpa using List.all_eq_true.1 (List.all_takeWhile (p := (· != delim)) (l := l)) delim h
  · have hsplit := List.takeWhile_append_dropWhile (p := (· != delim)) (l := l)
    change iststop l delim ++ _ = l at hsplit
    rcases hrest : l.dropWhile (· != delim) with - | ⟨c, rest⟩
    · left
      rw [hrest, List.append_nil] at hsplit
      exact hsplit.symm
    · right
      have hc := List.head_dropWhile_not (· != delim) (hrest ▸ List.cons_ne_nil c rest)
      simp only [hrest, List.head_cons, bne_eq_false_iff_eq] at hc
      refine ⟨rest, ?_⟩
      rw [hrest, hc] at hsplit
      exact hsplit.symm

theorem splitParams_bytes (ptr : ℕ) (l : List UInt8) (hlast : l.getLast? ≠ some delim) :
    (splitParams delim ptr l).map QueryParam.bytes = if l = [] then [] else l.splitOn delim := by
  induction ptr, l using splitParams.induct delim with
  | case1 ptr => rw [splitParams]; rfl
  | case2 ptr c rest param ih =>
    rw [splitParams, if_neg (List.cons_ne_nil _ _), List.map_cons]
    change param :: _ = _
    obtain ⟨hparam, hall | ⟨rest', hrest⟩⟩ := iststop_cases delim (c :: rest)
    · -- the last argument
      have hdrop : (c :: rest).drop (param.length + 1) = [] :=
        List.drop_eq_nil_of_le (by rw [hall]; exact Nat.le_succ _)
      change delim ∉ param at hparam
      change c :: rest = param at hall
      rw [hdrop, splitParams, hall, List.splitOn_eq_singleton hparam]
      rfl
    · change c :: rest = param ++ delim :: rest' at hrest
      have hdrop : (c :: rest).drop (param.length + 1) = rest' := by
        rw [hrest]
        simp
      have hne : rest' ≠ [] := by
        rintro rfl
        exact hlast (by rw [hrest, List.getLast?_concat])
      rw [hdrop] at ih ⊢
      rw [ih ?_, if_neg hne, hrest, List.splitOn_append_cons_self_of_not_mem hparam]
      rw [hrest, List.getLast?_append_cons, List.getLast?_cons_of_ne_nil hne] at hlast
      exact hlast

theorem splitParams_ptr (ptr : ℕ) (l : List UInt8) :
    (∀ p ∈ splitParams delim ptr l, ptr ≤ p.ptr) ∧
      (splitParams delim ptr l).Pairwise fun a b => a.ptr < b.ptr := by
  induction ptr, l using splitParams.induct delim with
  | case1 ptr =>
    rw [splitParams]
    exact ⟨by simp, .nil⟩
  | case2 ptr c rest param ih =>
    rw [splitParams]
    constructor
    · intro p hp
      rcases List.mem_cons.1 hp with rfl | hp
      · exact Nat.le_refl ptr
      · exact Nat.le_trans (Nat.le_add_right _ _) (ih.1 p hp)
    · refine List.pairwise_cons.2 ⟨fun p hp => ?_, ih.2⟩
      exact Nat.lt_of_lt_of_le (Nat.lt_add_of_pos_right (Nat.succ_pos _)) (ih.1 p hp)

theorem intercalate_cons_flatMap (arg : List UInt8) (args : List (List UInt8)) :
    [delim].intercalate (arg :: args) = arg ++ args.flatMap (delim :: ·) := by
  induction args generalizing arg with
  | nil => simp
  | cons arg' args ih =>
    rw [List.intercalate_cons_cons, ih]
    simp

theorem intercalate_concat (hne : args ≠ []) (arg : List UInt8) :
    [delim].intercalate (args ++ [arg]) = [delim].intercalate args ++ delim :: arg := by
  obtain ⟨first, args, rfl⟩ := List.exists_cons_of_ne_nil hne
  rw [List.cons_append, intercalate_cons_flatMap, intercalate_cons_flatMap]
  simp

theorem getLast?_intercalate {arg : List UInt8} (hargs : ∀ a ∈ args ++ [arg], delim ∉ a) :
    ([delim].intercalate (args ++ [arg])).getLast? = some delim ↔ arg = [] ∧ args ≠ [] := by
  have harg : arg.getLast? ≠ some delim :=
    fun h => hargs arg (List.mem_append_right _ List.mem_cons_self) (List.mem_of_getLast? h)
  rcases eq_or_ne args [] with rfl | hne
  · rw [List.nil_append, List.intercalate_singleton]
    exact iff_of_false harg fun h => h.2 rfl
  · rw [intercalate_concat hne, List.getLast?_append_cons]
    rcases eq_or_ne arg [] with rfl | hnil
    · exact iff_of_true rfl ⟨rfl, hne⟩
    · rw [List.getLast?_cons_of_ne_nil hnil]
      exact iff_of_false harg fun h => hnil h.1

theorem length_intercalate_perm {args' : List (List UInt8)} (h : args ~ args') :
    ([delim].intercalate args).length = ([delim].intercalate args').length := by
  have hlen : ∀ l : List (List UInt8), l ≠ [] →
      ([delim].intercalate l).length + 1 = (l.flatMap (delim :: ·)).length := by
    intro l hl
    obtain ⟨arg, l, rfl⟩ := List.exists_cons_of_ne_nil hl
    rw [intercalate_cons_flatMap]
    simp only [List.flatMap_cons, List.length_append, List.length_cons]
    omega
  rcases eq_or_ne args [] with rfl | hne
  · rw [List.nil_perm.1 h]
  · have hne' : args' ≠ [] := fun h' => hne (List.perm_nil.1 (h' ▸ h))
    have hperm := (h.flatMap_right (delim :: ·)).length_eq
    rw [← hlen args hne, ← hlen args' hne'] at hperm
    exact Nat.succ.inj hperm

end Args

/-! ### The output -/

section Output

variable {delim : UInt8} {size trashSize : ℕ} {query : List UInt8}

theorem elim_tryIstcat {α : Type} {src : List UInt8} {none : α} {some : List UInt8 → α}
    (hroom : out.length + src.length ≤ size) :
    (tryIstcat size out src).elim none some = some (out ++ src) := by
  rw [tryIstcat, if_pos hroom]
  rfl

theorem catParams_succ (i : ℕ) (params : List QueryParam)
    (hroom : (out ++ (params.map QueryParam.bytes).flatMap (delim :: ·)).length ≤ size) :
    catParams delim size (i + 1) params out =
      .ok (.ok (out ++ (params.map QueryParam.bytes).flatMap (delim :: ·))) := by
  induction params generalizing i out with
  | nil =>
    rw [catParams, List.map_nil, List.flatMap_nil, List.append_nil]
  | cons param params ih =>
    simp only [List.map_cons, List.flatMap_cons] at hroom ⊢
    have hlen : out.length + 1 + param.bytes.length ≤ size := by
      simp only [List.length_append, List.length_cons] at hroom
      omega
    have hout : out ++ (delim :: param.bytes ++ (params.map QueryParam.bytes).flatMap (delim :: ·))
        = (out ++ [delim] ++ param.bytes) ++
          (params.map QueryParam.bytes).flatMap (delim :: ·) := by
      simp
    rw [catParams, if_pos (Nat.succ_pos i), istappend, if_pos (by omega)]
    show (tryIstcat size (out ++ [delim]) param.bytes).elim _ _ = _
    rw [elim_tryIstcat (by simpa using hlen)]
    rw [hout] at hroom ⊢
    exact ih (i + 1) hroom

theorem catParams_zero (params : List QueryParam)
    (hroom : (out ++ [delim].intercalate (params.map QueryParam.bytes)).length ≤ size) :
    catParams delim size 0 params out =
      .ok (.ok (out ++ [delim].intercalate (params.map QueryParam.bytes))) := by
  cases params with
  | nil =>
    rw [catParams, List.map_nil, List.intercalate_nil, List.append_nil]
  | cons param params =>
    rw [List.map_cons, intercalate_cons_flatMap, ← List.append_assoc] at hroom ⊢
    rw [catParams, if_neg (lt_irrefl 0)]
    show (tryIstcat size out param.bytes).elim _ _ = _
    have hfirst : out.length + param.bytes.length ≤ size := by
      simp only [List.length_append] at hroom
      omega
    rw [elim_tryIstcat hfirst]
    exact catParams_succ 0 params hroom

/-- **What the normalizer does** with a query that does not end in a delimiter. -/
theorem uriNormalizerQuerySort_eq (trashSize : ℕ) (hsize : query.length ≤ size)
    (hhead : query.head? = some 63)
    (hlast : query.tail.getLast? ≠ some delim) :
    uriNormalizerQuerySort trashSize query delim size =
      if trashSize / 16 < (queryArgs delim query).length then .ok (.error .alloc)
      else .ok (.ok (63 :: [delim].intercalate
        ((qsort queryParamCmp (splitParams delim 1 query.tail)).map QueryParam.bytes))) := by
  obtain ⟨l, rfl⟩ : ∃ l, query = 63 :: l := ⟨query.tail, List.eq_cons_of_mem_head? hhead⟩
  have hargs : (splitParams delim 1 l).map QueryParam.bytes = queryArgs delim (63 :: l) :=
    splitParams_bytes 1 l hlast
  have hcount : (splitParams delim 1 l).length = (queryArgs delim (63 :: l)).length := by
    rw [← hargs, List.length_map]
  have hperm : (qsort queryParamCmp (splitParams delim 1 l)).map QueryParam.bytes ~
      queryArgs delim (63 :: l) := hargs ▸ (List.mergeSort_perm _ _).map _
  -- the sorted arguments need the room that they took in the query
  have hroom : ([delim].intercalate
      ((qsort queryParamCmp (splitParams delim 1 l)).map QueryParam.bytes)).length + 1 ≤ size := by
    rw [length_intercalate_perm hperm, queryArgs]
    refine Nat.le_trans (Nat.succ_le_succ ?_) hsize
    split_ifs with hnil
    · exact Nat.zero_le _
    · exact (congrArg List.length (List.intercalate_splitOn delim)).le
  have hfirst : ([] : List UInt8).length < size := Nat.lt_of_lt_of_le (Nat.succ_pos _) hsize
  rw [uriNormalizerQuerySort, if_neg (Nat.not_lt.2 hsize), istappend, if_pos hfirst]
  show (if trashSize / 16 < (splitParams delim 1 l).length then _ else _) = _
  rw [hcount]
  by_cases hmany : trashSize / 16 < (queryArgs delim (63 :: l)).length
  · rw [if_pos hmany, if_pos hmany]
    rfl
  · rw [if_neg hmany, if_neg hmany]
    exact catParams_zero _ (by simpa [Nat.add_comm] using hroom)

theorem not_mem_of_mem_splitOn {l part : List UInt8} (h : part ∈ l.splitOn delim) :
    delim ∉ part := by
  induction l generalizing part with
  | nil =>
    rw [List.splitOn_nil, List.mem_singleton] at h
    exact h ▸ List.not_mem_nil
  | cons c l ih =>
    obtain ⟨first, parts, hparts⟩ := List.exists_cons_of_ne_nil (List.splitOn_ne_nil delim l)
    rw [List.splitOn_cons_eq_if_modifyHead] at h
    rw [hparts] at h ih
    by_cases hc : (c == delim) = true
    · rw [if_pos hc] at h
      rcases List.mem_cons.1 h with rfl | h
      · exact List.not_mem_nil
      · exact ih h
    · rw [if_neg hc, List.modifyHead_cons] at h
      rcases List.mem_cons.1 h with rfl | h
      · rw [List.mem_cons, not_or]
        exact ⟨fun heq => hc (beq_iff_eq.2 heq.symm), ih List.mem_cons_self⟩
      · exact ih (List.mem_cons_of_mem _ h)

theorem not_mem_queryArgs {arg : List UInt8} (h : arg ∈ queryArgs delim query) : delim ∉ arg := by
  rw [queryArgs] at h
  split_ifs at h
  · exact absurd h List.not_mem_nil
  · exact not_mem_of_mem_splitOn h

/-- **The arguments of the result** are those of the query, sorted. -/
theorem sortedArgs_qsort (hlast : query.tail.getLast? ≠ some delim) :
    SortedArgs delim query
      ((qsort queryParamCmp (splitParams delim 1 query.tail)).map QueryParam.bytes) := by
  have hargs : (splitParams delim 1 query.tail).map QueryParam.bytes = queryArgs delim query :=
    splitParams_bytes 1 query.tail hlast
  have hperm := List.mergeSort_perm (splitParams delim 1 query.tail)
    fun a b => decide (queryParamCmp a b ≤ 0)
  have hsorted := pairwise_keySort queryParamCmp_le_iff (splitParams delim 1 query.tail)
  refine ⟨hargs ▸ hperm.map _, List.pairwise_map.2 (hsorted.imp KeyLe.key_le), fun name => ?_⟩
  rw [← hargs, List.filter_map, List.filter_map]
  refine congrArg _ (filter_keySort hperm hsorted (splitParams_ptr 1 query.tail).2 ?_)
  intro a b ha hb
  exact (of_decide_eq_true ha).trans (of_decide_eq_true hb).symm

theorem SortedArgs.tail_getLast? (h : SortedArgs delim query args)
    (hlast : query.tail.getLast? ≠ some delim) :
    ([delim].intercalate args).getLast? ≠ some delim := by
  have hmem : ∀ arg ∈ args, delim ∉ arg := fun arg harg =>
    not_mem_queryArgs (h.perm.subset harg)
  rcases List.eq_nil_or_concat args with rfl | ⟨first, last, rfl⟩
  · simp
  rw [List.concat_eq_append] at *
  intro hend
  obtain ⟨rfl, hfirst⟩ := (getLast?_intercalate hmem).1 hend
  -- the last name is the greatest, so that all names are empty, and nothing has moved
  have hnames : ∀ arg ∈ first ++ [[]], argName arg = [] := by
    intro arg harg
    rcases List.mem_append.1 harg with harg | harg
    · have hle := (List.pairwise_append.1 h.sorted).2.2 arg harg [] List.mem_cons_self
      rcases hle.lt_or_eq with hlt | heq
      · exact absurd hlt (List.not_lt_nil _)
      · exact heq
    · rw [List.mem_singleton.1 harg]
      rfl
  have hall := h.stable []
  rw [List.filter_eq_self.2 fun arg harg => decide_eq_true (hnames arg harg),
    List.filter_eq_self.2 fun arg harg =>
      decide_eq_true (hnames arg (h.perm.symm.subset harg))] at hall
  have htail : query.tail ≠ [] := by
    intro hnil
    rw [queryArgs, if_pos hnil] at hall
    exact List.append_ne_nil_of_right_ne_nil _ (List.cons_ne_nil _ _) hall
  rw [queryArgs, if_neg htail] at hall
  rw [hall, List.intercalate_splitOn] at hend
  exact hlast hend

theorem SortedArgs.queryArgs_eq (h : SortedArgs delim query args) :
    queryArgs delim (63 :: [delim].intercalate args) = args := by
  have hmem : ∀ arg ∈ args, delim ∉ arg := fun arg harg =>
    not_mem_queryArgs (h.perm.subset harg)
  rw [queryArgs, List.tail_cons]
  rcases eq_or_ne args [] with rfl | hne
  · rfl
  by_cases hnil : [delim].intercalate args = []
  · -- a single empty argument would come from an empty query, which has none
    obtain ⟨arg, rest, rfl⟩ := List.exists_cons_of_ne_nil hne
    rw [intercalate_cons_flatMap, List.append_eq_nil_iff] at hnil
    obtain ⟨rfl, hrest⟩ := hnil
    obtain rfl : rest = [] := by
      cases rest with
      | nil => rfl
      | cons a rest => cases hrest
    have hquery := List.perm_singleton.1 h.perm.symm
    rw [queryArgs] at hquery
    split_ifs at hquery with htail
    · have := congrArg [delim].intercalate hquery
      rw [List.intercalate_splitOn] at this
      exact absurd this htail
  · rw [if_neg hnil, List.splitOn_intercalate delim hmem hne]

/-- **Sorting the arguments of a query**: when the query starts with its question mark, does not
end in a delimiter and fits in the destination, it is refused for more arguments than the trash
chunk holds, and has its arguments sorted otherwise. -/
theorem querySort_sorted (trashSize : ℕ) (hhead : query.head? = some 63)
    (hsize : query.length ≤ size)
    (hlast : query.tail.getLast? ≠ some delim) :
    if trashSize / 16 < (queryArgs delim query).length then
      uriNormalizerQuerySort trashSize query delim size = .ok (.error .alloc)
    else QuerySorted trashSize query delim size := by
  have hrun := uriNormalizerQuerySort_eq trashSize hsize hhead hlast
  by_cases hmany : trashSize / 16 < (queryArgs delim query).length
  · rw [if_pos hmany] at hrun ⊢
    exact hrun
  rw [if_neg hmany] at hrun ⊢
  have hargs := sortedArgs_qsort hlast
  refine ⟨_, _, hrun, rfl, hargs, fun size' hsize' => ?_⟩
  generalize (qsort queryParamCmp (splitParams delim 1 query.tail)).map QueryParam.bytes = args
    at hargs hsize'
  have hlast' := hargs.tail_getLast? hlast
  rw [uriNormalizerQuerySort_eq trashSize hsize' rfl hlast', hargs.queryArgs_eq,
    hargs.perm.length_eq, if_neg hmany]
  -- the arguments are in order already
  have hbytes : (splitParams delim 1 ([delim].intercalate args)).map QueryParam.bytes = args :=
    (splitParams_bytes 1 _ hlast').trans hargs.queryArgs_eq
  have hkeys : ((splitParams delim 1 ([delim].intercalate args)).map QueryParam.bytes).Pairwise
      fun a b => argName a ≤ argName b := by
    rw [hbytes]
    exact hargs.sorted
  have hsorted : (splitParams delim 1 ([delim].intercalate args)).Pairwise fun a b =>
      argName a.bytes ≤ argName b.bytes :=
    (List.pairwise_map (R := fun a b => argName a ≤ argName b)).1 hkeys
  rw [List.tail_cons, qsort,
    keySort_eq_self queryParamCmp_le_iff hsorted (splitParams_ptr 1 _).2, hbytes]

/-- "?c&a", with the usual size of a buffer. -/
theorem querySort_sorted_c : QuerySorted 16384 [63, 99, 38, 97] 38 4 := by
  have h : if 16384 / 16 < (queryArgs 38 [63, 99, 38, 97]).length then _
      else QuerySorted 16384 [63, 99, 38, 97] 38 4 :=
    querySort_sorted 16384 rfl (by decide) (by decide)
  rwa [if_neg (by decide)] at h

theorem length_splitOn (delim : UInt8) (l : List UInt8) :
    (l.splitOn delim).length = l.count delim + 1 := by
  induction l with
  | nil => rfl
  | cons c l ih =>
    rw [List.splitOn_cons_eq_if_modifyHead, List.count_cons]
    split_ifs
    · rw [List.length_cons, ih]
    · rw [List.length_modifyHead, ih]

theorem length_queryArgs_replicate (n : ℕ) :
    (queryArgs 38 (63 :: (List.replicate n 38 ++ [97]))).length = n + 1 := by
  rw [queryArgs, if_neg (by simp), length_splitOn]
  simp

theorem not_querySorted_of_lt {n : ℕ} (hn : trashSize / 16 < n + 1) :
    ¬ QuerySorted trashSize (63 :: (List.replicate n 38 ++ [97])) 38 (n + 2) := by
  rintro ⟨output, args, hrun, -⟩
  have hsize : (63 :: (List.replicate n 38 ++ [97]) : List UInt8).length ≤ n + 2 := by simp
  have hlast : (63 :: (List.replicate n 38 ++ [97]) : List UInt8).tail.getLast? ≠ some 38 := by
    simp
  rw [uriNormalizerQuerySort_eq trashSize hsize rfl hlast, length_queryArgs_replicate,
    if_pos hn] at hrun
  cases hrun

/-- A query of 1025 arguments, of which the last one is "a". -/
theorem querySort_refused :
    ¬ QuerySorted 16384 (63 :: (List.replicate 1024 38 ++ [97])) 38 1026 :=
  not_querySorted_of_lt (by decide)

end Output

end SmartHAProxy
