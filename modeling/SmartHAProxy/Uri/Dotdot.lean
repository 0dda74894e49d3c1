/-
Merging the `..` segments of a path with the segments before them (src/uri_normalizer.c).

The path is read from its end, and the result is written from the end of the
destination: a `..` is counted, and a segment in front of it uses one of them.  That is
how a list of segments leaves what a stack leaves (`trail_eq`), so the result is the
path of the segments that are left (`mergedPath`).

A `..` at the end of the path stands for `../`, so a path of such segments only grows
by one byte, when they are kept.  The size is checked for the length of the path: the
byte in front of a destination of this size is overwritten (`dotdot_exact_iff`).
-/
import SmartHAProxy.Lib.Trail
import SmartHAProxy.Uri.Percent
import SmartHAProxy.Http.Normalize

namespace SmartHAProxy

open scoped List

/-! ### The normalizer -/

/-- `*(--head) = c`, where the output is what lies from `head` up to the end of the destination. -/
def prependChar (size : ℕ) (output : List UInt8) (c : UInt8) : Except Fault (List UInt8) :=
  if output.length < size then .ok (c :: output) else .error .outOfBounds

/-- The characters of `l`, each in front of those before it. -/
def prependChars (size : ℕ) (l output : List UInt8) : Except Fault (List UInt8) :=
  l.foldlM (prependChar size) output

/-- The loop of `uri_normalizer_path_dotdot`.  The part of the path up to `offset` is held from
its end, so that the characters in front of it come next; "/../" is the same from both ends.
The result are the `..` that are left, and the output. -/
def dotdotLoop (size : ℕ) (rest : List UInt8) (up : ℕ) (output : List UInt8) :
    Except Fault (ℕ × List UInt8) :=
  match rest with
  | [] => .ok (up, output)
  | c :: scanned =>
    if [47, 46, 46, 47] <+: c :: scanned then
      dotdotLoop size ((c :: scanned).drop 3) (up + 1) output
    else if 0 < up then
      -- skip the slash, and the segment unless the start of the path is reached
      dotdotLoop size (scanned.dropWhile (· != 47)) (if scanned = [] then up else up - 1) output
    else do
      -- prepend the slash, and the segment
      let output₁ ← prependChar size output c
      let output₂ ← prependChars size (scanned.takeWhile (· != 47)) output₁
      dotdotLoop size (scanned.dropWhile (· != 47)) up output₂
termination_by rest.length
decreasing_by
  · simp only [List.length_drop, List.length_cons]
    omega
  · exact Nat.lt_succ_of_le (List.dropWhile_sublist _).length_le
  · exact Nat.lt_succ_of_le (List.dropWhile_sublist _).length_le

/-- The start of `uri_normalizer_path_dotdot` and its loop: "/.." at the end of the path does not
need a trailing slash. -/
def dotdotScan (size : ℕ) (path : List UInt8) : Except Fault (ℕ × List UInt8) :=
  let rest := path.reverse
  if [46, 46, 47] <+: rest then dotdotLoop size (rest.drop 2) 1 [] else dotdotLoop size rest 0 []

/-- The end of `uri_normalizer_path_dotdot`: a slash, and the `..` that are left in front of it. -/
def prependDots (size : ℕ) (full : Bool) (up : ℕ) (output : List UInt8) :
    Except Fault (List UInt8) :=
  if 0 < up then do
    let output₁ ← prependChar size output 47
    prependChars size (if full then [] else (List.replicate up [46, 46, 47]).flatten) output₁
  else .ok output

/-- `uri_normalizer_path_dotdot` into a destination of `size` bytes. -/
def uriNormalizerPathDotdot (path : List UInt8) (full : Bool) (size : ℕ) :
    Except Fault (Except UriNormalizerErr (List UInt8)) :=
  if size < path.length then .ok (.error .alloc)
  else do
    let (up, output) ← dotdotScan size path
    let newpath ← prependDots size full up output
    pure (.ok newpath)

/-! ### What it is for -/

/-- A segment `..`. -/
def isDotdot (seg : List UInt8) : Bool := seg == [46, 46]

/-- A `..` at the end stands in a directory. -/
def closeDots (segs : List (List UInt8)) : List (List UInt8) :=
  if segs.getLast? = some [46, 46] then segs ++ [[]] else segs

/-- The segments left when each `..` drops the one before it; those that find none are kept at
the front, unless `full`. -/
def mergedSegments (full : Bool) (segs : List (List UInt8)) : List (List UInt8) :=
  let s := trail isDotdot (closeDots segs)
  (if full then [] else List.replicate s.ups [46, 46]) ++ s.stack.reverse

/-- The path of the segments that are left; the first segment of a path is the one in front of
its first slash. -/
def mergedPath (path : List UInt8) (full : Bool) : List UInt8 :=
  [47].intercalate ([] :: mergedSegments full (path.splitOn 47).tail)

/-- A path of `..` only. -/
def OnlyDots (path : List UInt8) : Prop :=
  ∃ n, path = (List.replicate (n + 1) [47, 46, 46]).flatten

/-- No byte outside of the destination is written; the output, if any, is the path of the
segments that are left, and stays as it is when it is normalized again. -/
def DotdotExact (path : List UInt8) (full : Bool) (size : ℕ) : Prop :=
  ∃ res, uriNormalizerPathDotdot path full size = .ok res ∧ ∀ output, res = .ok output →
    output = mergedPath path full ∧ ∀ size', output.length ≤ size' →
      uriNormalizerPathDotdot output full size' = .ok (.ok output)

/-! ### Directories and the file in the last of them -/

/-- Directories, each with the slash behind it. -/
def dirBytes (dirs : List (List UInt8)) : List UInt8 := dirs.flatMap (· ++ [47])

@[simp] theorem dirBytes_nil : dirBytes [] = [] := rfl

@[simp] theorem dirBytes_cons (d : List UInt8) (dirs : List (List UInt8)) :
    dirBytes (d :: dirs) = d ++ 47 :: dirBytes dirs := by
  simp [dirBytes]

theorem dirBytes_append (dirs dirs' : List (List UInt8)) :
    dirBytes (dirs ++ dirs') = dirBytes dirs ++ dirBytes dirs' := List.flatMap_append

def NoSlash (segs : List (List UInt8)) : Prop := ∀ seg ∈ segs, (47 : UInt8) ∉ seg

theorem intercalate_dirs (dirs : List (List UInt8)) (last : List UInt8) :
    [47].intercalate ([] :: (dirs ++ [last])) = 47 :: (dirBytes dirs ++ last) := by
  suffices h : [47].intercalate (dirs ++ [last]) = dirBytes dirs ++ last by
    rw [List.intercalate_cons_of_ne_nil (by simp), h]
    rfl
  induction dirs with
  | nil => simp
  | cons d dirs ih =>
    rw [List.cons_append, List.intercalate_cons_of_ne_nil (by simp), ih]
    simp

theorem splitOn_dirs {dirs : List (List UInt8)} {last : List UInt8} (hdirs : NoSlash dirs)
    (hlast : 47 ∉ last) :
    ((47 :: (dirBytes dirs ++ last)).splitOn 47).tail = dirs ++ [last] := by
  rw [← intercalate_dirs, List.splitOn_intercalate]
  · rfl
  · intro seg hseg
    rcases List.mem_cons.1 hseg with rfl | hseg
    · exact List.not_mem_nil
    rcases List.mem_append.1 hseg with hseg | hseg
    · exact hdirs seg hseg
    · exact List.mem_singleton.1 hseg ▸ hlast
  · exact List.cons_ne_nil _ _

theorem exists_dirs (l : List UInt8) :
    ∃ dirs last, NoSlash dirs ∧ 47 ∉ last ∧ l = dirBytes dirs ++ last := by
  induction l with
  | nil => exact ⟨[], [], by simp [NoSlash], by simp, rfl⟩
  | cons c l ih =>
    obtain ⟨dirs, last, hdirs, hlast, rfl⟩ := ih
    by_cases hc : c = 47
    · subst hc
      refine ⟨[] :: dirs, last, ?_, hlast, rfl⟩
      simpa [NoSlash] using hdirs
    · cases dirs with
      | nil => exact ⟨[], c :: last, hdirs, by simp [hlast, Ne.symm hc], rfl⟩
      | cons d dirs =>
        refine ⟨(c :: d) :: dirs, last, ?_, hlast, rfl⟩
        simp only [NoSlash, List.forall_mem_cons] at hdirs ⊢
        exact ⟨by simp [hdirs.1, Ne.symm hc], hdirs.2⟩

theorem reverse_dirs (dirs : List (List UInt8)) :
    ∃ t, (47 :: dirBytes dirs).reverse = 47 :: t := by
  induction dirs using List.reverseRecOn with
  | nil => exact ⟨[], rfl⟩
  | append_singleton dirs d ih =>
    refine ⟨d.reverse ++ (47 :: dirBytes dirs).reverse, ?_⟩
    simp [dirBytes_append]

/-! ### The loop on segments -/

section Loop

variable {size up : ℕ} {d t output : List UInt8}

/-- A result that fits in the destination. -/
def fits (size : ℕ) (res : ℕ × List UInt8) : Except Fault (ℕ × List UInt8) :=
  if res.2.length ≤ size then .ok res else .error .outOfBounds

theorem prependChars_eq (l : List UInt8) (hfit : output.length ≤ size) :
    prependChars size l output =
      if l.length + output.length ≤ size then .ok (l.reverse ++ output)
      else .error .outOfBounds := by
  induction l generalizing output with
  | nil =>
    rw [if_pos (by simpa using hfit)]
    rfl
  | cons c l ih =>
    rw [prependChars, List.foldlM_cons, prependChar]
    by_cases hc : output.length < size
    · rw [if_pos hc]
      show prependChars size l (c :: output) = _
      have hfit' : (c :: output).length ≤ size := hc
      rw [ih hfit']
      simp only [List.length_cons, List.reverse_cons, List.append_assoc, List.singleton_append,
        Nat.add_right_comm, Nat.add_assoc]
    · rw [if_neg hc, if_neg (by simp only [List.length_cons]; omega)]
      rfl

theorem dotdot_prefix_iff (hd : 47 ∉ d) :
    [47, 46, 46, 47] <+: 47 :: (d.reverse ++ 47 :: t) ↔ d = [46, 46] := by
  rw [← List.reverse_inj]
  show _ ↔ d.reverse = [46, 46]
  have he : 47 ∉ d.reverse := by simpa using hd
  generalize d.reverse = e at he
  rcases e with - | ⟨a, - | ⟨b, - | ⟨c, e⟩⟩⟩
  · simp
  · simp
  · simp [List.cons_prefix_cons, eq_comm]
  · have hc : c ≠ 47 := fun h => he (by simp [h])
    simp [List.cons_prefix_cons, hc.symm]

theorem dropWhile_segment (hd : 47 ∉ d) :
    (d.reverse ++ 47 :: t).dropWhile (· != 47) = 47 :: t := by
  rw [List.dropWhile_append_of_pos]
  · rfl
  · intro c hc
    have : c ≠ 47 := fun h => hd (h ▸ List.mem_reverse.1 hc)
    simpa using this

theorem takeWhile_segment (hd : 47 ∉ d) :
    (d.reverse ++ 47 :: t).takeWhile (· != 47) = d.reverse := by
  rw [List.takeWhile_append_of_pos]
  · simp
  · intro c hc
    have : c ≠ 47 := fun h => hd (h ▸ List.mem_reverse.1 hc)
    simpa using this

theorem dotdotLoop_up : dotdotLoop size (47 :: ([46, 46] ++ 47 :: t)) up output =
    dotdotLoop size (47 :: t) (up + 1) output := by
  rw [dotdotLoop]
  exact if_pos (by simp)

theorem dotdotLoop_skip (hd : 47 ∉ d) (hne : d ≠ [46, 46]) (hup : 0 < up) :
    dotdotLoop size (47 :: (d.reverse ++ 47 :: t)) up output =
      dotdotLoop size (47 :: t) (up - 1) output := by
  rw [dotdotLoop, if_neg ((dotdot_prefix_iff hd).not.2 hne), if_pos hup, dropWhile_segment hd,
    if_neg (by simp)]

theorem dotdotLoop_keep (hd : 47 ∉ d) (hne : d ≠ [46, 46]) (hfit : output.length ≤ size) :
    dotdotLoop size (47 :: (d.reverse ++ 47 :: t)) 0 output =
      if (d ++ 47 :: output).length ≤ size then
        dotdotLoop size (47 :: t) 0 (d ++ 47 :: output)
      else .error .outOfBounds := by
  rw [dotdotLoop, if_neg ((dotdot_prefix_iff hd).not.2 hne), if_neg (lt_irrefl _),
    dropWhile_segment hd, takeWhile_segment hd, prependChar]
  by_cases hroom : output.length < size
  · rw [if_pos hroom]
    show (prependChars size d.reverse (47 :: output) >>= _) = _
    rw [prependChars_eq _ hroom, List.reverse_reverse, List.length_reverse, List.length_append]
    by_cases hdroom : d.length + (47 :: output).length ≤ size
    · rw [if_pos hdroom, if_pos hdroom]
      rfl
    · rw [if_neg hdroom, if_neg hdroom]
      rfl
  · rw [if_neg hroom, if_neg (by simp only [List.length_append, List.length_cons]; omega)]
    rfl

theorem dotdotLoop_root (hfit : output.length ≤ size) : dotdotLoop size [47] up output =
    fits size (up, (if 0 < up then [] else [47]) ++ output) := by
  rw [dotdotLoop, if_neg (by decide), fits]
  by_cases hup : 0 < up
  · rw [if_pos hup, if_pos rfl, if_pos hup, List.nil_append, if_pos hfit]
    rw [List.dropWhile_nil, dotdotLoop]
  · rw [if_neg hup, if_neg hup, prependChar]
    by_cases hroom : output.length < size
    · have hfits : ([47] ++ output).length ≤ size := hroom
      rw [if_pos hroom, if_pos hfits]
      show dotdotLoop size [] up (47 :: output) = _
      rw [dotdotLoop]
      rfl
    · have hfull : ¬ ([47] ++ output).length ≤ size := fun h => hroom h
      rw [if_neg hroom, if_neg hfull]
      rfl

theorem isDotdot_eq_false : isDotdot d = false ↔ d ≠ [46, 46] := by
  simp [isDotdot]

/-- What the loop leaves of directories, in front of what it wrote before. -/
theorem dotdotLoop_dirs {dirs : List (List UInt8)} (hdirs : NoSlash dirs) {s : Trail (List UInt8)}
    {last : List UInt8} (hfit : (dirBytes s.stack ++ last).length ≤ size) :
    dotdotLoop size (47 :: dirBytes dirs).reverse s.ups (dirBytes s.stack ++ last) =
      fits size ((trailBack isDotdot dirs s).ups,
        (if 0 < (trailBack isDotdot dirs s).ups then [] else [47]) ++
          (dirBytes (trailBack isDotdot dirs s).stack ++ last)) := by
  induction dirs using List.reverseRecOn generalizing s with
  | nil => exact dotdotLoop_root hfit
  | append_singleton dirs d ih =>
    have hd : (47 : UInt8) ∉ d := hdirs d (by simp)
    replace ih := fun {s} => ih (s := s) fun seg hseg => hdirs seg (List.mem_append_left _ hseg)
    have hrev : (47 :: dirBytes (dirs ++ [d])).reverse =
        47 :: (d.reverse ++ (47 :: dirBytes dirs).reverse) := by
      simp [dirBytes_append]
    obtain ⟨t, ht⟩ := reverse_dirs dirs
    rw [ht] at ih hrev
    rw [hrev, trailBack_concat]
    by_cases hdot : d = [46, 46]
    · subst hdot
      rw [Trail.back_up rfl]
      exact dotdotLoop_up.trans (ih (s := { s with ups := s.ups + 1 }) hfit)
    have hnot : isDotdot d = false := isDotdot_eq_false.2 hdot
    rcases Nat.eq_zero_or_pos s.ups with hups | hups
    · rw [Trail.back_zero hnot hups, hups, dotdotLoop_keep hd hdot hfit]
      have hout : d ++ 47 :: (dirBytes s.stack ++ last) = dirBytes (d :: s.stack) ++ last := by
        simp
      rw [hout]
      by_cases hroom : (dirBytes (d :: s.stack) ++ last).length ≤ size
      · rw [if_pos hroom]
        exact hups ▸ ih (s := { s with stack := d :: s.stack }) hroom
      · -- what is written before is a part of the result
        rw [if_neg hroom, fits, if_neg]
        obtain ⟨pre, hpre⟩ :=
          stack_suffix_trailBack isDotdot dirs ⟨0, d :: s.stack⟩
        rw [← hpre, dirBytes_append]
        simp only [List.length_append] at hroom ⊢
        omega
    · rw [Trail.back_pos hnot hups, dotdotLoop_skip hd hdot hups]
      exact ih (s := { s with ups := s.ups - 1 }) hfit

theorem dotdotLoop_file {last : List UInt8} (hlast : 47 ∉ last) (hfit : last.length ≤ size) :
    dotdotLoop size (last.reverse ++ 47 :: t) 0 [] = dotdotLoop size (47 :: t) 0 last := by
  cases last using List.reverseRecOn with
  | nil => rfl
  | append_singleton last c =>
    simp only [List.mem_append, List.mem_singleton, not_or, List.length_append,
      List.length_singleton] at hlast hfit
    rw [List.reverse_append, List.reverse_singleton, List.singleton_append, List.cons_append,
      dotdotLoop, if_neg fun h => hlast.2 (List.cons_prefix_cons.1 h).1, if_neg (lt_irrefl _),
      dropWhile_segment hlast.1, takeWhile_segment hlast.1, prependChar]
    have hpos : ([] : List UInt8).length < size := Nat.lt_of_lt_of_le (Nat.succ_pos _) hfit
    rw [if_pos hpos]
    show (prependChars size last.reverse [c] >>= _) = _
    have hroom : last.reverse.length + [c].length ≤ size := by
      simpa using hfit
    rw [prependChars_eq _ (Nat.le_trans (Nat.le_add_left _ _) hroom), if_pos hroom,
      List.reverse_reverse]
    rfl

end Loop

/-! ### The result -/

section Result

variable {path last : List UInt8} {dirs : List (List UInt8)} {full : Bool} {size : ℕ}

theorem mergedPath_dirs (hdirs : NoSlash dirs) (hlast : 47 ∉ last) (hdot : last ≠ [46, 46]) :
    mergedPath (47 :: (dirBytes dirs ++ last)) full =
      47 :: (dirBytes ((if full then [] else
        List.replicate (trail isDotdot dirs).ups [46, 46]) ++ (trail isDotdot dirs).stack.reverse)
          ++ last) := by
  have hclose : closeDots (dirs ++ [last]) = dirs ++ [last] := by
    rw [closeDots, if_neg (by simpa using hdot)]
  rw [mergedPath, splitOn_dirs hdirs hlast, mergedSegments, hclose, trail_concat,
    Trail.step_of_not_up (isDotdot_eq_false.2 hdot), ← intercalate_dirs]
  simp

theorem mergedPath_dots (hdirs : NoSlash dirs) :
    mergedPath (47 :: (dirBytes dirs ++ [46, 46])) full =
      mergedPath (47 :: (dirBytes (dirs ++ [[46, 46]]) ++ [])) full := by
  have hdots : NoSlash (dirs ++ [[46, 46]]) := by
    intro seg hseg
    rcases List.mem_append.1 hseg with hseg | hseg
    · exact hdirs seg hseg
    · rw [List.mem_singleton.1 hseg]
      decide
  rw [mergedPath, splitOn_dirs hdirs (by decide), mergedPath,
    splitOn_dirs hdots List.not_mem_nil, mergedSegments, mergedSegments]
  simp [closeDots]

theorem reverse_dots (n : ℕ) (out : List UInt8) :
    (List.replicate n [46, 46, 47]).flatten.reverse ++ 47 :: out =
      47 :: (dirBytes (List.replicate n [46, 46]) ++ out) := by
  induction n generalizing out with
  | zero => rfl
  | succ n ih =>
    have hstep : (List.replicate (n + 1) [46, 46, 47]).flatten.reverse ++ 47 :: out =
        (List.replicate n [46, 46, 47]).flatten.reverse ++ 47 :: (46 :: 46 :: 47 :: out) := by
      simp [List.replicate_succ]
    rw [hstep, ih, List.replicate_succ', dirBytes_append]
    simp

theorem prependDots_eq {up : ℕ} {out : List UInt8}
    (hfit : ((if 0 < up then [] else [47]) ++ out).length ≤ size) :
    prependDots size full up ((if 0 < up then [] else [47]) ++ out) =
      if (47 :: (dirBytes (if full then [] else List.replicate up [46, 46]) ++ out)).length ≤ size
      then .ok (47 :: (dirBytes (if full then [] else List.replicate up [46, 46]) ++ out))
      else .error .outOfBounds := by
  rw [prependDots]
  rcases Nat.eq_zero_or_pos up with rfl | hup
  · have hnone : (if full then [] else List.replicate 0 [46, 46]) = ([] : List (List UInt8)) := by
      cases full <;> rfl
    rw [if_neg (lt_irrefl _), hnone]
    exact (if_pos hfit).symm
  · have hdots : (if full then [] else (List.replicate up [46, 46, 47]).flatten).reverse ++
        47 :: out = 47 :: (dirBytes (if full then [] else List.replicate up [46, 46]) ++ out) := by
      cases full
      · exact reverse_dots up out
      · rfl
    rw [if_pos hup] at hfit ⊢
    rw [if_pos hup, ← hdots, List.nil_append, prependChar]
    generalize (if full then [] else (List.replicate up [46, 46, 47]).flatten : List UInt8) = dots
    by_cases hroom : out.length < size
    · rw [if_pos hroom]
      show prependChars size dots (47 :: out) = _
      rw [prependChars_eq _ (Nat.succ_le_of_lt hroom), List.length_append, List.length_reverse]
    · have hlong : ¬ (dots.reverse ++ 47 :: out).length ≤ size := by
        simp only [List.length_append, List.length_cons]
        omega
      rw [if_neg hroom, if_neg hlong]
      rfl

theorem dotdotLoop_prependDots (full : Bool) (hdirs : NoSlash dirs) (hfit : last.length ≤ size) :
    (dotdotLoop size (47 :: dirBytes dirs).reverse 0 last >>= fun r =>
        prependDots size full r.1 r.2) =
      if (47 :: (dirBytes ((if full then [] else List.replicate (trail isDotdot dirs).ups [46, 46])
          ++ (trail isDotdot dirs).stack.reverse) ++ last)).length ≤ size then
        .ok (47 :: (dirBytes ((if full then [] else
          List.replicate (trail isDotdot dirs).ups [46, 46])
            ++ (trail isDotdot dirs).stack.reverse) ++ last))
      else .error .outOfBounds := by
  have hloop : dotdotLoop size (47 :: dirBytes dirs).reverse 0 last = _ :=
    dotdotLoop_dirs (s := ⟨0, []⟩) hdirs hfit
  rw [trail_eq]
  generalize trailBack isDotdot dirs ⟨0, []⟩ = b at hloop ⊢
  rw [hloop, fits, List.reverse_reverse, dirBytes_append, List.append_assoc]
  by_cases hroom : ((if 0 < b.ups then [] else [47]) ++ (dirBytes b.stack ++ last)).length ≤ size
  · rw [if_pos hroom]
    exact prependDots_eq hroom
  · have hlong : ¬ (47 :: (dirBytes (if full then [] else List.replicate b.ups [46, 46]) ++
        (dirBytes b.stack ++ last))).length ≤ size := by
      refine fun h => hroom (Nat.le_trans ?_ h)
      simp only [List.length_append, List.length_cons]
      split_ifs <;> simp only [List.length_nil, List.length_singleton] <;> omega
    rw [if_neg hroom, if_neg hlong]
    rfl

theorem noSlash_dots (hdirs : NoSlash dirs) : NoSlash (dirs ++ [[46, 46]]) := by
  intro seg hseg
  rcases List.mem_append.1 hseg with hseg | hseg
  · exact hdirs seg hseg
  · rw [List.mem_singleton.1 hseg]
    decide

theorem exists_loop (habs : path.head? = some 47) (hsize : path.length ≤ size) :
    ∃ dirs last, NoSlash dirs ∧ 47 ∉ last ∧ last ≠ [46, 46] ∧ last.length ≤ size ∧
      (∀ full, mergedPath path full = mergedPath (47 :: (dirBytes dirs ++ last)) full) ∧
      dotdotScan size path = dotdotLoop size (47 :: dirBytes dirs).reverse 0 last := by
  obtain ⟨l, rfl⟩ : ∃ l, path = 47 :: l := ⟨path.tail, List.eq_cons_of_mem_head? habs⟩
  obtain ⟨dirs, last, hdirs, hlast, rfl⟩ := exists_dirs l
  obtain ⟨t, ht⟩ := reverse_dirs dirs
  have hrev : (47 :: (dirBytes dirs ++ last)).reverse = last.reverse ++ 47 :: t := by
    rw [← ht]
    simp
  have hfile : last.length ≤ size := by
    simp only [List.length_cons, List.length_append] at hsize
    omega
  rw [dotdotScan, hrev]
  by_cases hdot : last = [46, 46]
  · subst hdot
    refine ⟨dirs ++ [[46, 46]], [], noSlash_dots hdirs, List.not_mem_nil, by decide,
      Nat.zero_le _, fun full => mergedPath_dots hdirs, ?_⟩
    have hdirsrev : (47 :: dirBytes (dirs ++ [[46, 46]])).reverse =
        47 :: ([46, 46] ++ 47 :: t) := by
      rw [← ht]
      simp [dirBytes_append]
    rw [hdirsrev, dotdotLoop_up]
    exact if_pos (List.prefix_append _ t)
  · refine ⟨dirs, last, hdirs, hlast, hdot, hfile, fun _ => rfl, ?_⟩
    rw [ht, ← dotdotLoop_file hlast hfile]
    refine if_neg fun hpre => hdot ?_
    -- with a slash in front of it, the path would end in "/../"
    exact (dotdot_prefix_iff hlast).1 (List.cons_prefix_cons.2 ⟨rfl, hpre⟩)

/-- **What the normalizer does**: it writes the path of the segments that are left, if it fits. -/
theorem uriNormalizerPathDotdot_eq (full : Bool) (habs : path.head? = some 47)
    (hsize : path.length ≤ size) :
    uriNormalizerPathDotdot path full size =
      if (mergedPath path full).length ≤ size then .ok (.ok (mergedPath path full))
      else .error .outOfBounds := by
  obtain ⟨dirs, last, hdirs, hlast, hdot, hfile, hmerged, hstart⟩ := exists_loop habs hsize
  rw [uriNormalizerPathDotdot, if_neg (Nat.not_lt.2 hsize), hmerged,
    mergedPath_dirs hdirs hlast hdot]
  dsimp only
  rw [hstart]
  have hrun := dotdotLoop_prependDots full hdirs hfile
  generalize dotdotLoop size (47 :: dirBytes dirs).reverse 0 last = r at hrun ⊢
  have hbind : (r >>= fun res => prependDots size full res.1 res.2 >>= fun newpath =>
      pure (Except.ok newpath)) = (r >>= fun res => prependDots size full res.1 res.2) >>=
        fun newpath => (pure (.ok newpath) :
          Except Fault (Except UriNormalizerErr (List UInt8))) := by
    cases r <;> rfl
  refine hbind.trans ?_
  rw [hrun]
  split_ifs <;> rfl

/-! ### The length of the result -/

theorem left_sublist (full : Bool) (dirs : List (List UInt8)) :
    (if full then [] else List.replicate (trail isDotdot dirs).ups [46, 46]) ++
      (trail isDotdot dirs).stack.reverse <+ dirs := by
  have hsub : List.replicate (trail isDotdot dirs).ups [46, 46] ++ _ <+ dirs :=
    trail_sublist (fun seg => by simp [isDotdot]) dirs
  cases full
  · exact hsub
  · exact (List.sublist_append_right _ _).trans hsub

theorem dots_flatten (n : ℕ) : (List.replicate (n + 1) [47, 46, 46]).flatten =
    47 :: (dirBytes (List.replicate n [46, 46]) ++ [46, 46]) := by
  induction n with
  | zero => rfl
  | succ n ih =>
    rw [List.replicate_succ, List.flatten_cons, ih, List.replicate_succ, dirBytes_cons]
    rfl

theorem eq_replicate_of_left_eq
    (h : (if full then [] else List.replicate (trail isDotdot dirs).ups [46, 46]) ++
      (trail isDotdot dirs).stack.reverse = dirs)
    (hlast : dirs.getLast? = some [46, 46]) :
    full = false ∧ dirs = List.replicate (trail isDotdot dirs).ups [46, 46] := by
  have hnot := isUp_trail isDotdot dirs
  cases hstack : (trail isDotdot dirs).stack with
  | nil =>
    rw [hstack] at h
    cases full
    · exact ⟨rfl, by simpa using h.symm⟩
    · -- a list of no segments has no last one
      simp [← h] at hlast
  | cons seg stack =>
    have hseg : seg = [46, 46] := by
      rw [← h, hstack, List.reverse_cons, ← List.append_assoc, List.getLast?_concat] at hlast
      exact Option.some.inj hlast
    have := hnot seg (hstack ▸ List.mem_cons_self)
    rw [hseg] at this
    cases this

theorem mergedPath_length (full : Bool) (habs : path.head? = some 47) :
    (mergedPath path full).length ≤ path.length ∨ full = false ∧ OnlyDots path := by
  obtain ⟨l, rfl⟩ : ∃ l, path = 47 :: l := ⟨path.tail, List.eq_cons_of_mem_head? habs⟩
  obtain ⟨dirs, last, hdirs, hlast, rfl⟩ := exists_dirs l
  by_cases hdot : last = [46, 46]
  · subst hdot
    rw [mergedPath_dots hdirs, mergedPath_dirs (noSlash_dots hdirs) List.not_mem_nil (by decide)]
    rcases flatMap_length_lt (f := (· ++ [47])) (by simp)
      (left_sublist full (dirs ++ [[46, 46]])) with heq | hlt
    · right
      obtain ⟨hfull, hdots⟩ := eq_replicate_of_left_eq heq (List.getLast?_concat)
      refine ⟨hfull, dirs.length, ?_⟩
      have hlen := congrArg List.length hdots
      rw [List.length_replicate, List.length_append, List.length_singleton] at hlen
      rw [← hlen, List.replicate_succ'] at hdots
      rw [dots_flatten, ← (List.append_inj' hdots rfl).1]
    · left
      have hone : (dirBytes (dirs ++ [[46, 46]])).length = (dirBytes dirs).length + 3 := by
        simp [dirBytes_append]
      change (dirBytes _).length < (dirBytes _).length at hlt
      simp only [List.length_cons, List.length_append, List.length_nil] at hlt ⊢
      omega
  · left
    rw [mergedPath_dirs hdirs hlast hdot]
    simp only [List.length_cons, List.length_append]
    rcases flatMap_length_lt (f := (· ++ [47])) (by simp) (left_sublist full dirs) with heq | hlt
    · rw [heq]
    · change (dirBytes _).length < (dirBytes dirs).length at hlt
      omega

theorem mergedPath_onlyDots (hdots : OnlyDots path) :
    (mergedPath path false).length = path.length + 1 := by
  obtain ⟨n, rfl⟩ := hdots
  have hdirs : NoSlash (List.replicate n [46, 46]) := by
    intro seg hseg
    rw [List.eq_of_mem_replicate hseg]
    decide
  rw [dots_flatten, mergedPath_dots hdirs,
    mergedPath_dirs (noSlash_dots hdirs) List.not_mem_nil (by decide), ← List.replicate_succ',
    trail_replicate rfl, if_neg (by decide), List.replicate_succ', List.reverse_nil]
  simp [dirBytes_append]

/-- **Merging again changes nothing.** -/
theorem mergedPath_again (habs : path.head? = some 47) :
    mergedPath (mergedPath path full) full = mergedPath path full := by
  obtain ⟨dirs, last, hdirs, hlast, hdot, -, hmerged, -⟩ :=
    exists_loop habs (Nat.le_refl path.length)
  have hnot := isUp_trail isDotdot dirs
  have hleft : NoSlash ((if full then [] else
      List.replicate (trail isDotdot dirs).ups [46, 46]) ++ (trail isDotdot dirs).stack.reverse) :=
    fun seg hseg => hdirs seg ((left_sublist full dirs).subset hseg)
  rw [hmerged, mergedPath_dirs hdirs hlast hdot, mergedPath_dirs hleft hlast hdot]
  cases full
  · rw [if_neg (by decide), if_neg (by decide), trail_again rfl _ hnot]
  · have hzero : trail isDotdot (List.replicate 0 [46, 46] ++ _) = _ := trail_again rfl 0 hnot
    rw [List.replicate_zero] at hzero
    rw [if_pos rfl, if_pos rfl, hzero]

theorem mergedPath_head (habs : path.head? = some 47) : (mergedPath path full).head? = some 47 := by
  obtain ⟨dirs, last, hdirs, hlast, hdot, -, hmerged, -⟩ :=
    exists_loop habs (Nat.le_refl path.length)
  rw [hmerged, mergedPath_dirs hdirs hlast hdot]
  rfl

/-- **Merging `..` segments**: for each path with a leading slash, the result is the path of the
segments that are left, and nothing outside of the destination is written, exactly when the path
does not consist of `..` that are kept or the destination has a byte to spare. -/
theorem dotdot_exact_iff (habs : path.head? = some 47) (full : Bool) (size : ℕ) :
    DotdotExact path full size ↔ full = true ∨ size ≠ path.length ∨ ¬ OnlyDots path := by
  rcases Nat.lt_or_ge size path.length with hsize | hsize
  · refine iff_of_true ⟨.error .alloc, if_pos hsize, ?_⟩ (.inr (.inl (Nat.ne_of_lt hsize)))
    intro output h
    cases h
  have hrun := uriNormalizerPathDotdot_eq full habs hsize
  constructor
  · rintro ⟨res, hres, -⟩
    by_contra hfails
    push Not at hfails
    obtain ⟨hfull, rfl, hdots⟩ := hfails
    rw [Bool.eq_false_iff.2 hfull] at hres hrun
    rw [hrun, mergedPath_onlyDots hdots, if_neg (Nat.not_succ_le_self _)] at hres
    cases hres
  · intro hcond
    have hroom : (mergedPath path full).length ≤ size := by
      rcases mergedPath_length full habs with hle | ⟨hfull, hdots⟩
      · exact Nat.le_trans hle hsize
      · rcases hcond with h | h | h
        · exact absurd (hfull ▸ h) (by decide)
        · -- one byte more than the path has room here
          rw [hfull, mergedPath_onlyDots hdots]
          exact Nat.lt_of_le_of_ne hsize (Ne.symm h)
        · exact absurd hdots h
    refine ⟨.ok (mergedPath path full), hrun.trans (if_pos hroom), ?_⟩
    rintro output ⟨⟩
    refine ⟨rfl, fun size' hsize' => ?_⟩
    rw [uriNormalizerPathDotdot_eq full (mergedPath_head habs) hsize', mergedPath_again habs,
      if_pos hsize']

/-- "/a/../b" into seven bytes. -/
theorem dotdot_exact_b : DotdotExact [47, 97, 47, 46, 46, 47, 98] false 7 :=
  (dotdot_exact_iff rfl false 7).2 (.inr (.inr fun ⟨n, h⟩ => by
    rw [dots_flatten] at h
    cases n <;> simp [List.replicate_succ] at h))

/-- "/.." becomes "/../", also in three bytes. -/
theorem dotdot_inexact : ¬ DotdotExact [47, 46, 46] false 3 := by
  rintro ⟨res, hres, -⟩
  have hdots : OnlyDots [47, 46, 46] := ⟨0, rfl⟩
  have hlen := mergedPath_onlyDots hdots
  rw [uriNormalizerPathDotdot_eq false rfl (Nat.le_refl 3), hlen, if_neg (by decide)] at hres
  cases hres

end Result

end SmartHAProxy
