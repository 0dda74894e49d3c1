/-
Decoding percent-encoded unreserved characters (src/uri_normalizer.c).

A string is a list of units (`pctUnits`): characters, percent characters that are not
followed by two hexadecimal digits, and encoded characters.  The normalizer writes
each unit on its own (`PctUnit.normal`), so the output is what the units write.

Without `strict`, a lone percent character is copied.  Behind it, an encoded digit is
decoded, and the percent character may become a part of an encoded character that the
input did not hold (`remerge`): the documentation calls it unexpected results for
broken URIs.  `percentDecode_stable` tells that this is all that may happen.
-/
import SmartHAProxy.H1.Chunk

namespace SmartHAProxy

variable {c : UInt8} {u : PctUnit} {us : List PctUnit}

/-- `enum uri_normalizer_err`, apart from `NONE`. -/
inductive UriNormalizerErr
  | alloc
  | invalidInput
  | internalError
  deriving DecidableEq

/-! ### The normalizer -/

def ishex (c : UInt8) : Bool := c - 48 ≤ 9 || c - 65 ≤ 5 || c - 97 ≤ 5

def isUnreservedCharacter (c : UInt8) : Bool :=
  (65 ≤ c && c ≤ 90) || (97 ≤ c && c ≤ 122) || (48 ≤ c && c ≤ 57) ||
    c == 45 || c == 46 || c == 95 || c == 126

/-- `(hex2i(hex1) << 4) + hex2i(hex2)`. -/
def hexChar (hex1 hex2 : UInt8) : UInt8 :=
  UInt8.ofNat ((hex2i hex1).toNat <<< 4 + (hex2i hex2).toNat)

/-- A percent character that is not followed by two digits, before the rest of the output. -/
def loneChar (strict : Bool) (output : Except UriNormalizerErr (List UInt8)) :
    Except UriNormalizerErr (List UInt8) :=
  if strict then .error .invalidInput else output.map (37 :: ·)

/-- The loop of `uri_normalizer_percent_decode_unreserved`: what it appends to the output; 37 is
the percent character. -/
def percentDecodeLoop (strict : Bool) : List UInt8 → Except UriNormalizerErr (List UInt8)
  | [] => .ok []
  | current :: scanner =>
    if current = 37 then
      match scanner with
      | hex1 :: hex2 :: scanner =>
        if ishex hex1 && ishex hex2 then
          let c := hexChar hex1 hex2
          (percentDecodeLoop strict scanner).map
            (if isUnreservedCharacter c then (c :: ·) else (current :: hex1 :: hex2 :: ·))
        else loneChar strict (percentDecodeLoop strict (hex1 :: hex2 :: scanner))
      | [c] => loneChar strict (percentDecodeLoop strict [c])
      | [] => loneChar strict (percentDecodeLoop strict [])
    else (percentDecodeLoop strict scanner).map (current :: ·)

/-- `uri_normalizer_percent_decode_unreserved` into a destination of `size` bytes. -/
def uriNormalizerPercentDecodeUnreserved (input : List UInt8) (strict : Bool) (size : ℕ) :
    Except UriNormalizerErr (List UInt8) :=
  if size < input.length then .error .alloc else percentDecodeLoop strict input

/-! ### Units -/

/-- A percent character without two digits, another character, or an encoded character. -/
inductive PctUnit
  | lone
  | lit (c : UInt8)
  | enc (hex1 hex2 : UInt8)
  deriving DecidableEq

def pctUnits : List UInt8 → List PctUnit
  | [] => []
  | c :: rest =>
    if c = 37 then
      match rest with
      | hex1 :: hex2 :: rest =>
        if ishex hex1 && ishex hex2 then .enc hex1 hex2 :: pctUnits rest
        else .lone :: pctUnits (hex1 :: hex2 :: rest)
      | [c] => .lone :: pctUnits [c]
      | [] => .lone :: pctUnits []
    else .lit c :: pctUnits rest

def PctUnit.source : PctUnit → List UInt8
  | .lone => [37]
  | .lit c => [c]
  | .enc hex1 hex2 => [37, hex1, hex2]

/-- What the normalizer writes for a unit. -/
def PctUnit.normal : PctUnit → List UInt8
  | .lone => [37]
  | .lit c => [c]
  | .enc hex1 hex2 =>
    if isUnreservedCharacter (hexChar hex1 hex2) then [hexChar hex1 hex2] else [37, hex1, hex2]

/-- The character that a unit stands for. -/
def PctUnit.char : PctUnit → UInt8
  | .lone => 37
  | .lit c => c
  | .enc hex1 hex2 => hexChar hex1 hex2

/-- Percent-decoding of all the encoded characters of a string. -/
def percentDecode (l : List UInt8) : List UInt8 := (pctUnits l).map PctUnit.char

/-- The units of a string are as the parser leaves them. -/
def PctUnit.Ok : PctUnit → Prop
  | .lone => True
  | .lit c => c ≠ 37
  | .enc hex1 hex2 => ishex hex1 = true ∧ ishex hex2 = true

theorem pctUnits_lit (hc : c ≠ 37) (rest : List UInt8) :
    pctUnits (c :: rest) = .lit c :: pctUnits rest := by
  rw [pctUnits.eq_def]
  exact if_neg hc

theorem pctUnits_enc {a b : UInt8} (ha : ishex a = true) (hb : ishex b = true)
    (rest : List UInt8) : pctUnits (37 :: a :: b :: rest) = .enc a b :: pctUnits rest := by
  rw [pctUnits, if_pos rfl, if_pos (by rw [ha, hb]; rfl)]

/-- A string that does not start with two digits. -/
def NoHexPair (l : List UInt8) : Prop :=
  ∀ a b rest, l = a :: b :: rest → ¬ (ishex a = true ∧ ishex b = true)

theorem pctUnits_lone {rest : List UInt8} (h : NoHexPair rest) :
    pctUnits (37 :: rest) = .lone :: pctUnits rest := by
  rcases rest with - | ⟨a, - | ⟨b, rest⟩⟩
  · rfl
  · rfl
  · rw [pctUnits, if_pos rfl, if_neg]
    rw [Bool.and_eq_true]
    exact h a b rest rfl

theorem pctUnits_cases (l : List UInt8) :
    l = [] ∨ (∃ c rest, c ≠ 37 ∧ l = c :: rest) ∨
      (∃ a b rest, ishex a = true ∧ ishex b = true ∧ l = 37 :: a :: b :: rest) ∨
      ∃ rest, NoHexPair rest ∧ l = 37 :: rest := by
  rcases l with - | ⟨c, rest⟩
  · exact .inl rfl
  by_cases hc : c = 37
  · subst hc
    by_cases hpair : NoHexPair rest
    · exact .inr (.inr (.inr ⟨rest, hpair, rfl⟩))
    · simp only [NoHexPair, not_forall, not_not] at hpair
      obtain ⟨a, b, t, rfl, ha, hb⟩ := hpair
      exact .inr (.inr (.inl ⟨a, b, t, ha, hb, rfl⟩))
  · exact .inr (.inl ⟨c, rest, hc, rfl⟩)

theorem pctUnits_induction {P : List UInt8 → Prop} (hnil : P [])
    (hlit : ∀ c rest, c ≠ 37 → P rest → P (c :: rest))
    (henc : ∀ a b rest, ishex a = true → ishex b = true → P rest → P (37 :: a :: b :: rest))
    (hlone : ∀ rest, NoHexPair rest → P rest → P (37 :: rest)) (l : List UInt8) : P l := by
  induction hn : l.length using Nat.strong_induction_on generalizing l with
  | _ n ih =>
    subst hn
    rcases pctUnits_cases l with rfl | ⟨c, rest, hc, rfl⟩ | ⟨a, b, rest, ha, hb, rfl⟩ |
      ⟨rest, hrest, rfl⟩
    · exact hnil
    · exact hlit c rest hc (ih _ (by simp) rest rfl)
    · exact henc a b rest ha hb (ih _ (by simp only [List.length_cons]; omega) rest rfl)
    · exact hlone rest hrest (ih _ (by simp) rest rfl)

theorem pctUnits_ok (l : List UInt8) : ∀ u ∈ pctUnits l, u.Ok := by
  induction l using pctUnits_induction with
  | hnil => intro u hu; cases hu
  | hlit c rest hc ih =>
    rw [pctUnits_lit hc]
    exact List.forall_mem_cons.mpr ⟨hc, ih⟩
  | henc a b rest ha hb ih =>
    rw [pctUnits_enc ha hb]
    exact List.forall_mem_cons.mpr ⟨⟨ha, hb⟩, ih⟩
  | hlone rest hrest ih =>
    rw [pctUnits_lone hrest]
    exact List.forall_mem_cons.mpr ⟨trivial, ih⟩

theorem source_pctUnits (l : List UInt8) : (pctUnits l).flatMap PctUnit.source = l := by
  induction l using pctUnits_induction with
  | hnil => rfl
  | hlit c rest hc ih => rw [pctUnits_lit hc, List.flatMap_cons, ih]; rfl
  | henc a b rest ha hb ih => rw [pctUnits_enc ha hb, List.flatMap_cons, ih]; rfl
  | hlone rest hrest ih => rw [pctUnits_lone hrest, List.flatMap_cons, ih]; rfl

/-- **The loop writes each unit on its own**, and refuses lone percent characters if it is
strict. -/
theorem percentDecodeLoop_eq (strict : Bool) (l : List UInt8) :
    percentDecodeLoop strict l
      = if strict = true ∧ .lone ∈ pctUnits l then .error .invalidInput
        else .ok ((pctUnits l).flatMap PctUnit.normal) := by
  induction l using pctUnits_induction with
  | hnil =>
    rw [if_neg (by rintro ⟨-, h⟩; cases h)]
    rfl
  | hlit c rest hc ih =>
    have hstep : percentDecodeLoop strict (c :: rest)
        = (percentDecodeLoop strict rest).map (c :: ·) := by
      rw [percentDecodeLoop.eq_def]
      exact if_neg hc
    rw [hstep, ih, pctUnits_lit hc]
    simp only [List.mem_cons, reduceCtorEq, false_or]
    split_ifs <;> rfl
  | henc a b rest ha hb ih =>
    rw [percentDecodeLoop, if_pos rfl, if_pos (by rw [ha, hb]; rfl), ih, pctUnits_enc ha hb]
    simp only [List.mem_cons, reduceCtorEq, false_or]
    by_cases hbad : strict = true ∧ .lone ∈ pctUnits rest
    · rw [if_pos hbad, if_pos hbad]
      rfl
    · rw [if_neg hbad, if_neg hbad, List.flatMap_cons, PctUnit.normal]
      by_cases hc : isUnreservedCharacter (hexChar a b) = true
      · rw [if_pos hc, if_pos hc]
        rfl
      · rw [if_neg hc, if_neg hc]
        rfl
  | hlone rest hrest ih =>
    have hstep : percentDecodeLoop strict (37 :: rest)
        = loneChar strict (percentDecodeLoop strict rest) := by
      rcases rest with - | ⟨a, - | ⟨b, rest⟩⟩
      · rfl
      · rfl
      · rw [percentDecodeLoop, if_pos rfl, if_neg]
        rw [Bool.and_eq_true]
        exact hrest a b rest rfl
    rw [hstep, ih, pctUnits_lone hrest, loneChar]
    cases strict with
    | false => rfl
    | true => rw [if_pos rfl, if_pos ⟨rfl, List.mem_cons_self⟩]

/-! ### The units of the output -/

/-- The digit that a unit leaves in the output, if it leaves one. -/
def PctUnit.digit : PctUnit → Option UInt8
  | .lone => none
  | .lit c => if ishex c then some c else none
  | .enc hex1 hex2 => if ishex (hexChar hex1 hex2) then some (hexChar hex1 hex2) else none

def PctUnit.settle : PctUnit → PctUnit
  | .lone => .lone
  | .lit c => .lit c
  | .enc hex1 hex2 =>
    if isUnreservedCharacter (hexChar hex1 hex2) then .lit (hexChar hex1 hex2)
    else .enc hex1 hex2

/-- The units of what is written for the units: a lone percent character takes two digits. -/
def remerge : List PctUnit → List PctUnit
  | [] => []
  | [u] => [u.settle]
  | [u, v] => [u.settle, v.settle]
  | u :: v :: w :: us =>
    if u = .lone ∧ v.digit.isSome = true ∧ w.digit.isSome = true then
      .enc v.char w.char :: remerge us
    else u.settle :: remerge (v :: w :: us)

/-- No lone percent character stands before two units that leave digits. -/
def NoMerge : List PctUnit → Prop
  | [] => True
  | [_] => True
  | [_, _] => True
  | u :: v :: w :: us =>
    ¬ (u = .lone ∧ v.digit.isSome = true ∧ w.digit.isSome = true) ∧ NoMerge (v :: w :: us)

theorem isUnreservedCharacter_of_ishex (h : ishex c = true) : isUnreservedCharacter c = true := by
  have hall : ∀ n < 256, ishex (UInt8.ofNat n) = true →
      isUnreservedCharacter (UInt8.ofNat n) = true := by decide +kernel
  have := hall c.toNat c.toNat_lt
  rw [UInt8.ofNat_toNat] at this
  exact this h

theorem normal_of_digit (h : u.digit.isSome = true) :
    u.normal = [u.char] ∧ ishex u.char = true := by
  cases u with
  | lone => cases h
  | lit d =>
    rw [PctUnit.digit] at h
    split_ifs at h with hd
    · exact ⟨rfl, hd⟩
    · cases h
  | enc a b =>
    rw [PctUnit.digit] at h
    split_ifs at h with hd
    · exact ⟨if_pos (isUnreservedCharacter_of_ishex hd), hd⟩
    · cases h

theorem normal_of_digit_none (h : u.digit = none) :
    ∃ c rest, u.normal = c :: rest ∧ ishex c = false := by
  cases u with
  | lone => exact ⟨37, [], rfl, rfl⟩
  | lit d =>
    rw [PctUnit.digit] at h
    split_ifs at h with hd
    exact ⟨d, [], rfl, by simpa using hd⟩
  | enc a b =>
    rw [PctUnit.digit] at h
    split_ifs at h with hd
    rw [PctUnit.normal]
    split_ifs
    · exact ⟨_, [], rfl, by simpa using hd⟩
    · exact ⟨37, [a, b], rfl, rfl⟩

theorem pctUnits_settle (hu : u.Ok) (hlone : u ≠ .lone) (rest : List UInt8) :
    pctUnits (u.normal ++ rest) = u.settle :: pctUnits rest := by
  cases u with
  | lone => exact absurd rfl hlone
  | lit c => exact pctUnits_lit hu rest
  | enc a b =>
    rw [PctUnit.normal, PctUnit.settle]
    split_ifs with hc
    · refine pctUnits_lit (fun h37 => ?_) rest
      rw [h37] at hc
      exact absurd hc (by decide)
    · exact pctUnits_enc hu.1 hu.2 rest

theorem noHexPair_cons (hc : ishex c = false) (rest : List UInt8) : NoHexPair (c :: rest) := by
  rintro a b t heq ⟨ha, -⟩
  obtain ⟨rfl, -⟩ := List.cons.inj heq
  exact absurd (hc.symm.trans ha) Bool.false_ne_true

theorem noHexPair_cons_cons (d : UInt8) (hc : ishex c = false) (rest : List UInt8) :
    NoHexPair (d :: c :: rest) := by
  rintro a b t heq ⟨-, hb⟩
  obtain ⟨-, heq⟩ := List.cons.inj heq
  obtain ⟨rfl, -⟩ := List.cons.inj heq
  exact absurd (hc.symm.trans hb) Bool.false_ne_true

theorem noHexPair_singleton (c : UInt8) : NoHexPair [c] := by
  rintro a b t heq -
  simp at heq

theorem noHexPair_normal (h : ∀ v w ws, us = v :: w :: ws → v.digit = none ∨ w.digit = none) :
    NoHexPair (us.flatMap PctUnit.normal) := by
  rcases us with - | ⟨v, us⟩
  · rintro a b t heq -
    simp at heq
  rw [List.flatMap_cons]
  by_cases hv : v.digit = none
  · obtain ⟨c, rest, hnormal, hc⟩ := normal_of_digit_none hv
    rw [hnormal]
    exact noHexPair_cons hc _
  rw [(normal_of_digit (Option.isSome_iff_ne_none.mpr hv)).1]
  rcases us with - | ⟨w, ws⟩
  · exact noHexPair_singleton _
  obtain ⟨c, rest, hnormal, hc⟩ := normal_of_digit_none ((h v w ws rfl).resolve_left hv)
  rw [List.flatMap_cons, hnormal]
  exact noHexPair_cons_cons _ hc _

theorem pctUnits_normal_cons (hu : u.Ok)
    (h : u = .lone → ∀ v w ws, us = v :: w :: ws → v.digit = none ∨ w.digit = none) :
    pctUnits ((u :: us).flatMap PctUnit.normal)
      = u.settle :: pctUnits (us.flatMap PctUnit.normal) := by
  rw [List.flatMap_cons]
  by_cases hlone : u = .lone
  · subst hlone
    exact pctUnits_lone (noHexPair_normal (h rfl))
  · exact pctUnits_settle hu hlone _

/-- **The units of what is written.** -/
theorem pctUnits_normal (us : List PctUnit) (hok : ∀ u ∈ us, u.Ok) :
    pctUnits (us.flatMap PctUnit.normal) = remerge us := by
  induction hn : us.length using Nat.strong_induction_on generalizing us with
  | _ n ih =>
    subst hn
    rcases us with - | ⟨u, us⟩
    · rfl
    obtain ⟨hu, hok'⟩ := List.forall_mem_cons.mp hok
    have htail := ih us.length (by simp) us hok' rfl
    rcases us with - | ⟨v, - | ⟨w, us⟩⟩
    · rw [pctUnits_normal_cons hu (by simp), htail]
      rfl
    · rw [pctUnits_normal_cons hu (by simp), htail]
      rfl
    by_cases hmerge : u = .lone ∧ v.digit.isSome = true ∧ w.digit.isSome = true
    · -- the percent character takes the digits
      rw [remerge, if_pos hmerge]
      obtain ⟨rfl, hv, hw⟩ := hmerge
      obtain ⟨hva, hahex⟩ := normal_of_digit hv
      obtain ⟨hwb, hbhex⟩ := normal_of_digit hw
      have hrest := ih us.length (by simp only [List.length_cons]; omega) us
        (fun x hx => hok' x (by simp [hx])) rfl
      rw [List.flatMap_cons, List.flatMap_cons, List.flatMap_cons, hva, hwb]
      exact (pctUnits_enc hahex hbhex _).trans (congrArg _ hrest)
    · have hnone : u = .lone → ∀ v' w' ws, v :: w :: us = v' :: w' :: ws →
          v'.digit = none ∨ w'.digit = none := by
        rintro rfl v' w' ws heq
        simp only [List.cons.injEq] at heq
        obtain ⟨rfl, rfl, -⟩ := heq
        by_contra hboth
        obtain ⟨hv, hw⟩ := not_or.mp hboth
        exact hmerge ⟨rfl, Option.isSome_iff_ne_none.mpr hv, Option.isSome_iff_ne_none.mpr hw⟩
      rw [pctUnits_normal_cons hu hnone, htail, remerge, if_neg hmerge]

theorem normal_settle (u : PctUnit) : u.settle.normal = u.normal := by
  cases u with
  | lone => rfl
  | lit c => rfl
  | enc a b =>
    by_cases hc : isUnreservedCharacter (hexChar a b) = true
    · rw [PctUnit.settle, if_pos hc, PctUnit.normal, PctUnit.normal, if_pos hc]
    · rw [PctUnit.settle, if_neg hc]

theorem char_settle (u : PctUnit) : u.settle.char = u.char := by
  cases u with
  | lone => rfl
  | lit c => rfl
  | enc a b =>
    rw [PctUnit.settle]
    split_ifs <;> rfl

theorem remerge_of_noMerge (h : NoMerge us) : remerge us = us.map PctUnit.settle := by
  induction us with
  | nil => rfl
  | cons u us ih =>
    rcases us with - | ⟨v, - | ⟨w, us⟩⟩
    · rfl
    · rfl
    · rw [NoMerge] at h
      rw [remerge, if_neg h.1, ih h.2]
      rfl

theorem length_remerge (us : List PctUnit) :
    (remerge us).length ≤ us.length ∧ ((remerge us).length = us.length → NoMerge us) := by
  induction hn : us.length using Nat.strong_induction_on generalizing us with
  | _ n ih =>
    subst hn
    rcases us with - | ⟨u, - | ⟨v, - | ⟨w, us⟩⟩⟩
    · exact ⟨le_rfl, fun _ => trivial⟩
    · exact ⟨le_rfl, fun _ => trivial⟩
    · exact ⟨le_rfl, fun _ => trivial⟩
    · by_cases hmerge : u = .lone ∧ v.digit.isSome = true ∧ w.digit.isSome = true
      · have := (ih us.length (by simp only [List.length_cons]; omega) us rfl).1
        rw [remerge, if_pos hmerge]
        simp only [List.length_cons]
        omega
      · obtain ⟨hle, hno⟩ := ih (v :: w :: us).length (by simp) (v :: w :: us) rfl
        rw [remerge, if_neg hmerge]
        simp only [List.length_cons] at hle ⊢
        exact ⟨by omega, fun heq => ⟨hmerge, hno (by simp only [List.length_cons]; omega)⟩⟩

theorem noMerge_of_not_mem (h : .lone ∉ us) : NoMerge us := by
  induction us with
  | nil => trivial
  | cons u us ih =>
    obtain ⟨hu, hus⟩ := not_or.mp (mt List.mem_cons.mpr h)
    rcases us with - | ⟨v, - | ⟨w, us⟩⟩
    · trivial
    · trivial
    · exact ⟨fun hm => hu hm.1.symm, ih hus⟩

/-! ### Stability -/

theorem percentDecodeLoop_eq_ok_iff {strict : Bool} {l out : List UInt8} :
    percentDecodeLoop strict l = .ok out
      ↔ (strict = true → .lone ∉ pctUnits l) ∧ out = (pctUnits l).flatMap PctUnit.normal := by
  rw [percentDecodeLoop_eq]
  split_ifs with hbad
  · exact iff_of_false (fun h => by cases h) fun h => h.1 hbad.1 hbad.2
  · rw [Except.ok.injEq]
    exact ⟨fun h => ⟨fun hs hmem => hbad ⟨hs, hmem⟩, h.symm⟩, fun h => h.2.symm⟩

theorem length_normal_le (u : PctUnit) : u.normal.length ≤ u.source.length := by
  cases u with
  | lone => exact le_rfl
  | lit c => exact le_rfl
  | enc a b =>
    rw [PctUnit.normal]
    split_ifs
    · simp [PctUnit.source]
    · exact le_rfl

theorem length_flatMap_normal_le (us : List PctUnit) :
    (us.flatMap PctUnit.normal).length ≤ (us.flatMap PctUnit.source).length := by
  induction us with
  | nil => exact le_rfl
  | cons u us ih =>
    have := length_normal_le u
    rw [List.flatMap_cons, List.flatMap_cons, List.length_append, List.length_append]
    omega

/-- **Decoding unreserved characters is stable, if and only if no lone percent character is merged
with what is decoded behind it**: then a second pass changes nothing and the characters that are
meant are the same.  In strict mode there are no such characters, and the output is never longer
than the input. -/
theorem percentDecode_stable (input out : List UInt8) (strict : Bool) (size : ℕ)
    (h : uriNormalizerPercentDecodeUnreserved input strict size = .ok out) :
    out.length ≤ input.length ∧ (strict = true → NoMerge (pctUnits input)) ∧
      ((∀ size', out.length ≤ size' →
          uriNormalizerPercentDecodeUnreserved out strict size' = .ok out) ∧
        percentDecode out = percentDecode input ↔ NoMerge (pctUnits input)) := by
  rw [uriNormalizerPercentDecodeUnreserved] at h
  split_ifs at h with hsize
  obtain ⟨hstrict, rfl⟩ := percentDecodeLoop_eq_ok_iff.mp h
  have hunits := pctUnits_normal _ (pctUnits_ok input)
  refine ⟨?_, fun hs => noMerge_of_not_mem (hstrict hs), fun hstable => ?_, fun hno => ?_⟩
  · have hle := length_flatMap_normal_le (pctUnits input)
    rwa [source_pctUnits] at hle
  · -- there is one character for each unit
    have hlen := congrArg List.length hstable.2
    rw [percentDecode, percentDecode, List.length_map, List.length_map, hunits] at hlen
    exact (length_remerge _).2 hlen
  · rw [remerge_of_noMerge hno] at hunits
    refine ⟨fun size' hsize' => ?_, ?_⟩
    · rw [uriNormalizerPercentDecodeUnreserved, if_neg (not_lt.mpr hsize'),
        percentDecodeLoop_eq_ok_iff, hunits]
      refine ⟨fun hs hmem => ?_, ?_⟩
      · obtain ⟨u, hu, hsettle⟩ := List.mem_map.mp hmem
        cases u with
        | lone => exact hstrict hs hu
        | lit c => cases hsettle
        | enc a b =>
          rw [PctUnit.settle] at hsettle
          split_ifs at hsettle
      · rw [List.flatMap_map]
        exact List.flatMap_congr fun u _ => (normal_settle u).symm
    · rw [percentDecode, hunits, percentDecode, List.map_map]
      exact List.map_congr_left fun u _ => char_settle u

/-- The string `/%61%zz` without `strict`. -/
theorem percentDecode_stable_admin :
    [47, 97, 37, 122, 122].length ≤ [47, 37, 54, 49, 37, 122, 122].length ∧
      (false = true → NoMerge (pctUnits [47, 37, 54, 49, 37, 122, 122])) ∧
      ((∀ size', [47, 97, 37, 122, 122].length ≤ size' →
          uriNormalizerPercentDecodeUnreserved [47, 97, 37, 122, 122] false size'
            = .ok [47, 97, 37, 122, 122]) ∧
        percentDecode [47, 97, 37, 122, 122] = percentDecode [47, 37, 54, 49, 37, 122, 122]
          ↔ NoMerge (pctUnits [47, 37, 54, 49, 37, 122, 122])) :=
  percentDecode_stable [47, 37, 54, 49, 37, 122, 122] [47, 97, 37, 122, 122] false 7 rfl

/-- `%%37%31` becomes `%71`, and this becomes `q`. -/
theorem percentDecode_unstable :
    ¬ ∀ (input out : List UInt8) (strict : Bool) (size : ℕ),
      uriNormalizerPercentDecodeUnreserved input strict size = .ok out →
      out.length ≤ input.length ∧
        (∀ size', out.length ≤ size' →
          uriNormalizerPercentDecodeUnreserved out strict size' = .ok out) ∧
        percentDecode out = percentDecode input := by
  intro hall
  have hbad := (hall [37, 37, 51, 55, 37, 51, 49] [37, 55, 49] false 7 rfl).2.2
  exact absurd hbad (by decide)

end SmartHAProxy
