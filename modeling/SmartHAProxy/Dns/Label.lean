/-
Host names and domain name labels (resolvers.c).

`resolv_str_to_dn_label` writes the characters of a name one place further than
they stand, and the length of a label in front of it once the label is over:
`www.haproxy.org` becomes `3www7haproxy3org`.  `resolv_dn_label_to_str` goes the
other way.  The loop of the first function is followed label by label; a name is
presented for this as its labels (`HostForm`), a trailing dot being a dot with no
label behind it.

Main results: `resolvStrToDnLoop_labels` and `resolvDnToStrLoop_labels`, what the
loops write, and `hostname_dn_label`, the round trip.
-/
import Mathlib.Algebra.Ring.Nat
import SmartHAProxy.Dns.Name
import SmartHAProxy.Lib.Memory

namespace SmartHAProxy

variable {s : CStr} {ls : List CStr} {i : ℕ} {dn : List UInt8}

/-! ### The three functions -/

def dnsMaxLabelSize : ℕ := 63

def hostnameChar (c : UInt8) : Bool := c == 45 || c == 95 || isAlpha c || isDigit c

/-- The loops of `resolv_hostname_validation`; `i` characters of the label are read. -/
def resolvHostnameLoop : CStr → ℕ → Bool
  | [], _ => true
  | c :: string, i =>
    if c ≠ 46 ∧ i < dnsMaxLabelSize then
      if hostnameChar c then resolvHostnameLoop string (i + 1) else false
    else if c ≠ 46 ∧ i ≥ dnsMaxLabelSize then false
    else resolvHostnameLoop string 0

def resolvHostnameValidation (string : CStr) : Bool :=
  if string.length > dnsMaxNameSize then false else resolvHostnameLoop string 0

/-- The loop of `resolv_str_to_dn_label` with `left` turns to go; none when two dots follow
each other. -/
def resolvStrToDnLoop (str : CStr) (strLen : ℕ) :
    ℕ → ℕ → ℕ → List UInt8 → Except Fault (Option (ℕ × ℕ × List UInt8))
  | 0, i, offset, dn => .ok (some (i, offset, dn))
  | left + 1, i, offset, dn =>
    match (str ++ [0])[i]? with
    | none => .error .outOfBounds
    | some c =>
      if c = 46 then
        -- 2 or more consecutive dots is invalid
        if i = offset then .ok none
        -- ignore trailing dot
        else if i + 2 = strLen then .ok (some (i + 1, offset, dn))
        else do
          let dn ← memWrite dn offset [UInt8.ofNat (i - offset)]
          resolvStrToDnLoop str strLen left (i + 1) (i + 1) dn
      else do
        let dn ← memWrite dn (i + 1) [c]
        resolvStrToDnLoop str strLen left (i + 1) offset dn

/-- What `resolv_str_to_dn_label` does after its loop. -/
def resolvStrToDnEnd : Option (ℕ × ℕ × List UInt8) → Except Fault (Option (ℕ × List UInt8))
  | none => .ok none
  | some (i, offset, dn) => do
    let dn ← memWrite dn offset [UInt8.ofNat (i - offset) - 1]
    let dn ← memWrite dn i [0]
    pure (some (i, dn))

/-- `resolv_str_to_dn_label`: the value returned and the buffer, or none for -1. -/
def resolvStrToDnLabel (str : CStr) (strLen : ℕ) (dn : List UInt8) (dnLen : ℕ) :
    Except Fault (Option (ℕ × List UInt8)) :=
  if dnLen < strLen + 1 then .ok none
  else resolvStrToDnLoop str strLen strLen 0 0 dn >>= resolvStrToDnEnd

/-- The loop of `resolv_dn_label_to_str`: the pointer `ptr` and the string.  A negative length
is too large for a copy. -/
def resolvDnToStrLoop (dn : List UInt8) (dnLen : ℕ) :
    ℕ → ℕ → ℕ → List UInt8 → Except Fault (ℕ × List UInt8)
  | 0, _, ptr, str => .ok (ptr, str)
  | fuel + 1, i, ptr, str =>
    if i < dnLen - 1 then
      match dn[i]? with
      | none => .error .outOfBounds
      | some sz =>
        if charVal sz < 0 then .error .outOfBounds
        else do
          let dot := if i ≠ 0 then [46] else []
          let str ← memWrite str ptr dot
          let str ← memcpy str (ptr + dot.length) dn (i + 1) sz.toNat
          resolvDnToStrLoop dn dnLen fuel (i + sz.toNat + 1) (ptr + dot.length + sz.toNat) str
    else .ok (ptr, str)

/-- `resolv_dn_label_to_str`: the value returned and the string, or none for -1. -/
def resolvDnLabelToStr (dn : List UInt8) (dnLen : ℕ) (str : List UInt8) (strLen : ℕ) :
    Except Fault (Option (ℕ × List UInt8)) :=
  if strLen < dnLen - 1 then .ok none
  else do
    let r ← resolvDnToStrLoop dn dnLen dnLen 0 0 str
    let str ← memWrite r.2 r.1 [0]
    pure (some (r.1 + 1, str))

/-! ### Names as labels -/

structure HostLabel (l : CStr) : Prop where
  ne : l ≠ []
  length_le : l.length ≤ dnsMaxLabelSize
  no_dot : (46 : UInt8) ∉ l

/-- The name `s` consists of the labels `ls`; a dot at the end has no label behind it. -/
inductive HostForm : List CStr → CStr → Prop
  | nil : HostForm [] []
  | last {l : CStr} : HostLabel l → HostForm [l] l
  | dot {l : CStr} {ls : List CStr} {s : CStr} :
      HostLabel l → HostForm ls s → HostForm (l :: ls) (l ++ 46 :: s)

/-- No label of the name is empty: a dot is neither at its start nor behind another dot. -/
def NoEmptyLabel (s : CStr) : Prop := ¬ [46, 46] <:+: 46 :: s

instance decidableNoEmptyLabel (s : CStr) : Decidable (NoEmptyLabel s) :=
  inferInstanceAs (Decidable (¬ _))

def trimDot (s : CStr) : CStr := if s.getLast? = some 46 then s.dropLast else s

/-- The labels behind the first one, each with its dot. -/
def dottedTail (ls : List CStr) : CStr := (ls.map (46 :: ·)).flatten

def dotted : List CStr → CStr
  | [] => []
  | l :: ls => l ++ dottedTail ls

/-- The labels as they stand in a packet. -/
def dnLabels (ls : List CStr) : List UInt8 := (ls.map fun l => UInt8.ofNat l.length :: l).flatten

/-- The rest of a label that has been read so far is split off an accepted name. -/
theorem hostForm_of_loop (s : CStr) (l : CStr) (hl : l.length ≤ dnsMaxLabelSize)
    (hdot : (46 : UInt8) ∉ l) (h : resolvHostnameLoop s l.length = true)
    (hne : NoEmptyLabel (l ++ s)) :
    ∃ ls, HostForm ls (l ++ s) := by
  induction s generalizing l with
  | nil =>
    rw [List.append_nil]
    rcases eq_or_ne l [] with rfl | hl0
    · exact ⟨[], .nil⟩
    · exact ⟨[l], .last ⟨hl0, hl, hdot⟩⟩
  | cons c s ih =>
    rw [resolvHostnameLoop] at h
    by_cases hc : c = 46
    · -- the label ends here
      subst hc
      rw [if_neg (by simp), if_neg (by simp)] at h
      have hl0 : l ≠ [] := by
        rintro rfl
        exact hne (List.prefix_append [46, 46] s).isInfix
      have hne' : NoEmptyLabel ([] ++ s) := by
        intro hdots
        exact hne (hdots.trans (List.suffix_append (46 :: l) (46 :: s)).isInfix)
      obtain ⟨ls, hform⟩ := ih [] (Nat.zero_le _) List.not_mem_nil h hne'
      exact ⟨l :: ls, .dot ⟨hl0, hl, hdot⟩ hform⟩
    · by_cases hlt : l.length < dnsMaxLabelSize
      · rw [if_pos ⟨hc, hlt⟩] at h
        split_ifs at h with hchar
        have happ : l ++ c :: s = (l ++ [c]) ++ s := (List.append_cons l c s)
        rw [happ] at hne ⊢
        refine ih (l ++ [c]) ?_ ?_ ?_ hne
        · rw [List.length_append]
          exact hlt
        · rw [List.mem_append, List.mem_singleton]
          rintro (hmem | heq)
          · exact hdot hmem
          · exact hc heq.symm
        · rw [List.length_append]
          exact h
      · rw [if_neg (fun h => hlt h.2), if_pos ⟨hc, Nat.le_of_not_lt hlt⟩] at h
        exact nomatch h

theorem hostForm_of_validation (h : resolvHostnameValidation s = true) (hne : NoEmptyLabel s) :
    ∃ ls, HostForm ls s := by
  rw [resolvHostnameValidation] at h
  split_ifs at h with hlen
  exact hostForm_of_loop s [] (Nat.zero_le _) List.not_mem_nil h hne

theorem HostForm.ne_nil {l : CStr} (h : HostForm (l :: ls) s) : s ≠ [] := by
  cases h with
  | last hl => exact hl.ne
  | dot hl _ => exact fun h => hl.ne (List.append_eq_nil_iff.mp h).1

theorem HostForm.trimDot_eq (h : HostForm ls s) : trimDot s = dotted ls := by
  induction h with
  | nil => rfl
  | @last l hl =>
    rw [trimDot, if_neg fun h => hl.no_dot (List.mem_of_getLast? h), dotted, dottedTail,
      List.map_nil, List.flatten_nil, List.append_nil]
  | @dot l ls s hl hform ih =>
    rcases ls with - | ⟨l', ls⟩
    · cases hform
      rw [trimDot, List.getLast?_concat, if_pos rfl, List.dropLast_concat, dotted, dottedTail,
        List.map_nil, List.flatten_nil, List.append_nil]
    · have hs := hform.ne_nil
      have hlast : (l ++ 46 :: s).getLast? = s.getLast? := by
        rw [List.append_cons, List.getLast?_append_of_ne_nil _ hs]
      have hdrop : (l ++ 46 :: s).dropLast = l ++ 46 :: s.dropLast := by
        rw [List.append_cons, List.dropLast_append_of_ne_nil hs, ← List.append_cons]
      have htail : dotted (l :: l' :: ls) = l ++ 46 :: dotted (l' :: ls) := by
        simp only [dotted, dottedTail, List.map_cons, List.flatten_cons, List.cons_append]
      rw [htail, ← ih, trimDot, trimDot, hlast, hdrop]
      split_ifs <;> rfl

/-! ### Encoding -/

theorem overwrite_cons {mem l : List UInt8} (c : UInt8) (h : i + 1 + l.length ≤ mem.length) :
    overwrite (overwrite mem (i + 1) l) i [c] = overwrite mem i (c :: l) := by
  apply List.ext_getElem?
  intro k
  have hlen : (overwrite mem (i + 1) l).length = mem.length := length_overwrite (.inr h)
  rw [getElem?_overwrite (.inr (by rw [hlen, List.length_singleton]; omega)),
    getElem?_overwrite (.inr h), getElem?_overwrite (.inr (by rw [List.length_cons]; omega)),
    List.length_singleton, List.length_cons]
  by_cases hk : k = i
  · subst hk
    rw [if_pos (by omega), if_pos (by omega), Nat.sub_self]
    rfl
  · rw [if_neg (by omega)]
    by_cases hin : i + 1 ≤ k ∧ k < i + 1 + l.length
    · have hsub : k - i = k - (i + 1) + 1 := by omega
      rw [if_pos hin, if_pos (by omega), hsub, List.getElem?_cons_succ]
    · rw [if_neg hin, if_neg (by omega)]

theorem overwrite_idem {mem blk : List UInt8} (h : i + blk.length ≤ mem.length) :
    overwrite (overwrite mem i blk) i blk = overwrite mem i blk := by
  apply List.ext_getElem?
  intro k
  rw [getElem?_overwrite (.inr (by rwa [length_overwrite (.inr h)])), getElem?_overwrite (.inr h)]
  split_ifs <;> rfl

section Encode

variable {str : CStr} {strLen : ℕ}

theorem getElem?_of_drop {α : Type*} {s rest : List α} {c : α} (h : s.drop i = c :: rest) :
    s[i]? = some c := by
  have := congrArg (·[0]?) h
  rwa [List.getElem?_drop] at this

theorem resolvStrToDnLoop_copy (l : CStr) (hl : (46 : UInt8) ∉ l) (rest : CStr) (left i offset : ℕ)
    (dn : List UInt8) (hdrop : (str ++ [0]).drop i = l ++ rest)
    (hroom : i + 1 + l.length ≤ dn.length) :
    resolvStrToDnLoop str strLen (l.length + left) i offset dn
      = resolvStrToDnLoop str strLen left (i + l.length) offset (overwrite dn (i + 1) l) := by
  induction l generalizing i dn with
  | nil => rw [List.length_nil, Nat.zero_add, Nat.add_zero, overwrite_nil]
  | cons c l ih =>
    rw [List.mem_cons, not_or] at hl
    obtain ⟨hc, hl⟩ := hl
    rw [List.length_cons] at hroom
    have hone : i + 1 + [c].length ≤ dn.length := by
      rw [List.length_singleton]
      omega
    have hnext : (str ++ [0]).drop (i + 1) = l ++ rest := by
      rw [← List.drop_drop, hdrop]
      rfl
    have hstep := ih hl (i + 1) (overwrite dn (i + 1) [c]) hnext (by
      rw [length_overwrite (.inr hone)]
      omega)
    have hover : overwrite (overwrite dn (i + 1) [c]) (i + 1 + 1) l
        = overwrite dn (i + 1) (c :: l) := overwrite_append (by omega) [c] l
    rw [List.length_cons, Nat.add_right_comm, resolvStrToDnLoop, getElem?_of_drop hdrop]
    simp only [if_neg (Ne.symm hc)]
    rw [memWrite_bind hone, hstep, hover, Nat.add_right_comm i 1, Nat.add_assoc i]

/-- The length of the label is stored, and a NUL behind the label. -/
theorem resolvStrToDnEnd_label {l : CStr} (tail : List UInt8) (htail : tail = [] ∨ tail = [0])
    (hroom : i + l.length + 2 ≤ dn.length) :
    resolvStrToDnEnd (some (i + l.length + 1, i, overwrite dn (i + 1) (l ++ tail)))
      = .ok (some (i + (dnLabels [l]).length, overwrite dn i (dnLabels [l] ++ [0]))) := by
  have htlen : tail.length ≤ 1 := by
    rcases htail with rfl | rfl
    · exact Nat.zero_le _
    · exact Nat.le_refl _
  have hin : i + 1 + (l ++ tail).length ≤ dn.length := by
    rw [List.length_append]
    omega
  have hlab : dnLabels [l] = UInt8.ofNat l.length :: l := List.append_nil _
  have hsub : UInt8.ofNat (i + l.length + 1 - i) - 1 = UInt8.ofNat l.length := by
    rw [Nat.add_assoc, Nat.add_sub_cancel_left, UInt8.ofNat_add]
    exact UInt8.add_sub_cancel _ _
  have hfirst : i + [UInt8.ofNat (i + l.length + 1 - i) - 1].length
      ≤ (overwrite dn (i + 1) (l ++ tail)).length := by
    rw [length_overwrite (.inr hin), List.length_singleton]
    omega
  have hcons : overwrite (overwrite dn (i + 1) (l ++ tail)) i [UInt8.ofNat l.length]
      = overwrite dn i (dnLabels [l] ++ tail) := by
    rw [overwrite_cons _ hin, hlab, List.cons_append]
  have hlen : (dnLabels [l]).length = l.length + 1 := by rw [hlab, List.length_cons]
  have hput : i + (dnLabels [l]).length ≤ dn.length := by omega
  have hover : overwrite (overwrite dn i (dnLabels [l] ++ tail)) (i + (dnLabels [l]).length) [0]
      = overwrite dn i (dnLabels [l] ++ [0]) := by
    rcases htail with rfl | rfl
    · rw [List.append_nil, overwrite_append (by omega)]
    · rw [← overwrite_append (by omega), overwrite_idem]
      rw [length_overwrite (.inr hput), List.length_singleton]
      omega
  have hsecond : i + (dnLabels [l]).length + [(0 : UInt8)].length
      ≤ (overwrite dn i (dnLabels [l] ++ tail)).length := by
    rw [length_overwrite, List.length_singleton]
    · omega
    · rw [List.length_append]
      right
      omega
  have hpos : i + l.length + 1 = i + (dnLabels [l]).length := by omega
  rw [resolvStrToDnEnd, memWrite_bind hfirst, hsub, hcons, hpos, memWrite_bind hsecond, hover]
  rfl

/-- **What the encoder writes** from the start of a label on: the labels, and a NUL. -/
theorem resolvStrToDnLoop_labels (h : HostForm ls s) (hls : ls ≠ []) (i : ℕ) (dn : List UInt8)
    (hdrop : (str ++ [0]).drop i = s ++ [0]) (hlen : strLen = i + s.length + 1)
    (hroom : strLen + 1 ≤ dn.length) :
    (resolvStrToDnLoop str strLen (s.length + 1) i i dn >>= resolvStrToDnEnd)
      = .ok (some (i + (dnLabels ls).length, overwrite dn i (dnLabels ls ++ [0]))) := by
  induction h generalizing i dn with
  | nil => exact absurd rfl hls
  | @last l hl =>
    have hin : i + 1 + l.length ≤ dn.length := by omega
    have hnul : (str ++ [0])[i + l.length]? = some 0 := by
      have hrest : (str ++ [0]).drop (i + l.length) = [0] := by
        rw [← List.drop_drop, hdrop, List.drop_left]
      exact getElem?_of_drop hrest
    have hwrite : i + l.length + 1 + [(0 : UInt8)].length ≤ (overwrite dn (i + 1) l).length := by
      rw [length_overwrite (.inr hin), List.length_singleton]
      omega
    have hover : overwrite (overwrite dn (i + 1) l) (i + l.length + 1) [0]
        = overwrite dn (i + 1) (l ++ [0]) := by
      rw [← overwrite_append (by omega), Nat.add_right_comm i l.length 1]
    rw [resolvStrToDnLoop_copy l hl.no_dot [0] 1 i i dn hdrop hin, resolvStrToDnLoop, hnul]
    show (memWrite _ (i + l.length + 1) [0] >>= _) >>= _ = _
    rw [memWrite_bind hwrite, hover]
    exact resolvStrToDnEnd_label [0] (.inr rfl) (by omega)
  | @dot l ls s hl hform ih =>
    rw [List.length_append, List.length_cons] at hlen
    have hpos : 0 < l.length := List.length_pos_iff.mpr hl.ne
    have hin : i + 1 + l.length ≤ dn.length := by omega
    rw [List.append_assoc, List.cons_append] at hdrop
    have hdot : (str ++ [0])[i + l.length]? = some 46 := by
      have hrest : (str ++ [0]).drop (i + l.length) = 46 :: (s ++ [0]) := by
        rw [← List.drop_drop, hdrop, List.drop_left]
      exact getElem?_of_drop hrest
    rw [List.length_append, List.length_cons, Nat.add_assoc,
      resolvStrToDnLoop_copy l hl.no_dot _ _ i i dn hdrop hin, resolvStrToDnLoop, hdot]
    simp only [if_pos]
    rw [if_neg (by omega)]
    rcases ls with - | ⟨l', ls⟩
    · -- the trailing dot
      cases hform
      rw [if_pos (by rw [hlen]; rfl)]
      have hend := resolvStrToDnEnd_label [] (.inl rfl) (by omega : i + l.length + 2 ≤ dn.length)
      rwa [List.append_nil] at hend
    · have hs : 0 < s.length := List.length_pos_iff.mpr hform.ne_nil
      have hwrite : i + [UInt8.ofNat (i + l.length - i)].length
          ≤ (overwrite dn (i + 1) l).length := by
        rw [length_overwrite (.inr hin), List.length_singleton]
        omega
      have hnext : (str ++ [0]).drop (i + l.length + 1) = s ++ [0] := by
        rw [← List.drop_drop, ← List.drop_drop, hdrop, List.drop_left]
        rfl
      have hlabel : overwrite (overwrite dn (i + 1) l) i [UInt8.ofNat (i + l.length - i)]
          = overwrite dn i (dnLabels [l]) := by
        rw [Nat.add_sub_cancel_left, overwrite_cons _ hin]
        exact congrArg _ (List.append_nil _).symm
      have hone : (dnLabels [l]).length = l.length + 1 := by
        have hcons : dnLabels [l] = UInt8.ofNat l.length :: l := List.append_nil _
        rw [hcons, List.length_cons]
      have hmore : dnLabels (l :: l' :: ls) = dnLabels [l] ++ dnLabels (l' :: ls) := by
        simp only [dnLabels, List.map_cons, List.map_nil, List.flatten_cons, List.flatten_nil,
          List.append_nil]
      rw [if_neg (by omega), memWrite_bind hwrite, hlabel,
        ih (List.cons_ne_nil _ _) (i + l.length + 1) _ hnext (by omega)
          (by rw [length_overwrite (.inr (by omega))]; omega), hmore]
      have hstart : i + l.length + 1 = i + (dnLabels [l]).length := by omega
      rw [hstart, overwrite_append (by omega), List.length_append, Nat.add_assoc,
        List.append_assoc]

end Encode

/-! ### Decoding -/

theorem HostForm.length_le (h : HostForm ls s) : ∀ l ∈ ls, l.length ≤ dnsMaxLabelSize := by
  induction h with
  | nil => exact fun l hl => absurd hl List.not_mem_nil
  | @last l hl =>
    intro l' hmem
    rw [List.mem_singleton.mp hmem]
    exact hl.length_le
  | @dot l ls s hl _ ih => exact List.forall_mem_cons.mpr ⟨hl.length_le, ih⟩

theorem charVal_label {n : ℕ} (h : n ≤ dnsMaxLabelSize) :
    ¬ charVal (UInt8.ofNat n) < 0 ∧ (UInt8.ofNat n).toNat = n := by
  have hall : ∀ n < 64, ¬ charVal (UInt8.ofNat n) < 0 ∧ (UInt8.ofNat n).toNat = n := by decide
  exact hall n (Nat.lt_succ_of_le h)

/-- What is written for the labels from position `i` on. -/
def dnText (i : ℕ) (ls : List CStr) : CStr := if i ≠ 0 then dottedTail ls else dotted ls

/-- **What the decoder writes**: the labels, with a dot in front of all but the first. -/
theorem resolvDnToStrLoop_labels {dnLen : ℕ} (ls : List CStr)
    (hls : ∀ l ∈ ls, l.length ≤ dnsMaxLabelSize) (rest : List UInt8) (fuel i ptr : ℕ)
    (str : List UInt8) (hfuel : dnLen ≤ fuel + i) (hdrop : dn.drop i = dnLabels ls ++ rest)
    (hend : i + (dnLabels ls).length = dnLen - 1)
    (hroom : ptr + (dnText i ls).length ≤ str.length) :
    resolvDnToStrLoop dn dnLen fuel i ptr str
      = .ok (ptr + (dnText i ls).length, overwrite str ptr (dnText i ls)) := by
  induction ls generalizing fuel i ptr str with
  | nil =>
    have hnil : dnText i [] = [] := by
      rw [dnText]
      split_ifs <;> rfl
    rw [hnil, List.length_nil, Nat.add_zero, overwrite_nil]
    rw [dnLabels, List.map_nil, List.flatten_nil, List.length_nil] at hend
    cases fuel with
    | zero => rfl
    | succ fuel => rw [resolvDnToStrLoop, if_neg (by omega)]
  | cons l ls ih =>
    obtain ⟨hl, hls⟩ := List.forall_mem_cons.mp hls
    obtain ⟨hsign, hval⟩ := charVal_label hl
    have hcons : dnLabels (l :: ls) = UInt8.ofNat l.length :: (l ++ dnLabels ls) := by
      simp only [dnLabels, List.map_cons, List.flatten_cons, List.cons_append]
    rw [hcons, List.length_cons, List.length_append] at hend
    rw [hcons, List.cons_append, List.append_assoc] at hdrop
    have hdrop₁ : dn.drop (i + 1) = l ++ (dnLabels ls ++ rest) := by
      rw [← List.drop_drop, hdrop]
      rfl
    have hread : memRead dn (i + 1) l.length = .ok l := by
      rw [memRead_eq, hdrop₁, List.take_left]
      have := congrArg List.length hdrop₁
      rw [List.length_drop, List.length_append] at this
      omega
    have hdrop₂ : dn.drop (i + l.length + 1) = dnLabels ls ++ rest := by
      rw [Nat.add_right_comm, ← List.drop_drop, hdrop₁, List.drop_left]
    set dot : CStr := if i ≠ 0 then [46] else [] with hdot
    -- the text is the dot, the label and the text of the other labels
    have htext : dnText i (l :: ls) = dot ++ (l ++ dnText (i + l.length + 1) ls) := by
      rw [dnText, dnText, if_pos (Nat.succ_ne_zero (i + l.length)), hdot]
      split_ifs <;> rfl
    rw [htext, List.length_append, List.length_append] at hroom
    have hw₁ : ptr + dot.length ≤ str.length := by omega
    have hlen₁ := length_overwrite (.inr hw₁)
    have hw₂ : ptr + dot.length + l.length ≤ (overwrite str ptr dot).length := by omega
    have hlen₂ := length_overwrite (.inr hw₂)
    cases fuel with
    | zero => omega
    | succ fuel =>
      rw [resolvDnToStrLoop, if_pos (by omega), getElem?_of_drop hdrop]
      simp only [if_neg hsign, hval, ← hdot]
      rw [memWrite_bind hw₁, memcpy, hread]
      show (memWrite (overwrite str ptr dot) (ptr + dot.length) l >>= _) = _
      rw [memWrite_bind hw₂, ih hls fuel _ _ _ (by omega) hdrop₂ (by omega) (by omega), htext,
        overwrite_append (by omega)]
      have hpos : ptr + dot.length + l.length = ptr + (dot ++ l).length := by
        rw [List.length_append]
        omega
      have hend : ptr + (dot ++ l).length + (dnText (i + l.length + 1) ls).length
          = ptr + (dot ++ (l ++ dnText (i + l.length + 1) ls)).length := by
        simp only [List.length_append, Nat.add_assoc]
      rw [hpos, overwrite_append (by omega), hend]

/-! ### The round trip -/

theorem length_dotted (h : ls ≠ []) : (dotted ls).length + 1 = (dnLabels ls).length := by
  have htail (ls : List CStr) : (dottedTail ls).length = (dnLabels ls).length := by
    induction ls with
    | nil => rfl
    | cons l ls ih =>
      simp only [dottedTail, dnLabels, List.map_cons, List.flatten_cons, List.length_append,
        List.length_cons] at ih ⊢
      rw [ih]
  obtain ⟨l, ls, rfl⟩ := List.exists_cons_of_ne_nil h
  have := htail ls
  simp only [dotted, dnLabels, List.map_cons, List.flatten_cons, List.length_append,
    List.length_cons] at this ⊢
  omega

theorem resolvDnLabelToStr_labels (hls : ∀ l ∈ ls, l.length ≤ dnsMaxLabelSize) (hne : ls ≠ [])
    {rest str : List UInt8} (hdn : dn = dnLabels ls ++ rest)
    (hstr : (dnLabels ls).length ≤ str.length) :
    resolvDnLabelToStr dn ((dnLabels ls).length + 1) str str.length
      = .ok (some ((dotted ls).length + 1, overwrite str 0 (dotted ls ++ [0]))) := by
  have hlen := length_dotted hne
  have htext : dnText 0 ls = dotted ls := rfl
  have hloop := resolvDnToStrLoop_labels ls hls rest ((dnLabels ls).length + 1) 0 0 str
    (by omega : (dnLabels ls).length + 1 ≤ _) hdn (by omega) (by rw [htext]; omega)
  rw [htext] at hloop
  have hw : 0 + (dotted ls).length ≤ str.length := by omega
  rw [resolvDnLabelToStr, if_neg (by omega), hloop]
  show (memWrite (overwrite str 0 (dotted ls)) (0 + (dotted ls).length) [0] >>= _) = _
  rw [memWrite_bind, overwrite_append (by omega), Nat.zero_add]
  · rfl
  · rw [length_overwrite (.inr hw), List.length_singleton]
    omega

/-- **The conversions are inverse.**  A valid host name without empty labels is encoded in any
buffer of its length and two bytes, and decoded to the name without its trailing dot; no access is
outside of a buffer, or there would be a fault. -/
theorem hostname_dn_label (s : CStr) (hvalid : resolvHostnameValidation s = true)
    (hne : NoEmptyLabel s) (dn : List UInt8) (hdn : s.length + 2 ≤ dn.length) :
    ∃ n dn', resolvStrToDnLabel s (s.length + 1) dn dn.length = .ok (some (n, dn')) ∧
      ∀ str : List UInt8, n ≤ str.length →
        ∃ str', resolvDnLabelToStr dn' (n + 1) str str.length
            = .ok (some ((trimDot s).length + 1, str')) ∧
          str'.take ((trimDot s).length + 1) = trimDot s ++ [0] := by
  obtain ⟨ls, hform⟩ := hostForm_of_validation hvalid hne
  -- the empty name is written as one label without characters
  obtain ⟨ls', hls', hlen', htext, hrun⟩ : ∃ ls', (∀ l ∈ ls', l.length ≤ dnsMaxLabelSize) ∧
      ls' ≠ [] ∧ dotted ls' = trimDot s ∧
      (resolvStrToDnLoop s (s.length + 1) (s.length + 1) 0 0 dn >>= resolvStrToDnEnd)
        = .ok (some ((dnLabels ls').length, overwrite dn 0 (dnLabels ls' ++ [0]))) := by
    rcases eq_or_ne ls [] with rfl | hls
    · cases hform
      refine ⟨[[]], fun l hl => ?_, List.cons_ne_nil _ _, rfl, ?_⟩
      · rw [List.mem_singleton.mp hl]
        exact Nat.zero_le _
      · have hroom : 0 + ([] : CStr).length + 2 ≤ dn.length := hdn
        have hend := resolvStrToDnEnd_label [0] (.inr rfl) hroom
        rw [Nat.zero_add] at hend
        show ((memWrite dn 1 [0] >>= _) >>= _) = _
        rw [memWrite_bind (by rw [List.length_singleton]; exact hdn)]
        exact hend
    · have hstart : (s ++ [0]).drop 0 = s ++ [0] := rfl
      have hrun := resolvStrToDnLoop_labels hform hls 0 dn hstart (by rw [Nat.zero_add]) (by omega)
      rw [Nat.zero_add] at hrun
      exact ⟨ls, hform.length_le, hls, hform.trimDot_eq.symm, hrun⟩
  have hlen := length_dotted hlen'
  rw [← htext]
  refine ⟨(dnLabels ls').length, overwrite dn 0 (dnLabels ls' ++ [0]), ?_,
    fun str hstr => ⟨overwrite str 0 (dotted ls' ++ [0]), ?_, ?_⟩⟩
  · rw [resolvStrToDnLabel, if_neg (by omega), hrun]
  · have hdn' : overwrite dn 0 (dnLabels ls' ++ [0])
        = dnLabels ls' ++ ([0] ++ dn.drop (0 + (dnLabels ls' ++ [0]).length)) := by
      rw [overwrite, List.take_zero, List.nil_append, List.append_assoc]
    exact resolvDnLabelToStr_labels hls' hlen' hdn' hstr
  · rw [overwrite, List.take_zero, List.nil_append]
    exact List.take_left' List.length_append

theorem hostname_dn_label_dot :
    ∃ n dn', resolvStrToDnLabel (bytes "a.bc.") 6 (List.replicate 7 255) 7 = .ok (some (n, dn')) ∧
      ∀ str : List UInt8, n ≤ str.length →
        ∃ str', resolvDnLabelToStr dn' (n + 1) str str.length = .ok (some (5, str')) ∧
          str'.take 5 = bytes "a.bc" ++ [0] := by
  exact hostname_dn_label (bytes "a.bc.") (by decide) (by decide) (List.replicate 7 255) (by decide)

end SmartHAProxy
