/-
What the decoders make of the characters that the encoders wrote (src/base64.c).

A group of four characters of the table gives its three bytes back: `take_putGroup` says
where they stand, and `byte0_eq`, `byte1_eq` and `byte2_eq` which they are.  The group at
the end gives back one or two bytes, and the padding is taken off the length.  The
induction goes along `encodeChars`, three bytes at a time.
-/
import SmartHAProxy.Base64.Codec

namespace SmartHAProxy

variable {out : CStr} {convlen : ℕ} {a b c : UInt8}

/-! ### The values that are encoded -/

theorem sextet0_lt (a : UInt8) : a >>> 2 < 64 := by
  have h := a.toNat_lt
  rw [UInt8.lt_iff_toNat_lt, toNat_sextet0]
  show a.toNat / 4 < 64
  omega

theorem sextet1_lt (a b : UInt8) : (a &&& 3) <<< 4 ||| b >>> 4 < 64 := by
  have h := b.toNat_lt
  rw [UInt8.lt_iff_toNat_lt, toNat_sextet1]
  show a.toNat % 4 * 16 + b.toNat / 16 < 64
  omega

theorem sextet2_lt (b c : UInt8) : (b &&& 15) <<< 2 ||| c >>> 6 < 64 := by
  have h := c.toNat_lt
  rw [UInt8.lt_iff_toNat_lt, toNat_sextet2]
  show b.toNat % 16 * 4 + c.toNat / 64 < 64
  omega

theorem sextet3_lt (c : UInt8) : c &&& 63 < 64 := by
  rw [UInt8.lt_iff_toNat_lt, toNat_sextet3]
  show c.toNat % 64 < 64
  omega

theorem decode_byte0 (a b : UInt8) :
    ((a >>> 2) <<< 2) + (((a &&& 3) <<< 4 ||| b >>> 4) >>> 4) = a := by
  have h := b.toNat_lt
  apply byte0_eq (toNat_sextet0 a)
  rw [toNat_sextet1]
  omega

theorem decode_byte1 (a b c : UInt8) :
    (((a &&& 3) <<< 4 ||| b >>> 4) <<< 4) + (((b &&& 15) <<< 2 ||| c >>> 6) >>> 2) = b := by
  have hb := b.toNat_lt
  have hc := c.toNat_lt
  apply byte1_eq
  · rw [toNat_sextet1]
    omega
  · rw [toNat_sextet2]
    omega

theorem decode_byte2 (b c : UInt8) :
    (((b &&& 15) <<< 2 ||| c >>> 6) <<< 6) + (c &&& 63) = c := by
  have hc := c.toNat_lt
  apply byte2_eq _ (toNat_sextet3 c)
  rw [toNat_sextet2]
  omega

theorem sextet1_zero (a : UInt8) : (a &&& 3) <<< 4 = (a &&& 3) <<< 4 ||| (0 : UInt8) >>> 4 := by
  rw [UInt8.zero_shiftRight, UInt8.or_zero]

theorem sextet2_zero (b : UInt8) : (b &&& 15) <<< 2 = (b &&& 15) <<< 2 ||| (0 : UInt8) >>> 6 := by
  rw [UInt8.zero_shiftRight, UInt8.or_zero]

/-! ### One turn of a decoder -/

theorem base64decStep_tabChar {st : DecState} (hpad : st.pad = 0) {n : UInt8} (hn : n < 64) :
    base64decStep st (tabChar base64tab n) = some (st.put n 0) := by
  have hne : n ≠ b64padv := fun h => absurd hn (by rw [h]; decide)
  rw [base64decStep, stdValue_tabChar hn, Option.bind_some, if_neg (by omega), if_neg (by omega),
    if_neg hne, hpad]

theorem base64decStep_equal {st : DecState} (h : st.pad = 0 ∨ 2 ≤ st.t.length) :
    base64decStep st 61 = some (st.put b64padv (st.pad + 1)) := by
  rw [base64decStep, stdValue_equal, Option.bind_some, if_neg (fun hb => hb.2 rfl),
    if_neg (by omega), if_pos rfl]

theorem base64urldecStep_tabChar (st : DecState) {n : UInt8} (hn : n < 64) :
    base64urldecStep st (tabChar ubase64tab n) = some (st.put n 0) := by
  rw [base64urldecStep, urlValue_tabChar hn, Option.map_some]

theorem foldlM_cons_some {σ α : Type} {f : σ → α → Option σ} {s s' : σ} {x : α} {l : List α}
    (h : f s x = some s') : (x :: l).foldlM f s = l.foldlM f s' := by
  rw [List.foldlM_cons, h, Option.bind_eq_bind, Option.bind_some]

theorem foldlM_std_three {n0 n1 n2 n3 : UInt8} (h0 : n0 < 64) (h1 : n1 < 64) (h2 : n2 < 64)
    (h3 : n3 < 64) :
    [tabChar base64tab n0, tabChar base64tab n1, tabChar base64tab n2,
        tabChar base64tab n3].foldlM base64decStep ⟨[], convlen, 0, out⟩
      = some ⟨[], convlen + 3, 0, putGroup out convlen n0 n1 n2 n3⟩ := by
  rw [foldlM_cons_some (base64decStep_tabChar rfl h0),
    foldlM_cons_some (base64decStep_tabChar rfl h1), foldlM_cons_some (base64decStep_tabChar rfl h2),
    foldlM_cons_some (base64decStep_tabChar rfl h3)]
  rfl

theorem foldlM_std_two {n0 n1 n2 : UInt8} (h0 : n0 < 64) (h1 : n1 < 64) (h2 : n2 < 64) :
    [tabChar base64tab n0, tabChar base64tab n1, tabChar base64tab n2, 61].foldlM
        base64decStep ⟨[], convlen, 0, out⟩
      = some ⟨[], convlen + 2, 0, putGroup out convlen n0 n1 n2 b64padv⟩ := by
  rw [foldlM_cons_some (base64decStep_tabChar rfl h0),
    foldlM_cons_some (base64decStep_tabChar rfl h1), foldlM_cons_some (base64decStep_tabChar rfl h2),
    foldlM_cons_some (base64decStep_equal (.inl rfl))]
  rfl

theorem foldlM_std_one {n0 n1 : UInt8} (h0 : n0 < 64) (h1 : n1 < 64) :
    [tabChar base64tab n0, tabChar base64tab n1, 61, 61].foldlM
        base64decStep ⟨[], convlen, 0, out⟩
      = some ⟨[], convlen + 1, 0, putGroup out convlen n0 n1 b64padv b64padv⟩ := by
  have hlast : 2 ≤ [n0, n1, b64padv].length := Nat.le_succ 2
  rw [foldlM_cons_some (base64decStep_tabChar rfl h0),
    foldlM_cons_some (base64decStep_tabChar rfl h1),
    foldlM_cons_some (base64decStep_equal (.inl rfl)),
    foldlM_cons_some (base64decStep_equal (.inr hlast))]
  rfl

theorem foldlM_url_three {n0 n1 n2 n3 : UInt8} (h0 : n0 < 64) (h1 : n1 < 64) (h2 : n2 < 64)
    (h3 : n3 < 64) :
    [tabChar ubase64tab n0, tabChar ubase64tab n1, tabChar ubase64tab n2,
        tabChar ubase64tab n3].foldlM base64urldecStep ⟨[], convlen, 0, out⟩
      = some ⟨[], convlen + 3, 0, putGroup out convlen n0 n1 n2 n3⟩ := by
  rw [foldlM_cons_some (base64urldecStep_tabChar _ h0),
    foldlM_cons_some (base64urldecStep_tabChar _ h1),
    foldlM_cons_some (base64urldecStep_tabChar _ h2),
    foldlM_cons_some (base64urldecStep_tabChar _ h3)]
  rfl

theorem foldlM_url_two {n0 n1 n2 : UInt8} (h0 : n0 < 64) (h1 : n1 < 64) (h2 : n2 < 64) :
    [tabChar ubase64tab n0, tabChar ubase64tab n1, tabChar ubase64tab n2].foldlM
        base64urldecStep ⟨[], convlen, 0, out⟩ = some ⟨[n0, n1, n2], convlen, 0, out⟩ := by
  rw [foldlM_cons_some (base64urldecStep_tabChar _ h0),
    foldlM_cons_some (base64urldecStep_tabChar _ h1),
    foldlM_cons_some (base64urldecStep_tabChar _ h2)]
  rfl

theorem foldlM_url_one {n0 n1 : UInt8} (h0 : n0 < 64) (h1 : n1 < 64) :
    [tabChar ubase64tab n0, tabChar ubase64tab n1].foldlM base64urldecStep ⟨[], convlen, 0, out⟩
      = some ⟨[n0, n1], convlen, 0, out⟩ := by
  rw [foldlM_cons_some (base64urldecStep_tabChar _ h0),
    foldlM_cons_some (base64urldecStep_tabChar _ h1)]
  rfl

/-! ### A group behind what is there -/

theorem take_putGroup_three (h : convlen + 3 ≤ out.length) (a b c : UInt8) :
    (putGroup out convlen (a >>> 2) ((a &&& 3) <<< 4 ||| b >>> 4)
      ((b &&& 15) <<< 2 ||| c >>> 6) (c &&& 63)).take (convlen + 3)
      = out.take convlen ++ [a, b, c] := by
  rw [take_putGroup (Nat.le_refl 3) h, decode_byte0, decode_byte1, decode_byte2]
  rfl

theorem take_putGroup_two (h : convlen + 2 ≤ out.length) (a b : UInt8) :
    (putGroup out convlen (a >>> 2) ((a &&& 3) <<< 4 ||| b >>> 4) ((b &&& 15) <<< 2)
      b64padv).take (convlen + 2) = out.take convlen ++ [a, b] := by
  rw [sextet2_zero, take_putGroup (by omega) h, decode_byte0, decode_byte1]
  rfl

theorem take_putGroup_one (h : convlen + 1 ≤ out.length) (a : UInt8) :
    (putGroup out convlen (a >>> 2) ((a &&& 3) <<< 4) b64padv b64padv).take (convlen + 1)
      = out.take convlen ++ [a] := by
  rw [sextet1_zero, take_putGroup (by omega) h, decode_byte0]
  rfl

/-! ### A whole encoding -/

theorem take_append_group {out₁ out₂ x : CStr} {n : ℕ} (g : CStr)
    (h₁ : out₁.take (convlen + g.length) = out.take convlen ++ g)
    (h₂ : out₂.take (convlen + g.length + n) = out₁.take (convlen + g.length) ++ x) :
    out₂.take (convlen + (g.length + n)) = out.take convlen ++ (g ++ x) := by
  rw [← Nat.add_assoc, h₂, h₁, List.append_assoc]

theorem foldlM_encodeChars_std (x : CStr) : ∀ (convlen : ℕ) (out : CStr),
    convlen + x.length ≤ out.length → ∃ out', out'.length = out.length ∧
      out'.take (convlen + x.length) = out.take convlen ++ x ∧
      (encodeChars base64tab true x).foldlM base64decStep ⟨[], convlen, 0, out⟩
        = some ⟨[], convlen + x.length, 0, out'⟩ := by
  induction x using encodeChars.induct with
  | case1 a b c rest ih =>
    intro convlen out h
    have hlen : (a :: b :: c :: rest).length = 3 + rest.length := by
      rw [List.length_cons, List.length_cons, List.length_cons]
      omega
    rw [hlen] at h ⊢
    have hgroup := take_putGroup_three (show convlen + 3 ≤ out.length by omega) a b c
    obtain ⟨out', hlen', htake, hrest⟩ := ih (convlen + 3) (putGroup out convlen (a >>> 2)
      ((a &&& 3) <<< 4 ||| b >>> 4) ((b &&& 15) <<< 2 ||| c >>> 6) (c &&& 63))
      (by rw [length_putGroup]; omega)
    refine ⟨out', hlen'.trans (length_putGroup ..), take_append_group [a, b, c] hgroup htake, ?_⟩
    rw [encodeChars, List.foldlM_append, foldlM_std_three (sextet0_lt a) (sextet1_lt a b)
      (sextet2_lt b c) (sextet3_lt c), Option.bind_eq_bind, Option.bind_some, hrest, Nat.add_assoc]
  | case2 a b =>
    intro convlen out h
    refine ⟨_, length_putGroup .., take_putGroup_two h a b, ?_⟩
    exact foldlM_std_two (sextet0_lt a) (sextet1_lt a b) (sextet2_zero b ▸ sextet2_lt b 0)
  | case3 a =>
    intro convlen out h
    refine ⟨_, length_putGroup .., take_putGroup_one h a, ?_⟩
    exact foldlM_std_one (sextet0_lt a) (sextet1_zero a ▸ sextet1_lt a 0)
  | case4 =>
    intro convlen out h
    exact ⟨out, rfl, (List.append_nil _).symm, rfl⟩

/-- `base64urldec` goes through what `a2base64url` wrote and leaves the input behind what is
there. -/
theorem foldlM_encodeChars_url (x : CStr) : ∀ (convlen : ℕ) (out : CStr),
    convlen + x.length ≤ out.length → ∃ out', out'.length = out.length ∧
      out'.take (convlen + x.length) = out.take convlen ++ x ∧
      ((encodeChars ubase64tab false x).foldlM base64urldecStep ⟨[], convlen, 0, out⟩).map
          (urlFill (padOf x.length))
        = some ⟨[], convlen + x.length + padOf x.length, 0, out'⟩ := by
  induction x using encodeChars.induct with
  | case1 a b c rest ih =>
    intro convlen out h
    have hlen : (a :: b :: c :: rest).length = 3 + rest.length := by
      rw [List.length_cons, List.length_cons, List.length_cons]
      omega
    have hpad : padOf (3 + rest.length) = padOf rest.length := by
      rw [padOf, padOf, Nat.add_mod_left]
    rw [hlen] at h ⊢
    have hgroup := take_putGroup_three (show convlen + 3 ≤ out.length by omega) a b c
    obtain ⟨out', hlen', htake, hrest⟩ := ih (convlen + 3) (putGroup out convlen (a >>> 2)
      ((a &&& 3) <<< 4 ||| b >>> 4) ((b &&& 15) <<< 2 ||| c >>> 6) (c &&& 63))
      (by rw [length_putGroup]; omega)
    refine ⟨out', hlen'.trans (length_putGroup ..), take_append_group [a, b, c] hgroup htake, ?_⟩
    rw [encodeChars, List.foldlM_append, foldlM_url_three (sextet0_lt a) (sextet1_lt a b)
      (sextet2_lt b c) (sextet3_lt c), Option.bind_eq_bind, Option.bind_some, hpad, hrest,
      Nat.add_assoc convlen]
  | case2 a b =>
    intro convlen out h
    refine ⟨_, length_putGroup .., take_putGroup_two h a b, ?_⟩
    rw [encodeChars, if_neg Bool.false_ne_true, List.append_nil,
      foldlM_url_two (sextet0_lt a) (sextet1_lt a b) (sextet2_zero b ▸ sextet2_lt b 0)]
    rfl
  | case3 a =>
    intro convlen out h
    refine ⟨_, length_putGroup .., take_putGroup_one h a, ?_⟩
    rw [encodeChars, if_neg Bool.false_ne_true, List.append_nil,
      foldlM_url_one (sextet0_lt a) (sextet1_zero a ▸ sextet1_lt a 0)]
    rfl
  | case4 =>
    intro convlen out h
    exact ⟨out, rfl, (List.append_nil _).symm, rfl⟩

/-! ### The encoders -/

theorem encodeChars_fill (tab x : CStr) :
    encodeChars tab true x = encodeChars tab false x ++ List.replicate (padOf x.length) 61 := by
  induction x using encodeChars.induct with
  | case1 a b c rest ih =>
    have hpad : padOf (a :: b :: c :: rest).length = padOf rest.length := by
      rw [padOf, padOf, List.length_cons, List.length_cons, List.length_cons, Nat.add_assoc,
        Nat.add_assoc, Nat.add_mod_right]
    rw [encodeChars, encodeChars, ih, hpad, List.append_assoc]
  | case2 a b => rfl
  | case3 a => rfl
  | case4 => rfl

theorem length_encodeChars_fill (tab x : CStr) :
    (encodeChars tab true x).length = (x.length + 2) / 3 * 4 := by
  induction x using encodeChars.induct with
  | case1 a b c rest ih =>
    rw [encodeChars, List.length_append, ih]
    simp only [List.length_cons, List.length_nil]
    omega
  | case2 a b => exact show 4 = (2 + 2) / 3 * 4 by decide
  | case3 a => exact show 4 = (1 + 2) / 3 * 4 by decide
  | case4 => rfl

theorem length_encodeChars_false (tab x : CStr) :
    (encodeChars tab false x).length = (x.length + 2) / 3 * 4 - padOf x.length := by
  have h := congrArg List.length (encodeChars_fill tab x)
  rw [length_encodeChars_fill, List.length_append, List.length_replicate] at h
  omega

theorem encodeTo_eq (tab : CStr) (fill : Bool) {x enc : CStr} (h : (x.length + 2) / 3 * 4 < enc.length) :
    ∃ enc', encodeTo tab fill x enc = .ok (some ((encodeChars tab fill x).length, enc')) ∧
      enc'.take (encodeChars tab fill x).length = encodeChars tab fill x := by
  have hlen : (encodeChars tab fill x).length
      = if fill then (x.length + 2) / 3 * 4 else (x.length + 2) / 3 * 4 - padOf x.length := by
    cases fill
    · exact length_encodeChars_false tab x
    · exact length_encodeChars_fill tab x
  have hfit : 0 + (encodeChars tab fill x ++ [0]).length ≤ enc.length := by
    rw [List.length_append, hlen, List.length_singleton]
    split <;> omega
  refine ⟨overwrite enc 0 (encodeChars tab fill x ++ [0]), ?_, ?_⟩
  · rw [encodeTo, if_neg (by omega), memWrite_bind hfit, hlen]
    rfl
  · rw [overwrite, List.take_zero, List.nil_append, List.append_assoc, List.take_left]

/-! ### The round trips -/

/-- What `a2base64` wrote is decoded by `base64dec` to the input, with its length returned, in
every pair of buffers that are large enough. -/
def Base64RoundTrips (x : CStr) : Prop :=
  ∀ enc dec : CStr, (x.length + 2) / 3 * 4 < enc.length → x.length ≤ dec.length →
    ∃ n enc' dec', a2base64 x enc = .ok (some (n, enc')) ∧
      base64dec (enc'.take n) dec = .ok (.ok (x.length, dec')) ∧ dec'.take x.length = x

/-- The same for `a2base64url` and `base64urldec`. -/
def Base64UrlRoundTrips (x : CStr) : Prop :=
  ∀ enc dec : CStr, (x.length + 2) / 3 * 4 < enc.length → x.length ≤ dec.length →
    ∃ n enc' dec', a2base64url x enc = .ok (some (n, enc')) ∧
      base64urldec (enc'.take n) dec = .ok (x.length, dec') ∧ dec'.take x.length = x

theorem charBefore_eq {s : CStr} {k : ℕ} (h : k ≤ s.length) :
    charBefore s k = .ok (s.getD (s.length - k) 0) := if_pos h

theorem isPad_of_replicate (l : CStr) {p k : ℕ} (hk : 0 < k) (h : k ≤ p) :
    isPad ((l ++ List.replicate p 61).getD ((l ++ List.replicate p 61).length - k) 0) = 1 := by
  have hlen : (l ++ List.replicate p (61 : UInt8)).length = l.length + p := by
    rw [List.length_append, List.length_replicate]
  rw [hlen, List.getD_append_right _ _ _ _ (by omega),
    List.getD_replicate _ (by omega)]
  rfl

theorem padOf_le_isPad (tab x : CStr) :
    padOf x.length ≤ isPad ((encodeChars tab true x).getD ((encodeChars tab true x).length - 1) 0)
      + isPad ((encodeChars tab true x).getD ((encodeChars tab true x).length - 2) 0) := by
  rw [encodeChars_fill]
  have h1 := fun h => isPad_of_replicate (encodeChars tab false x) (p := padOf x.length) Nat.one_pos h
  have h2 := fun h => isPad_of_replicate (encodeChars tab false x) (p := padOf x.length) Nat.two_pos h
  have hle : padOf x.length ≤ 2 := by
    rw [padOf]
    split <;> omega
  obtain hp | hp | hp : padOf x.length = 0 ∨ padOf x.length = 1 ∨ padOf x.length = 2 := by omega
  · rw [hp]
    exact Nat.zero_le _
  · rw [h1 (by omega)]
    omega
  · rw [h1 (by omega), h2 (by omega), hp]

theorem base64dec_nil (dec : CStr) : base64dec [] dec = .error .outOfBounds := rfl

theorem base64RoundTrips_iff (x : CStr) : Base64RoundTrips x ↔ x ≠ [] := by
  constructor
  · rintro h rfl
    obtain ⟨n, enc', dec', henc, hdec, -⟩ := h [0] [] (by decide) (by decide)
    obtain ⟨enc'', henc'', -⟩ := encodeTo_eq base64tab true (x := []) (show 0 < [0].length by decide)
    have hn : n = 0 := by
      rw [a2base64, henc''] at henc
      cases henc
      rfl
    rw [hn, List.take_zero, base64dec_nil] at hdec
    cases hdec
  · intro hx enc dec henc hdec
    have hpos : 0 < x.length := List.length_pos_iff.mpr hx
    obtain ⟨enc', henc', htake⟩ := encodeTo_eq base64tab true henc
    obtain ⟨out', -, hout, hfold⟩ := foldlM_encodeChars_std x 0 dec (by rwa [Nat.zero_add])
    refine ⟨_, enc', out', henc', ?_, by rwa [Nat.zero_add] at hout⟩
    rw [htake, base64dec]
    have hlen := length_encodeChars_fill base64tab x
    have hneed : (encodeChars base64tab true x).length / 4 * 3 ≤ x.length + padOf x.length := by
      rw [hlen, padOf]
      split <;> omega
    have hpads := padOf_le_isPad base64tab x
    rw [if_neg (by omega), charBefore_eq (by omega), charBefore_eq (by omega)]
    show (if dec.length < _ - isPad _ - isPad _ then _ else _) = _
    rw [if_neg (by omega), hfold, Nat.zero_add]
    rfl

theorem base64UrlRoundTrips (x : CStr) : Base64UrlRoundTrips x := by
  intro enc dec henc hdec
  obtain ⟨enc', henc', htake⟩ := encodeTo_eq ubase64tab false henc
  obtain ⟨out', -, hout, hfold⟩ := foldlM_encodeChars_url x 0 dec (by rwa [Nat.zero_add])
  obtain ⟨st, hst, hfill⟩ := Option.map_eq_some_iff.mp hfold
  refine ⟨_, enc', out', henc', ?_, by rwa [Nat.zero_add] at hout⟩
  have hlen := length_encodeChars_false ubase64tab x
  have hp : padOf x.length ≤ 2 ∧ padOf x.length ≤ (x.length + 2) / 3 * 4 := by
    rw [padOf]
    split <;> omega
  have hpad : urlPadlen ((encodeChars ubase64tab false x).length % 4) = some (padOf x.length) := by
    obtain h | h | h : padOf x.length = 0 ∨ padOf x.length = 1 ∨ padOf x.length = 2 := by omega
    · rw [hlen, h, Nat.sub_zero, Nat.mul_mod_left]
      rfl
    · rw [hlen, h, show ((x.length + 2) / 3 * 4 - 1) % 4 = 3 by omega]
      rfl
    · rw [hlen, h, show ((x.length + 2) / 3 * 4 - 2) % 4 = 2 by omega]
      rfl
  have hneed : (x.length + 2) / 3 * 4 / 4 * 3 = x.length + padOf x.length := by
    rw [padOf]
    split <;> omega
  rw [htake, base64urldec, hpad]
  show (if dec.length < _ then _ else _) = _
  rw [if_neg (by omega), hst]
  show Except.ok ((urlFill _ st).convlen - _, (urlFill _ st).out) = _
  rw [hfill, Nat.zero_add, Nat.add_sub_cancel]

end SmartHAProxy
