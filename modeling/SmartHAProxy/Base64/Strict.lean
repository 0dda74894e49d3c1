/-
Which strings the decoders accept (src/base64.c).

`base64dec` forgets the padding of a group when the group is complete, so it accepts any
series of groups of four characters of which each is padded as the last one may be, and it
lets three equal signs pass (`base64dec_accepts_iff`).  In the table of `base64urldec` the
equal sign has a value, and is accepted everywhere (`base64urldec_accepts_iff`).
-/
import SmartHAProxy.Base64.RoundTrip

namespace SmartHAProxy

variable {st st' : DecState} {c : UInt8} {s : CStr}

/-! ### One turn of `base64dec` -/

theorem base64decStep_inv (h : base64decStep st c = some st') :
    (st.pad = 0 ∧ ∃ n < 64, c = tabChar base64tab n ∧ st' = st.put n 0) ∨
      (c = 61 ∧ (st.pad = 0 ∨ 2 ≤ st.t.length) ∧ st' = st.put b64padv (st.pad + 1)) := by
  obtain ⟨b, hb, hst⟩ := Option.bind_eq_some_iff.mp h
  by_cases hpad : 0 < st.pad ∧ b ≠ b64padv
  · rw [if_pos hpad] at hst
    cases hst
  by_cases hplace : 0 < st.pad ∧ st.t.length < 2
  · rw [if_neg hpad, if_pos hplace] at hst
    cases hst
  rw [if_neg hpad, if_neg hplace] at hst
  obtain rfl := Option.some.inj hst
  rcases stdValue_cases hb with ⟨hlt, rfl⟩ | ⟨rfl, rfl⟩
  · have hne : b ≠ b64padv := fun h => absurd hlt (by rw [h]; decide)
    have hzero : st.pad = 0 := Nat.eq_zero_of_not_pos fun h => hpad ⟨h, hne⟩
    refine .inl ⟨hzero, b, hlt, rfl, ?_⟩
    rw [if_neg hne, hzero]
  · refine .inr ⟨rfl, by omega, ?_⟩
    rw [if_pos rfl]

theorem foldlM_cons_eq_some {σ α : Type} {f : σ → α → Option σ} {s s' : σ} {x : α} {l : List α}
    (h : (x :: l).foldlM f s = some s') : ∃ s₁, f s x = some s₁ ∧ l.foldlM f s₁ = some s' := by
  rw [List.foldlM_cons] at h
  exact Option.bind_eq_some_iff.mp h

/-! ### A group of four characters -/

/-- What `base64dec` takes for a group: characters of the alphabet, at least one, and equal signs
behind them. -/
def IsGroup (g : CStr) : Prop :=
  g.length = 4 ∧ ∃ body k, g = body ++ List.replicate k 61 ∧ body ≠ [] ∧ ∀ c ∈ body, c ∈ base64tab

theorem tabChar_mem_base64tab {n : UInt8} (h : n < 64) : tabChar base64tab n ∈ base64tab :=
  tabChar_mem (by rw [length_base64tab]; exact h)

theorem foldlM_std_zero {n0 : UInt8} (h0 : n0 < 64) (convlen : ℕ) (out : CStr) :
    [tabChar base64tab n0, 61, 61, 61].foldlM base64decStep ⟨[], convlen, 0, out⟩
      = some ⟨[], convlen, 0, putGroup out convlen n0 b64padv b64padv b64padv⟩ := by
  have h2 : 2 ≤ [n0, b64padv].length := Nat.le_refl 2
  have h3 : 2 ≤ [n0, b64padv, b64padv].length := Nat.le_succ 2
  rw [foldlM_cons_some (base64decStep_tabChar rfl h0),
    foldlM_cons_some (base64decStep_equal (.inl rfl)),
    foldlM_cons_some (base64decStep_equal (.inr h2)),
    foldlM_cons_some (base64decStep_equal (.inr h3))]
  rfl

theorem IsGroup.accepted {g : CStr} (hg : IsGroup g) (convlen : ℕ) (out : CStr) :
    ∃ convlen' out', g.foldlM base64decStep ⟨[], convlen, 0, out⟩
      = some ⟨[], convlen', 0, out'⟩ := by
  obtain ⟨hlen, body, k, rfl, hne, hmem⟩ := hg
  rw [List.length_append, List.length_replicate] at hlen
  have hval : ∀ c ∈ body, ∃ n < 64, c = tabChar base64tab n := fun c hc =>
    exists_tabChar length_base64tab (hmem c hc)
  match body, hne with
  | [c0], _ =>
    obtain ⟨n0, h0, rfl⟩ := hval c0 (by simp)
    obtain rfl : k = 3 := by simp at hlen; omega
    exact ⟨_, _, foldlM_std_zero h0 convlen out⟩
  | [c0, c1], _ =>
    obtain ⟨n0, h0, rfl⟩ := hval c0 (by simp)
    obtain ⟨n1, h1, rfl⟩ := hval c1 (by simp)
    obtain rfl : k = 2 := by simp at hlen; omega
    exact ⟨_, _, foldlM_std_one h0 h1⟩
  | [c0, c1, c2], _ =>
    obtain ⟨n0, h0, rfl⟩ := hval c0 (by simp)
    obtain ⟨n1, h1, rfl⟩ := hval c1 (by simp)
    obtain ⟨n2, h2, rfl⟩ := hval c2 (by simp)
    obtain rfl : k = 1 := by simp at hlen; omega
    exact ⟨_, _, foldlM_std_two h0 h1 h2⟩
  | [c0, c1, c2, c3], _ =>
    obtain ⟨n0, h0, rfl⟩ := hval c0 (by simp)
    obtain ⟨n1, h1, rfl⟩ := hval c1 (by simp)
    obtain ⟨n2, h2, rfl⟩ := hval c2 (by simp)
    obtain ⟨n3, h3, rfl⟩ := hval c3 (by simp)
    obtain rfl : k = 0 := by simp at hlen; omega
    exact ⟨_, _, foldlM_std_three h0 h1 h2 h3⟩
  | _ :: _ :: _ :: _ :: _ :: _, _ =>
    simp only [List.length_cons] at hlen
    omega

theorem base64decStep_inv_pad (hpad : 0 < st.pad) (h : base64decStep st c = some st') :
    c = 61 ∧ 2 ≤ st.t.length ∧ st' = st.put b64padv (st.pad + 1) := by
  rcases base64decStep_inv h with ⟨hz, -⟩ | ⟨hc, hplace, hst⟩
  · omega
  · exact ⟨hc, by omega, hst⟩

theorem isGroup_of_accepted {c0 c1 c2 c3 : UInt8} {convlen : ℕ} {out : CStr}
    (h : [c0, c1, c2, c3].foldlM base64decStep ⟨[], convlen, 0, out⟩ = some st') :
    IsGroup [c0, c1, c2, c3] ∧ ∃ convlen' out', st' = ⟨[], convlen', 0, out'⟩ := by
  obtain ⟨s1, h1, h⟩ := foldlM_cons_eq_some h
  obtain ⟨s2, h2, h⟩ := foldlM_cons_eq_some h
  obtain ⟨s3, h3, h⟩ := foldlM_cons_eq_some h
  obtain ⟨s4, h4, h⟩ := foldlM_cons_eq_some h
  obtain rfl := Option.some.inj h
  rcases base64decStep_inv h1 with ⟨-, n0, hn0, rfl, rfl⟩ | ⟨-, -, rfl⟩
  · have hc0 := tabChar_mem_base64tab hn0
    rcases base64decStep_inv h2 with ⟨-, n1, hn1, rfl, rfl⟩ | ⟨rfl, -, rfl⟩
    · have hc1 := tabChar_mem_base64tab hn1
      rcases base64decStep_inv h3 with ⟨-, n2, hn2, rfl, rfl⟩ | ⟨rfl, -, rfl⟩
      · have hc2 := tabChar_mem_base64tab hn2
        rcases base64decStep_inv h4 with ⟨-, n3, hn3, rfl, rfl⟩ | ⟨rfl, -, rfl⟩
        · have hc3 := tabChar_mem_base64tab hn3
          exact ⟨⟨rfl, [_, _, _, _], 0, rfl, List.cons_ne_nil _ _, by simp [*]⟩, _, _, rfl⟩
        · exact ⟨⟨rfl, [_, _, _], 1, rfl, List.cons_ne_nil _ _, by simp [*]⟩, _, _, rfl⟩
      · obtain ⟨rfl, -, rfl⟩ := base64decStep_inv_pad (Nat.succ_pos 0) h4
        exact ⟨⟨rfl, [_, _], 2, rfl, List.cons_ne_nil _ _, by simp [*]⟩, _, _, rfl⟩
    · obtain ⟨rfl, -, rfl⟩ := base64decStep_inv_pad (Nat.succ_pos 0) h3
      obtain ⟨rfl, -, rfl⟩ := base64decStep_inv_pad (Nat.succ_pos 1) h4
      exact ⟨⟨rfl, [_], 3, rfl, List.cons_ne_nil _ _, by simp [*]⟩, _, _, rfl⟩
  · -- an equal sign in the first place: the second place is refused
    obtain ⟨-, hplace, -⟩ := base64decStep_inv_pad (Nat.succ_pos 0) h2
    exact absurd (show 2 ≤ 1 from hplace) (by decide)

/-! ### The strings that `base64dec` accepts -/

def IsGroups (s : CStr) : Prop := ∃ gs : List CStr, s = gs.flatten ∧ ∀ g ∈ gs, IsGroup g

theorem IsGroups.accepted (h : IsGroups s) (convlen : ℕ) (out : CStr) :
    ∃ st, s.foldlM base64decStep ⟨[], convlen, 0, out⟩ = some st := by
  obtain ⟨gs, rfl, hgs⟩ := h
  induction gs generalizing convlen out with
  | nil => exact ⟨_, rfl⟩
  | cons g gs ih =>
    obtain ⟨convlen', out', hg⟩ := (hgs g List.mem_cons_self).accepted convlen out
    obtain ⟨st, hst⟩ := ih convlen' out' fun g' h' => hgs g' (List.mem_cons_of_mem g h')
    refine ⟨st, ?_⟩
    rw [List.flatten_cons, List.foldlM_append, hg, Option.bind_eq_bind, Option.bind_some, hst]

theorem IsGroups.length_mod (h : IsGroups s) : s.length % 4 = 0 := by
  obtain ⟨gs, rfl, hgs⟩ := h
  induction gs with
  | nil => rfl
  | cons g gs ih =>
    rw [List.flatten_cons, List.length_append, (hgs g List.mem_cons_self).1, Nat.add_mod_left]
    exact ih fun g' h' => hgs g' (List.mem_cons_of_mem g h')

theorem isGroups_of_accepted : ∀ (s : CStr) {convlen : ℕ} {out : CStr} {st : DecState},
    s.length % 4 = 0 → s.foldlM base64decStep ⟨[], convlen, 0, out⟩ = some st → IsGroups s
  | [], _, _, _, _, _ => ⟨[], rfl, fun _ h => absurd h List.not_mem_nil⟩
  | [_], _, _, _, hlen, _ => absurd (show 1 = 0 from hlen) (by decide)
  | [_, _], _, _, _, hlen, _ => absurd (show 2 = 0 from hlen) (by decide)
  | [_, _, _], _, _, _, hlen, _ => absurd (show 3 = 0 from hlen) (by decide)
  | c0 :: c1 :: c2 :: c3 :: rest, convlen, out, st, hlen, h => by
    have hsplit : c0 :: c1 :: c2 :: c3 :: rest = [c0, c1, c2, c3] ++ rest := rfl
    rw [hsplit, List.foldlM_append] at h
    obtain ⟨st₁, hst₁, hrest⟩ := Option.bind_eq_some_iff.mp h
    obtain ⟨hg, convlen', out', rfl⟩ := isGroup_of_accepted hst₁
    have hlen' : rest.length % 4 = 0 := by
      simp only [List.length_cons] at hlen
      omega
    obtain ⟨gs, rfl, hgs⟩ := isGroups_of_accepted rest hlen' hrest
    refine ⟨[c0, c1, c2, c3] :: gs, rfl, fun g hmem => ?_⟩
    rcases List.mem_cons.mp hmem with rfl | hmem
    · exact hg
    · exact hgs g hmem

theorem base64dec_eq (hlen : s.length % 4 = 0) (hne : s ≠ []) (out : CStr) :
    base64dec s out
      = if out.length < s.length / 4 * 3 - isPad (s.getD (s.length - 1) 0)
            - isPad (s.getD (s.length - 2) 0) then .ok (.error (-2))
        else .ok (((s.foldlM base64decStep ⟨[], 0, 0, out⟩).map fun st => (st.convlen, st.out)).elim
          (.error (-1)) .ok) := by
  have hpos := List.length_pos_iff.mpr hne
  rw [base64dec, if_neg (not_not.mpr hlen), charBefore_eq (by omega), charBefore_eq (by omega)]
  show (if _ then _ else _) = _
  congr 1
  cases s.foldlM base64decStep ⟨[], 0, 0, out⟩ <;> rfl

theorem base64dec_accepts_iff (s : CStr) :
    (∃ out n out', base64dec s out = .ok (.ok (n, out'))) ↔ IsGroups s ∧ s ≠ [] := by
  constructor
  · rintro ⟨out, n, out', h⟩
    have hlen : s.length % 4 = 0 := by
      by_contra hlen
      rw [base64dec, if_pos hlen] at h
      cases h
    have hne : s ≠ [] := by
      rintro rfl
      cases h
    rw [base64dec_eq hlen hne] at h
    split at h
    · cases h
    · cases hfold : s.foldlM base64decStep ⟨[], 0, 0, out⟩ with
      | none =>
        rw [hfold] at h
        cases h
      | some st => exact ⟨isGroups_of_accepted s hlen hfold, hne⟩
  · rintro ⟨hs, hne⟩
    obtain ⟨st, hst⟩ := hs.accepted 0 (List.replicate s.length 0)
    refine ⟨List.replicate s.length 0, st.convlen, st.out, ?_⟩
    rw [base64dec_eq hs.length_mod hne, if_neg, hst]
    · rfl
    · rw [List.length_replicate]
      omega

/-! ### Padding -/

/-- Characters of the alphabet, and up to two equal signs behind them. -/
def Base64Shape (s : CStr) : Prop :=
  ∃ body k, k ≤ 2 ∧ s = body ++ List.replicate k 61 ∧ ∀ c ∈ body, c ∈ base64tab

/-- A series of groups in which a group before the last one is padded, or the last one has three
equal signs. -/
def MisPadded (s : CStr) : Prop :=
  ∃ (gs : List CStr) (last : CStr), s = gs.flatten ++ last ∧ (∀ g ∈ gs, IsGroup g) ∧ IsGroup last ∧
    ((∃ g ∈ gs, 61 ∈ g) ∨ last.count 61 = 3)

/-- `base64dec` succeeds only for characters of the alphabet with final padding. -/
def Base64Strict (s : CStr) : Prop :=
  ∀ out n out', base64dec s out = .ok (.ok (n, out')) → Base64Shape s

/-- `base64urldec` succeeds only for characters of the alphabet. -/
def Base64UrlStrict (s : CStr) : Prop :=
  ∀ out n out', base64urldec s out = .ok (n, out') → ∀ c ∈ s, c ∈ ubase64tab

theorem equal_not_mem_body {body : CStr} (h : ∀ c ∈ body, c ∈ base64tab) : (61 : UInt8) ∉ body :=
  fun h61 => equal_not_mem_base64tab (h 61 h61)

theorem count_group {body : CStr} (h : ∀ c ∈ body, c ∈ base64tab) (k : ℕ) :
    (body ++ List.replicate k 61).count 61 = k := by
  rw [List.count_append, List.count_eq_zero_of_not_mem (equal_not_mem_body h),
    List.count_replicate_self, Nat.zero_add]

theorem Base64Shape.take (h : Base64Shape s) : (61 : UInt8) ∉ s.take (s.length - 2) := by
  obtain ⟨body, k, hk, rfl, hbody⟩ := h
  intro hmem
  rw [List.length_append, List.length_replicate, List.take_append_of_le_length (by omega)] at hmem
  exact equal_not_mem_body hbody (List.mem_of_mem_take hmem)

theorem MisPadded.take (h : MisPadded s) : (61 : UInt8) ∈ s.take (s.length - 2) := by
  obtain ⟨gs, last, rfl, -, ⟨hlen, body, k, hlast, -, hbody⟩, hpad⟩ := h
  have htake : (gs.flatten ++ last).take ((gs.flatten ++ last).length - 2)
      = gs.flatten ++ last.take 2 := by
    rw [List.length_append, hlen, List.take_append, List.take_of_length_le (by omega)]
    congr 2
    omega
  rw [htake, List.mem_append]
  rcases hpad with ⟨g, hg, h61⟩ | hcount
  · exact .inl (List.mem_flatten.mpr ⟨g, hg, h61⟩)
  · right
    rw [hlast, count_group hbody] at hcount
    rw [hlast, hcount, List.length_append, List.length_replicate] at hlen
    obtain ⟨c, rfl⟩ := List.length_eq_one_iff.mp (show body.length = 1 by omega)
    rw [hlast, hcount]
    exact List.mem_cons_of_mem c List.mem_cons_self

theorem base64Strict_iff (s : CStr) : Base64Strict s ↔ ¬ MisPadded s := by
  constructor
  · intro h hmis
    obtain ⟨gs, last, hs, hgs, hlast, -⟩ := id hmis
    have hne : s ≠ [] := by
      rintro rfl
      obtain ⟨-, rfl⟩ := List.append_eq_nil_iff.mp hs.symm
      exact absurd hlast.1 (by decide)
    have hgroups : IsGroups s := ⟨gs ++ [last], by simpa using hs, fun g hg => by
      rcases List.mem_append.mp hg with hg | hg
      · exact hgs g hg
      · rwa [List.mem_singleton.mp hg]⟩
    obtain ⟨out, n, out', hdec⟩ := (base64dec_accepts_iff s).mpr ⟨hgroups, hne⟩
    exact (h out n out' hdec).take hmis.take
  · intro hmis out n out' hdec
    obtain ⟨⟨gs, rfl, hgs⟩, hne⟩ := (base64dec_accepts_iff s).mp ⟨out, n, out', hdec⟩
    obtain rfl | ⟨init, last, rfl⟩ := List.eq_nil_or_concat gs
    · exact absurd rfl hne
    rw [List.concat_eq_append] at hgs hmis hne ⊢
    have hinit : ∀ g ∈ init, IsGroup g := fun g hg => hgs g (List.mem_append_left _ hg)
    have hlast : IsGroup last := hgs last (List.mem_append_right _ List.mem_cons_self)
    have hs : (init ++ [last]).flatten = init.flatten ++ last := by
      rw [List.flatten_append, List.flatten_singleton]
    -- there is no padding before the last group, and at most two equal signs in it
    have hclean : ∀ g ∈ init, (61 : UInt8) ∉ g := fun g hg h61 =>
      hmis ⟨init, last, hs, hinit, hlast, .inl ⟨g, hg, h61⟩⟩
    have hcount : last.count 61 ≠ 3 := fun h => hmis ⟨init, last, hs, hinit, hlast, .inr h⟩
    obtain ⟨hlen, body, k, rfl, hbody, hmem⟩ := hlast
    rw [count_group hmem] at hcount
    have hpos := List.length_pos_iff.mpr hbody
    rw [List.length_append, List.length_replicate] at hlen
    refine ⟨init.flatten ++ body, k, by omega, by rw [hs, List.append_assoc], fun c hc => ?_⟩
    rcases List.mem_append.mp hc with hc | hc
    · obtain ⟨g, hg, hcg⟩ := List.mem_flatten.mp hc
      obtain ⟨-, body', k', rfl, -, hmem'⟩ := hinit g hg
      rcases List.mem_append.mp hcg with hcg | hcg
      · exact hmem' c hcg
      · rw [(List.mem_replicate.mp hcg).2] at hcg
        exact absurd (List.mem_append_right body' hcg) (hclean _ hg)
    · exact hmem c hc

/-! ### The strings that `base64urldec` accepts -/

theorem urlValue_isSome (h : c ∈ ubase64tab ∨ c = 61) : ∃ b, urlValue c = some b := by
  rcases h with h | rfl
  · obtain ⟨n, hn, rfl⟩ := exists_tabChar length_ubase64tab h
    exact ⟨n, urlValue_tabChar hn⟩
  · exact ⟨63, urlValue_equal⟩

theorem foldlM_url_isSome (h : ∀ c ∈ s, c ∈ ubase64tab ∨ c = 61) (st : DecState) :
    ∃ st', s.foldlM base64urldecStep st = some st' := by
  induction s generalizing st with
  | nil => exact ⟨st, rfl⟩
  | cons c s ih =>
    obtain ⟨b, hb⟩ := urlValue_isSome (h c List.mem_cons_self)
    obtain ⟨st', hst'⟩ := ih (fun c' h' => h c' (List.mem_cons_of_mem c h')) (st.put b 0)
    have hstep : base64urldecStep st c = some (st.put b 0) := by
      rw [base64urldecStep, hb, Option.map_some]
    refine ⟨st', ?_⟩
    rw [foldlM_cons_some hstep, hst']

theorem mem_of_foldlM_url (h : s.foldlM base64urldecStep st = some st') :
    ∀ c ∈ s, c ∈ ubase64tab ∨ c = 61 := by
  induction s generalizing st with
  | nil => exact fun c hc => absurd hc List.not_mem_nil
  | cons c s ih =>
    obtain ⟨st₁, hst₁, hrest⟩ := foldlM_cons_eq_some h
    obtain ⟨b, hb, -⟩ := Option.map_eq_some_iff.mp hst₁
    obtain ⟨hlt, hc⟩ := urlValue_cases hb
    intro c' hc'
    rcases List.mem_cons.mp hc' with rfl | hc'
    · refine hc.imp_left fun heq => ?_
      rw [heq]
      exact tabChar_mem (by rw [length_ubase64tab]; exact hlt)
    · exact ih hrest c' hc'

theorem urlPadlen_eq_none_iff {n : ℕ} (h : n < 4) : urlPadlen n = none ↔ n = 1 := by
  obtain rfl | rfl | rfl | rfl : n = 0 ∨ n = 1 ∨ n = 2 ∨ n = 3 := by omega
  all_goals simp [urlPadlen]

/-- With an output that is large enough, `base64urldec` accepts the characters of the alphabet and
equal signs in any order, but with one character in the last group. -/
theorem base64urldec_accepts_iff (s : CStr) :
    (∃ out n out', base64urldec s out = .ok (n, out')) ↔
      s.length % 4 ≠ 1 ∧ ∀ c ∈ s, c ∈ ubase64tab ∨ c = 61 := by
  have hmod : s.length % 4 < 4 := Nat.mod_lt _ (by decide)
  constructor
  · rintro ⟨out, n, out', h⟩
    rw [base64urldec] at h
    cases hpad : urlPadlen (s.length % 4) with
    | none =>
      rw [hpad] at h
      cases h
    | some padlen =>
      refine ⟨fun h1 => ?_, ?_⟩
      · rw [(urlPadlen_eq_none_iff hmod).mpr h1] at hpad
        cases hpad
      · simp only [hpad] at h
        split at h
        · cases h
        · cases hfold : s.foldlM base64urldecStep ⟨[], 0, 0, out⟩ with
          | none =>
            rw [hfold] at h
            cases h
          | some st => exact mem_of_foldlM_url hfold
  · rintro ⟨hlen, hmem⟩
    obtain ⟨padlen, hpad⟩ := Option.ne_none_iff_exists'.mp
      (mt (urlPadlen_eq_none_iff hmod).mp hlen)
    obtain ⟨st, hst⟩ := foldlM_url_isSome hmem ⟨[], 0, 0, List.replicate s.length 0⟩
    have hle : padlen ≤ 2 := by
      obtain h | h | h : s.length % 4 = 0 ∨ s.length % 4 = 2 ∨ s.length % 4 = 3 := by omega
      all_goals
        rw [h] at hpad
        cases hpad
        decide
    refine ⟨List.replicate s.length 0, (urlFill padlen st).convlen - padlen,
      (urlFill padlen st).out, ?_⟩
    rw [base64urldec, hpad]
    show (if _ then _ else _) = _
    rw [if_neg, hst]
    rw [List.length_replicate]
    omega

theorem base64UrlStrict_iff (s : CStr) : Base64UrlStrict s ↔
    ¬ (61 ∈ s ∧ s.length % 4 ≠ 1 ∧ ∀ c ∈ s, c ∈ ubase64tab ∨ c = 61) := by
  constructor
  · rintro h ⟨h61, hacc⟩
    obtain ⟨out, n, out', hdec⟩ := (base64urldec_accepts_iff s).mpr hacc
    exact equal_not_mem_ubase64tab (h out n out' hdec 61 h61)
  · intro h out n out' hdec c hc
    have hacc := (base64urldec_accepts_iff s).mp ⟨out, n, out', hdec⟩
    rcases hacc.2 c hc with hc' | rfl
    · exact hc'
    · exact absurd ⟨hc, hacc⟩ h

/-! ### Round trips and strictness -/

/-- **The round trips fail for the empty input of `base64dec` alone, and the decoders are strict
except for misplaced padding.** -/
theorem base64_exact (x s : CStr) :
    (Base64RoundTrips x ↔ x ≠ []) ∧ Base64UrlRoundTrips x ∧ (Base64Strict s ↔ ¬ MisPadded s) ∧
      (Base64UrlStrict s ↔
        ¬ (61 ∈ s ∧ s.length % 4 ≠ 1 ∧ ∀ c ∈ s, c ∈ ubase64tab ∨ c = 61)) :=
  ⟨base64RoundTrips_iff x, base64UrlRoundTrips x, base64Strict_iff s, base64UrlStrict_iff s⟩

/-- The empty input, `"QQ==QQ=="` for `base64dec`, and `"===="` for `base64urldec`. -/
theorem base64_not_strict :
    ¬ ((∀ x, Base64RoundTrips x ∧ Base64UrlRoundTrips x) ∧
      ∀ s, Base64Strict s ∧ Base64UrlStrict s) ∧
    ¬ Base64RoundTrips [] ∧ ¬ Base64Strict [81, 81, 61, 61, 81, 81, 61, 61] ∧
    ¬ Base64UrlStrict [61, 61, 61, 61] := by
  have hx : ¬ Base64RoundTrips [] := fun h => (base64RoundTrips_iff []).mp h rfl
  have hq : (81 : UInt8) ∈ base64tab := by
    rw [base64tab_eq]
    exact List.mem_map.mpr ⟨81, by decide, rfl⟩
  have hg : IsGroup [81, 81, 61, 61] :=
    ⟨rfl, [81, 81], 2, rfl, List.cons_ne_nil _ _, by simpa using hq⟩
  have hs : ¬ Base64Strict [81, 81, 61, 61, 81, 81, 61, 61] := fun h =>
    (base64Strict_iff _).mp h ⟨[[81, 81, 61, 61]], [81, 81, 61, 61], rfl,
      fun g hmem => List.mem_singleton.mp hmem ▸ hg, hg, .inl ⟨_, List.mem_cons_self, by decide⟩⟩
  have hu : ¬ Base64UrlStrict [61, 61, 61, 61] := fun h =>
    (base64UrlStrict_iff _).mp h ⟨by decide, by decide, by simp⟩
  exact ⟨fun h => hx (h.1 []).1, hx, hs, hu⟩

end SmartHAProxy
