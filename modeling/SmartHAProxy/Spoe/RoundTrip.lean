/-
What is encoded is decoded, and what is decoded is inside.

* `spoeEncodeRun_eq`: the pieces of a sample make up its form, `spoeForm`, wherever
  the buffers end;
* `spoeDecodeData_form`: the form is decoded to the sample, whatever follows it;
* `spoeDecodeData_safe_iff`: on arbitrary bytes, a decoding call takes no more than
  there is exactly when the length it reads, added to the address, does not wrap
  around.

The limits come from the `int` in which the code counts: a string of `2 ^ 32 - 1`
bytes, or a typed data of as many, has the length that stands for an error.
-/
import SmartHAProxy.Spoe.Data

namespace SmartHAProxy

variable {n i k room buf : ℕ} {len : UInt32} {r : SpoeEncoded} {smp : Option Sample} {ctx : FragCtx}
  {rooms : List ℕ} {out data : List UInt8}

/-! ### Numbers kept in an `int` -/

theorem toInt_eq (n : ℤ) :
    toInt n = if n % 2 ^ 32 < 2 ^ 31 then n % 2 ^ 32 else n % 2 ^ 32 - 2 ^ 32 := by
  rw [toInt, Int.bmod_def]
  rfl

theorem toInt_of_lt {n : ℤ} (h₀ : 0 ≤ n) (h : n < 2 ^ 31) : toInt n = n := by
  rw [toInt_eq]
  split_ifs <;> omega

theorem toInt_eq_neg_one_iff (n : ℤ) : toInt n = -1 ↔ n % 2 ^ 32 = 2 ^ 32 - 1 := by
  rw [toInt_eq]
  split_ifs <;> omega

theorem varintGroups_length_le (h : i < 2 ^ (7 * (n + 1))) : (varintGroups i).length ≤ n + 1 := by
  induction n generalizing i with
  | zero =>
    rw [varintGroups, if_neg (by omega)]
    simp
  | succ n ih =>
    rw [varintGroups]
    split_ifs with hi
    · have hdiv : (i - 128) >>> 7 < 2 ^ (7 * (n + 1)) := by
        rw [Nat.shiftRight_eq_div_pow]
        apply Nat.div_lt_of_lt_mul
        rw [← Nat.pow_add]
        exact (Nat.sub_le i 128).trans_lt (h.trans_le (Nat.pow_le_pow_right (by omega) (by omega)))
      have := ih hdiv
      simp only [List.length_cons]
      omega
    · simp

theorem varint_length_le (h : i < 2 ^ 64) : (varint i).length ≤ 10 := by
  rw [varint]
  split_ifs with hi
  · simp
  · have hdiv : (i - 240) >>> 4 < 2 ^ (7 * (8 + 1)) := by
      rw [Nat.shiftRight_eq_div_pow]
      omega
    have := varintGroups_length_le hdiv
    simp only [List.length_cons]
    omega

/-! ### The form of a sample -/

def spoeForm : Option Sample → List UInt8
  | none => [0x00]
  | some (.bool sint) => [0x01 ||| if sint = 0 then 0x00 else 0x10]
  | some (.sint sint) => 0x04 :: varint sint.toNat
  | some (.ipv4 a) => 0x06 :: a.toList
  | some (.ipv6 a) => 0x07 :: a.toList
  | some (.str str) => 0x08 :: (varint str.area.length ++ str.area)
  | some (.bin str) => 0x09 :: (varint str.area.length ++ str.area)
  | some (.meth m str) => 0x08 :: (varint (spoeMethName m str).length ++ spoeMethName m str)
  | some .other => [0x00]

/-! ### Strings in pieces -/

/-- The context after `k` of `n` bytes. -/
def FragCtx.at (n k : ℕ) : FragCtx := ⟨UInt32.ofNat n, UInt32.ofNat k⟩

theorem toNat_ofNat32 (h : k < 2 ^ 32) : (UInt32.ofNat k).toNat = k :=
  UInt32.toNat_ofNat_of_lt' h

theorem FragCtx.off_at_eq_zero_iff (hk : k < 2 ^ 32) : (FragCtx.at n k).off = 0 ↔ k = 0 := by
  rw [FragCtx.at, ← UInt32.toNat_inj, toNat_ofNat32 hk]
  rfl

theorem FragCtx.update_at {m : ℕ} (hn : n < 2 ^ 32) (hle : k + m ≤ n) :
    (FragCtx.at n k).update m = if k + m = n then FragCtx.at n 0 else FragCtx.at n (k + m) := by
  have hsum : UInt32.ofNat (Int.toNat m) + UInt32.ofNat k = UInt32.ofNat (k + m) := by
    rw [Int.toNat_natCast, Nat.add_comm k m, UInt32.ofNat_add]
  have hiff : UInt32.ofNat (k + m) = UInt32.ofNat n ↔ k + m = n := by
    rw [← UInt32.toNat_inj, toNat_ofNat32 (by omega), toNat_ofNat32 hn]
  rw [FragCtx.update]
  show (if UInt32.ofNat (Int.toNat m) + UInt32.ofNat k ≠ UInt32.ofNat n then
    (⟨UInt32.ofNat n, UInt32.ofNat k + UInt32.ofNat (Int.toNat m)⟩ : FragCtx)
    else ⟨UInt32.ofNat n, 0⟩) = _
  rw [UInt32.add_comm (UInt32.ofNat k), hsum]
  by_cases h : k + m = n
  · rw [if_neg (by simpa using hiff.mpr h), if_pos h]
    rfl
  · rw [if_pos (mt hiff.mp h), if_neg h]
    rfl

variable {type : UInt8} {str : SmpBuf}

theorem toInt_neg_iff (hn : n < 2 ^ 32) : toInt n < 0 ↔ ¬ n < 2 ^ 31 := by
  rw [toInt_eq]
  split_ifs <;> omega

theorem spoeEncodeFrag_next (hlen : str.area.length < 2 ^ 32) (hk : 0 < k)
    (hk' : k < str.area.length) (buf : ℕ) {m : ℕ} (hm : min (str.area.length - k) room = m) :
    spoeEncodeFrag type str (.at str.area.length k) buf room =
      if m < 2 ^ 31 then
        some (.finish buf ((FragCtx.at str.area.length k).update m) ((str.area.drop k).take m))
      else none := by
  have hoff : (FragCtx.at str.area.length k).off ≠ 0 := by
    rw [ne_eq, FragCtx.off_at_eq_zero_iff (by omega)]
    omega
  have hdiff : ((FragCtx.at str.area.length k).len - (FragCtx.at str.area.length k).off).toNat
      = str.area.length - k := by
    show (UInt32.ofNat _ - UInt32.ofNat k).toNat = _
    rw [UInt32.toNat_sub_of_le, toNat_ofNat32 hlen, toNat_ofNat32 (by omega)]
    rw [UInt32.le_iff_toNat_le, toNat_ofNat32 hlen, toNat_ofNat32 (by omega)]
    omega
  have hoff' : (FragCtx.at str.area.length k).off.toNat = k := toNat_ofNat32 (by omega)
  rw [spoeEncodeFrag, if_neg hoff, hdiff, hoff', hm]
  have hneg := toInt_neg_iff (n := m) (by omega)
  by_cases hlt : m < 2 ^ 31
  · rw [if_pos hlt, if_neg (by rw [hneg]; simpa using hlt), toInt_of_lt (by omega) (by omega),
      Int.toNat_natCast]
  · rw [if_neg hlt, if_pos (hneg.mpr hlt)]

/-- The first call for a string that is not empty: its length and `m` bytes. -/
theorem spoeEncodeFrag_first (hlen : str.area.length < 2 ^ 32) (hne : 0 < str.area.length)
    (len : UInt32) (buf : ℕ) {m : ℕ}
    (hm : min str.area.length (room - 1 - (varint str.area.length).length) = m) :
    spoeEncodeFrag type str ⟨len, 0⟩ buf room =
      if room - 1 ≤ (varint str.area.length).length then some (.error buf ⟨len, 0⟩)
      else if m < 2 ^ 31 then
        some (.finish buf ((FragCtx.at str.area.length 0).update m)
          (type :: (varint str.area.length ++ str.area.take m)))
      else none := by
  have hvpos := List.length_pos_iff.mpr (varint_ne_nil str.area.length)
  rw [spoeEncodeFrag, if_pos rfl]
  by_cases hroom : room - 1 ≤ (varint str.area.length).length
  · -- no room for the length and a byte
    have herror : spoeEncodeFragBuffer str.area (room - 1) = some (-1, []) := by
      rw [spoeEncodeFragBuffer]
      split_ifs with hzero hempty
      · rfl
      · omega
      · rcases hv : encodeVarint (room - 1) str.area.length with - | v
        · rfl
        · obtain ⟨rfl, -⟩ := encodeVarint_eq_some_iff.mp hv
          simp only
          rw [if_pos hroom]
    rw [herror, if_pos hroom]
    rfl
  · have hv : encodeVarint (room - 1) str.area.length = some (varint str.area.length) :=
      encodeVarint_eq_some_iff.mpr ⟨rfl, by omega⟩
    have hmin : (if str.area.length < room - 1 - (varint str.area.length).length then
        str.area.length else room - 1 - (varint str.area.length).length) = m := by
      split_ifs <;> omega
    have hneg := toInt_neg_iff (n := m) (by omega)
    rw [spoeEncodeFragBuffer, if_neg (by omega), if_neg (by omega), hv, if_neg hroom]
    simp only [hmin]
    rw [if_neg hroom]
    by_cases hlt : m < 2 ^ 31
    · rw [if_pos hlt, if_neg (by rw [hneg]; simpa using hlt), toInt_of_lt (by omega) (by omega),
        Int.toNat_natCast, Option.map_some, if_neg (by simp only; omega)]
      rfl
    · rw [if_neg hlt, if_pos (hneg.mpr hlt)]
      rfl

theorem spoeEncodeFrag_empty (hzero : str.area.length = 0)
    (h : spoeEncodeFrag type str ⟨len, 0⟩ buf room = some r) (hret : r.ret ≠ -1) :
    r = .finish buf ⟨0, 0⟩ [type, 0] := by
  rw [spoeEncodeFrag, if_pos rfl, Option.map_eq_some_iff] at h
  obtain ⟨⟨ret, out⟩, hbuf, rfl⟩ := h
  rw [spoeEncodeFragBuffer] at hbuf
  split_ifs at hbuf with hroom
  · simp only [Option.some.injEq, Prod.mk.injEq] at hbuf
    exact absurd (by rw [if_pos hbuf.1.symm]; rfl) hret
  · simp only [Option.some.injEq, Prod.mk.injEq] at hbuf
    obtain ⟨rfl, rfl⟩ := hbuf
    rw [if_neg (by decide), hzero]
    rfl

theorem spoeEncodeRun_cons (h : spoeEncodeRun smp ctx (room :: rooms) = some out) :
    ∃ r, room ≠ 0 ∧ spoeEncodeTyped smp ctx 0 room = some r ∧ r.ret ≠ -1 ∧
      ((r.ctx.off ≠ 0 ∧ ∃ out', spoeEncodeRun smp r.ctx rooms = some out' ∧ out = r.out ++ out') ∨
        (r.ctx.off = 0 ∧ rooms = [] ∧ out = r.out)) := by
  rw [spoeEncodeRun] at h
  rcases hr : spoeEncodeData smp ctx 0 room with - | r
  · rw [hr] at h
    cases h
  · rw [hr] at h
    simp only at h
    split_ifs at h with hret hoff hrooms
    · rw [Option.map_eq_some_iff] at h
      obtain ⟨out', hout', rfl⟩ := h
      rw [spoeEncodeData] at hr
      split_ifs at hr with hroom
      · rw [Option.some.injEq] at hr
        exact absurd (by rw [← hr]; rfl) hret
      · exact ⟨r, hroom, hr, hret, Or.inl ⟨hoff, out', hout', rfl⟩⟩
    · rw [spoeEncodeData] at hr
      split_ifs at hr with hroom
      · rw [Option.some.injEq] at hr
        exact absurd (by rw [← hr]; rfl) hret
      · exact ⟨r, hroom, hr, hret, Or.inr ⟨not_not.mp hoff, hrooms, by simpa using h.symm⟩⟩

theorem spoeEncodeRun_rest
    (hsmp : ∀ ctx room, spoeEncodeTyped smp ctx 0 room = spoeEncodeFrag type str ctx 0 room)
    (hlen : str.area.length < 2 ^ 32) (hk : 0 < k) (hk' : k < str.area.length)
    (h : spoeEncodeRun smp (.at str.area.length k) rooms = some out) : out = str.area.drop k := by
  induction rooms generalizing k out with
  | nil => simp [spoeEncodeRun] at h
  | cons room rooms ih =>
    obtain ⟨r, -, hr, -, hnext⟩ := spoeEncodeRun_cons h
    obtain ⟨m, hm⟩ : ∃ m, min (str.area.length - k) room = m := ⟨_, rfl⟩
    have hle : k + m ≤ str.area.length := by omega
    rw [hsmp, spoeEncodeFrag_next hlen hk hk' 0 hm] at hr
    split_ifs at hr
    obtain rfl := Option.some.inj hr
    have hcut : (str.area.drop k).take m ++ str.area.drop (k + m) = str.area.drop k := by
      rw [← List.drop_drop, List.take_append_drop]
    simp only [SpoeEncoded.finish, FragCtx.update_at hlen hle] at hnext
    by_cases hend : k + m = str.area.length
    · rw [if_pos hend] at hnext
      rcases hnext with ⟨hoff, -⟩ | ⟨-, -, rfl⟩
      · exact absurd rfl hoff
      · rwa [hend, List.drop_length, List.append_nil] at hcut
    · rw [if_neg hend] at hnext
      rcases hnext with ⟨-, out', hout', rfl⟩ | ⟨hoff, -⟩
      · rw [ih (by omega) (by omega) hout']
        exact hcut
      · rw [FragCtx.off_at_eq_zero_iff (by omega)] at hoff
        omega

/-- **The pieces of a string make up its form**, for strings whose length fits in
the context. -/
theorem spoeEncodeRun_str
    (hsmp : ∀ ctx room, spoeEncodeTyped smp ctx 0 room = spoeEncodeFrag type str ctx 0 room)
    (hlen : str.area.length < 2 ^ 32) (h : spoeEncodeRun smp ⟨len, 0⟩ rooms = some out) :
    out = type :: (varint str.area.length ++ str.area) := by
  rcases rooms with - | ⟨room, rooms⟩
  · simp [spoeEncodeRun] at h
  · obtain ⟨r, hroom, hr, hret, hnext⟩ := spoeEncodeRun_cons h
    rw [hsmp] at hr
    rcases Nat.eq_zero_or_pos str.area.length with hzero | hpos
    · obtain rfl := spoeEncodeFrag_empty hzero hr hret
      rcases hnext with ⟨hoff, -⟩ | ⟨-, -, rfl⟩
      · exact absurd rfl hoff
      · have hnil : str.area = [] := List.length_eq_zero_iff.mp hzero
        rw [hnil, List.length_nil, varint, if_pos (by decide)]
        rfl
    · obtain ⟨m, hm⟩ :
          ∃ m, min str.area.length (room - 1 - (varint str.area.length).length) = m := ⟨_, rfl⟩
      rw [spoeEncodeFrag_first hlen hpos len 0 hm] at hr
      split_ifs at hr with hfull
      · exact absurd (by rw [← Option.some.inj hr]; rfl) hret
      obtain rfl := Option.some.inj hr
      simp only [SpoeEncoded.finish, FragCtx.update_at hlen (show 0 + m ≤ _ by omega),
        Nat.zero_add] at hnext
      by_cases hend : m = str.area.length
      · rw [if_pos hend] at hnext
        rcases hnext with ⟨hoff, -⟩ | ⟨-, -, rfl⟩
        · exact absurd rfl hoff
        · rw [hend, List.take_length]
      · rw [if_neg hend] at hnext
        rcases hnext with ⟨-, out', hout', rfl⟩ | ⟨hoff, -⟩
        · rw [spoeEncodeRun_rest hsmp hlen (by omega) (by omega) hout']
          simp
        · rw [FragCtx.off_at_eq_zero_iff (by omega)] at hoff
          omega

/-! ### All types -/

def spoeSize : Option Sample → ℕ
  | some (.str str) => str.area.length
  | some (.bin str) => str.area.length
  | _ => 0

/-- Methods are sent in one piece, as strings. -/
def isMeth : Option Sample → Bool
  | some (.meth _ _) => true
  | _ => false

theorem spoeEncodeRun_single {form : List UInt8}
    (hsmp : ∀ ctx room r, spoeEncodeTyped smp ctx 0 room = some r →
      r = .error 0 ctx ∨ r = .finish 0 ctx form) (h : spoeEncodeRun smp ⟨len, 0⟩ rooms = some out) :
    out = form := by
  rcases rooms with - | ⟨room, rooms⟩
  · simp [spoeEncodeRun] at h
  · obtain ⟨r, -, hr, hret, hnext⟩ := spoeEncodeRun_cons h
    rcases hsmp _ _ r hr with rfl | rfl
    · exact absurd rfl hret
    · rcases hnext with ⟨hoff, -⟩ | ⟨-, -, rfl⟩
      · exact absurd rfl hoff
      · rfl

/-- **The pieces of a sample make up its form.** -/
theorem spoeEncodeRun_eq (hmeth : isMeth smp = false) (hsize : spoeSize smp < 2 ^ 32)
    (h : spoeEncodeRun smp ⟨len, 0⟩ rooms = some out) : out = spoeForm smp := by
  rcases smp with - | (v | v | a | a | str | str | ⟨m, str⟩ | -)
  · refine spoeEncodeRun_single (fun ctx room r hr => Or.inr ?_) h
    exact (Option.some.inj hr).symm
  · refine spoeEncodeRun_single (fun ctx room r hr => Or.inr ?_) h
    exact (Option.some.inj hr).symm
  · refine spoeEncodeRun_single (fun ctx room r hr => ?_) h
    rw [spoeEncodeTyped] at hr
    rcases hv : encodeVarint (room - 1) v.toNat with - | l
    · rw [hv] at hr
      exact Or.inl (Option.some.inj hr).symm
    · rw [hv] at hr
      rw [(encodeVarint_eq_some_iff.mp hv).1] at hr
      exact Or.inr (Option.some.inj hr).symm
  · refine spoeEncodeRun_single (fun ctx room r hr => ?_) h
    rw [spoeEncodeTyped, Option.some.injEq] at hr
    split_ifs at hr
    · exact Or.inl hr.symm
    · exact Or.inr hr.symm
  · refine spoeEncodeRun_single (fun ctx room r hr => ?_) h
    rw [spoeEncodeTyped, Option.some.injEq] at hr
    split_ifs at hr
    · exact Or.inl hr.symm
    · exact Or.inr hr.symm
  · exact spoeEncodeRun_str (fun _ _ => rfl) hsize h
  · exact spoeEncodeRun_str (fun _ _ => rfl) hsize h
  · cases hmeth
  · refine spoeEncodeRun_single (fun ctx room r hr => Or.inr ?_) h
    exact (Option.some.inj hr).symm

theorem toInt_lt (n : ℤ) : toInt n < 2 ^ 31 := by
  rw [toInt_eq]
  split_ifs <;> omega

theorem finish_ret (h : out.length + 1 < 2 ^ 32) (buf : ℕ) (ctx : FragCtx) :
    (SpoeEncoded.finish buf ctx out).ret ≠ -1 := by
  rw [SpoeEncoded.finish, ne_eq, toInt_eq_neg_one_iff]
  omega

theorem spoeEncodeFragBuffer_length {l : List UInt8} (hl : l.length < 2 ^ 64) {ret : ℤ}
    (h : spoeEncodeFragBuffer l room = some (ret, out)) : out.length ≤ 2 ^ 31 + 10 := by
  have hv := varint_length_le hl
  rw [spoeEncodeFragBuffer] at h
  split_ifs at h
  · simp only [Option.some.injEq, Prod.mk.injEq] at h
    simp [← h.2]
  · simp only [Option.some.injEq, Prod.mk.injEq] at h
    simp [← h.2]
  · rcases hv' : encodeVarint room l.length with - | v
    · rw [hv'] at h
      simp only [Option.some.injEq, Prod.mk.injEq] at h
      simp [← h.2]
    · obtain ⟨rfl, -⟩ := encodeVarint_eq_some_iff.mp hv'
      rw [hv'] at h
      simp only at h
      generalize (if l.length < room - (varint l.length).length then l.length
        else room - (varint l.length).length) = m at h
      split_ifs at h
      · simp only [Option.some.injEq, Prod.mk.injEq] at h
        simp [← h.2]
      · simp only [Option.some.injEq, Prod.mk.injEq] at h
        have := toInt_lt m
        rw [← h.2, List.length_append, List.length_take]
        omega

theorem spoeEncodeFrag_error (h : spoeEncodeFrag type str ctx buf room = some r)
    (hret : r.ret = -1) : r.buf = buf := by
  rw [spoeEncodeFrag] at h
  split_ifs at h with hoff
  · rw [Option.map_eq_some_iff] at h
    obtain ⟨⟨ret, out⟩, hbuf, rfl⟩ := h
    simp only at hret ⊢
    split_ifs at hret ⊢
    · rfl
    · have hlen := spoeEncodeFragBuffer_length str.length_lt hbuf
      exact absurd hret (finish_ret (by simp only [List.length_cons]; omega) _ _)
  · simp only at h
    split_ifs at h
    rw [Option.some.injEq] at h
    have := toInt_lt (min (ctx.len - ctx.off).toNat room : ℕ)
    rw [← h] at hret
    exact absurd hret (finish_ret (by rw [List.length_take]; omega) _ _)

theorem spoeEncodeData_error (hmeth : isMeth smp = false)
    (h : spoeEncodeData smp ctx buf room = some r) (hret : r.ret = -1) : r.buf = buf := by
  rw [spoeEncodeData] at h
  split_ifs at h
  · rw [← Option.some.inj h]
    rfl
  · rcases smp with - | (v | v | a | a | str | str | ⟨m, str⟩ | -)
    · rw [← Option.some.inj h] at hret
      exact absurd hret (finish_ret (by decide) _ _)
    · rw [← Option.some.inj h] at hret
      exact absurd hret (finish_ret (by simp) _ _)
    · rw [spoeEncodeTyped] at h
      rcases hv : encodeVarint (room - 1) v.toNat with - | l
      · rw [hv] at h
        rw [← Option.some.inj h]
        rfl
      · have hlen := varint_length_le v.toNat_lt
        rw [← (encodeVarint_eq_some_iff.mp hv).1] at hlen
        rw [hv] at h
        rw [← Option.some.inj h] at hret
        exact absurd hret (finish_ret (by simp only [List.length_cons]; omega) _ _)
    · rw [spoeEncodeTyped, Option.some.injEq] at h
      split_ifs at h
      · rw [← h]
        rfl
      · rw [← h] at hret
        exact absurd hret (finish_ret (by simp) _ _)
    · rw [spoeEncodeTyped, Option.some.injEq] at h
      split_ifs at h
      · rw [← h]
        rfl
      · rw [← h] at hret
        exact absurd hret (finish_ret (by simp) _ _)
    · exact spoeEncodeFrag_error h hret
    · exact spoeEncodeFrag_error h hret
    · cases hmeth
    · rw [← Option.some.inj h] at hret
      exact absurd hret (finish_ret (by decide) _ _)

/-! ### Decoding the form -/

theorem spoeDecodeVarint_varint (h : i < 2 ^ 64) (data : List UInt8) :
    spoeDecodeVarint (varint i ++ data) = some (UInt64.ofNat i, data) := by
  have hlen := varint_length_le h
  rw [spoeDecodeVarint, decodeVarint_varint h]
  simp only
  rw [if_neg]
  rw [toInt_eq_neg_one_iff, List.length_append]
  omega

theorem spoeDecodeBuffer_form {str : List UInt8} (hstr : str.length < 2 ^ 64)
    (hbuf : buf + (varint str.length ++ str ++ data).length < 2 ^ 64) :
    spoeDecodeBuffer buf (varint str.length ++ str ++ data)
      = ⟨toInt str.length, buf + (varint str.length).length + str.length,
          buf + (varint str.length).length, UInt64.ofNat str.length⟩ := by
  have hsz : (UInt64.ofNat str.length).toNat = str.length := UInt64.toNat_ofNat_of_lt' hstr
  simp only [List.length_append] at hbuf
  rw [spoeDecodeBuffer, List.append_assoc, spoeDecodeVarint_varint hstr]
  simp only [List.length_append, hsz]
  have hp : buf + ((varint str.length).length + (str.length + data.length)
      - (str.length + data.length)) = buf + (varint str.length).length := by omega
  rw [hp, Nat.mod_eq_of_lt (by omega), if_neg (by omega)]

/-- The sample filled in has the value of the one that was sent; a string is found
where the decoder says. -/
def SameValue (buf : ℕ) (data : List UInt8) : Option Sample → Option Filled → Prop
  | some (.bool v), smp => smp = some (.bool (if v = 0 then 0 else 1))
  | some (.sint v), smp => smp = some (.sint v)
  | some (.ipv4 a), smp => smp = some (.ipv4 a)
  | some (.ipv6 a), smp => smp = some (.ipv6 a)
  | some (.str str), smp => ∃ p, smp = some (.str (buf + p) (UInt64.ofNat str.area.length)) ∧
      (data.drop p).take str.area.length = str.area
  | some (.bin str), smp => ∃ p, smp = some (.bin (buf + p) (UInt64.ofNat str.area.length)) ∧
      (data.drop p).take str.area.length = str.area
  | some (.meth m str), smp =>
    ∃ p, smp = some (.str (buf + p) (UInt64.ofNat (spoeMethName m str).length)) ∧
      (data.drop p).take (spoeMethName m str).length = spoeMethName m str
  | none, smp => smp = none
  | some .other, smp => smp = none

theorem spoeSkipData_eq (buf : ℕ) (data : List UInt8) :
    spoeSkipData buf data = ((spoeDecodeData buf data).ret, (spoeDecodeData buf data).buf) := by
  rcases data with - | ⟨type, data⟩
  · rfl
  · rw [spoeSkipData, spoeDecodeData]
    generalize spoeType type = t
    simp only
    -- 1 boolean, 2 to 5 integers, 6 and 7 addresses, 8 and 9 strings, nothing else
    obtain - | - | - | - | - | - | - | - | - | - | t := t
    · rfl
    · rfl
    · rcases spoeDecodeVarint data with - | ⟨v, rest⟩ <;> rfl
    · rcases spoeDecodeVarint data with - | ⟨v, rest⟩ <;> rfl
    · rcases spoeDecodeVarint data with - | ⟨v, rest⟩ <;> rfl
    · rcases spoeDecodeVarint data with - | ⟨v, rest⟩ <;> rfl
    · simp only
      split_ifs <;> rfl
    · simp only
      split_ifs <;> rfl
    · simp only
      split_ifs <;> rfl
    · simp only
      split_ifs <;> rfl
    · rfl

theorem readBytes_append (a : Vector UInt8 n) (data : List UInt8) :
    readBytes n (a.toList ++ data) = a := by
  apply Vector.ext
  intro i hi
  rw [readBytes, Vector.getElem_ofFn]
  show (a.toList ++ data).getD i 0 = a[i]
  rw [List.getD_eq_getElem?_getD, List.getElem?_append_left (by simpa using hi)]
  simp [hi]

theorem varint_length_top (hlow : 2 ^ 32 - 12 ≤ n) (h : n < 2 ^ 32) : (varint n).length = 5 := by
  have hall : ∀ j < 12, (varint (2 ^ 32 - 12 + j)).length = 5 := by decide +kernel
  have hj := hall (n - (2 ^ 32 - 12)) (by omega)
  rwa [show 2 ^ 32 - 12 + (n - (2 ^ 32 - 12)) = n by omega] at hj

theorem spoeDecodeData_eq_buffer {type : UInt8} (htype : spoeType type = 8 ∨ spoeType type = 9)
    (buf : ℕ) (data : List UInt8) :
    spoeDecodeData buf (type :: data) =
      let r := spoeDecodeBuffer (buf + 1) data
      if r.ret = -1 then .error buf
      else .finish buf r.buf (some (if type = 0x08 then .str r.str r.len else .bin r.str r.len)) := by
  rw [spoeDecodeData]
  rcases htype with ht | ht
  · rw [ht]
    rfl
  · rw [ht]
    rfl

theorem spoeDecodeData_string {type : UInt8} {str : List UInt8}
    (htype : spoeType type = 8 ∨ spoeType type = 9) (hstr : str.length < 2 ^ 64)
    (hbuf : buf + 1 + (varint str.length ++ str ++ data).length < 2 ^ 64) :
    spoeDecodeData buf (type :: (varint str.length ++ str ++ data)) =
      if toInt str.length = -1 then .error buf
      else .finish buf (buf + 1 + (varint str.length).length + str.length)
        (some (if type = 0x08 then
          .str (buf + 1 + (varint str.length).length) (UInt64.ofNat str.length)
          else .bin (buf + 1 + (varint str.length).length) (UInt64.ofNat str.length))) := by
  rw [spoeDecodeData_eq_buffer htype, spoeDecodeBuffer_form hstr hbuf]

/-- What the decoder does with the form of a sample. -/
structure DecodesTo (smp : Option Sample) (buf : ℕ) (out data : List UInt8) : Prop where
  ret : (spoeDecodeData buf (out ++ data)).ret ≠ -1
  buf_eq : (spoeDecodeData buf (out ++ data)).buf = buf + out.length
  value : SameValue buf (out ++ data) smp (spoeDecodeData buf (out ++ data)).smp

theorem decodesTo_of_finish {f : Option Filled}
    (h : spoeDecodeData buf (out ++ data) = .finish buf (buf + out.length) f)
    (hlen : out.length % 2 ^ 32 ≠ 2 ^ 32 - 1) (hvalue : SameValue buf (out ++ data) smp f) :
    DecodesTo smp buf out data where
  ret := by
    rw [h, DataRead.finish, ne_eq, toInt_eq_neg_one_iff]
    omega
  buf_eq := by
    rw [h]
    rfl
  value := by
    rw [h]
    exact hvalue

theorem string_length_ne (h : n + 1 < 2 ^ 32) (h' : n + 7 ≠ 2 ^ 32) :
    (1 + (varint n).length + n) % 2 ^ 32 ≠ 2 ^ 32 - 1 := by
  have hlen := varint_length_le (show n < 2 ^ 64 by omega)
  intro hmod
  have htop := varint_length_top (n := n) (by omega) (by omega)
  omega

theorem take_drop_string (type : UInt8) (str data : List UInt8) :
    ((type :: (varint str.length ++ str) ++ data).drop (1 + (varint str.length).length)).take
      str.length = str := by
  rw [List.cons_append, Nat.add_comm, List.drop_succ_cons, List.append_assoc, List.drop_left,
    List.take_left]

theorem decodesTo_string (type : UInt8) {str : SmpBuf}
    (htype : spoeType type = 8 ∨ spoeType type = 9)
    (hform : spoeForm smp = type :: (varint str.area.length ++ str.area))
    (hsize : str.area.length + 1 < 2 ^ 32) (hsize' : str.area.length + 7 ≠ 2 ^ 32)
    (hbuf : buf + ((spoeForm smp).length + data.length) < 2 ^ 64)
    (hvalue : ∀ p, ((spoeForm smp ++ data).drop p).take str.area.length = str.area →
      SameValue buf (spoeForm smp ++ data) smp
        (some (if type = 0x08 then .str (buf + p) (UInt64.ofNat str.area.length)
          else .bin (buf + p) (UInt64.ofNat str.area.length)))) :
    DecodesTo smp buf (spoeForm smp) data := by
  have hlen : (spoeForm smp).length
      = 1 + (varint str.area.length).length + str.area.length := by
    rw [hform, List.length_cons, List.length_append]
    omega
  rw [hlen] at hbuf
  refine decodesTo_of_finish ?_ ?_ (hvalue (1 + (varint str.area.length).length) ?_)
  · have hfit : buf + 1 + (varint str.area.length ++ str.area ++ data).length < 2 ^ 64 := by
      simp only [List.length_append]
      omega
    rw [hlen, hform, List.cons_append, spoeDecodeData_string htype str.length_lt hfit, if_neg]
    · simp only [Nat.add_assoc]
    · rw [toInt_eq_neg_one_iff]
      omega
  · rw [hlen]
    exact string_length_ne hsize hsize'
  · rw [hform]
    exact take_drop_string _ _ _

/-- **The form of a sample is decoded to the sample**, whatever follows it. -/
theorem spoeDecodeData_form (hmeth : isMeth smp = false) (hsize : spoeSize smp + 1 < 2 ^ 32)
    (hsize' : spoeSize smp + 7 ≠ 2 ^ 32) (hbuf : buf + (spoeForm smp ++ data).length < 2 ^ 64) :
    DecodesTo smp buf (spoeForm smp) data := by
  rw [List.length_append] at hbuf
  rcases smp with - | (v | v | a | a | str | str | ⟨m, str⟩ | -)
  · exact decodesTo_of_finish rfl (by decide) rfl
  · by_cases hv : v = 0
    · subst hv
      exact decodesTo_of_finish rfl (by decide) rfl
    · have hform : spoeForm (some (.bool v)) = [0x11] := by
        rw [spoeForm, if_neg hv]
        rfl
      rw [hform]
      refine decodesTo_of_finish rfl (by decide) ?_
      rw [SameValue, if_neg hv]
      rfl
  · have hlen := varint_length_le v.toNat_lt
    have hform : (spoeForm (some (.sint v))).length = 1 + (varint v.toNat).length := by
      rw [spoeForm, List.length_cons, Nat.add_comm]
    refine decodesTo_of_finish ?_ (by omega) rfl
    rw [hform, spoeForm, List.cons_append, spoeDecodeData]
    simp only [show spoeType 0x04 = 4 from rfl,
      spoeDecodeVarint_varint v.toNat_lt, UInt64.ofNat_toNat, List.length_append,
      Nat.add_sub_cancel, Nat.add_assoc]
  · have hform : (spoeForm (some (.ipv4 a))).length = 5 := by simp [spoeForm]
    refine decodesTo_of_finish ?_ (by omega) rfl
    rw [hform] at hbuf ⊢
    rw [spoeForm, List.cons_append, spoeDecodeData]
    simp only [show spoeType 0x06 = 6 from rfl, List.length_append,
      Vector.length_toList, readBytes_append]
    rw [Nat.mod_eq_of_lt (by omega), if_neg (by omega)]
  · have hform : (spoeForm (some (.ipv6 a))).length = 17 := by simp [spoeForm]
    refine decodesTo_of_finish ?_ (by omega) rfl
    rw [hform] at hbuf ⊢
    rw [spoeForm, List.cons_append, spoeDecodeData]
    simp only [show spoeType 0x07 = 7 from rfl, List.length_append,
      Vector.length_toList, readBytes_append]
    rw [Nat.mod_eq_of_lt (by omega), if_neg (by omega)]
  · exact decodesTo_string 0x08 (Or.inl rfl) rfl hsize hsize' hbuf
      fun p hp => ⟨p, rfl, hp⟩
  · exact decodesTo_string 0x09 (Or.inr rfl) rfl hsize hsize' hbuf
      fun p hp => ⟨p, rfl, hp⟩
  · cases hmeth
  · exact decodesTo_of_finish rfl (by decide) rfl

/-! ### Round trips -/

/-- However the sample is cut, its pieces decode to it, and are skipped as a whole. -/
def RoundTrips (smp : Option Sample) : Prop :=
  ∀ len rooms out, spoeEncodeRun smp ⟨len, 0⟩ rooms = some out →
    ∀ buf data, buf + (out ++ data).length < 2 ^ 64 →
      DecodesTo smp buf out data ∧
        spoeSkipData buf (out ++ data)
          = ((spoeDecodeData buf (out ++ data)).ret, buf + out.length)

theorem roundTrips_of_size (hmeth : isMeth smp = false) (hsize : spoeSize smp + 1 < 2 ^ 32)
    (hsize' : spoeSize smp + 7 ≠ 2 ^ 32) : RoundTrips smp := by
  intro len rooms out hrun buf data hbuf
  obtain rfl := spoeEncodeRun_eq hmeth (by omega) hrun
  have hdec := spoeDecodeData_form hmeth hsize hsize' hbuf
  refine ⟨hdec, ?_⟩
  rw [spoeSkipData_eq, hdec.buf_eq]

theorem spoeEncodeRun_step {out' : List UInt8} (hroom : room ≠ 0) (hk : 0 < k) (hk' : k < 2 ^ 32)
    (hcall : spoeEncodeTyped smp ctx 0 room = some (.finish 0 (.at n k) out))
    (hlen : out.length + 1 < 2 ^ 32) (hrest : spoeEncodeRun smp (.at n k) rooms = some out') :
    spoeEncodeRun smp ctx (room :: rooms) = some (out ++ out') := by
  have hoff : (FragCtx.at n k).off ≠ 0 := by
    rw [ne_eq, FragCtx.off_at_eq_zero_iff hk']
    omega
  rw [spoeEncodeRun, spoeEncodeData, if_neg hroom, hcall]
  simp only
  rw [if_neg (finish_ret hlen _ _), SpoeEncoded.finish_ctx, if_pos hoff, hrest]
  rfl

theorem spoeEncodeRun_last {ctx' : FragCtx} (hroom : room ≠ 0) (hoff : ctx'.off = 0)
    (hcall : spoeEncodeTyped smp ctx 0 room = some (.finish 0 ctx' out))
    (hlen : out.length + 1 < 2 ^ 32) : spoeEncodeRun smp ctx [room] = some out := by
  rw [spoeEncodeRun, spoeEncodeData, if_neg hroom, hcall]
  simp only
  rw [if_neg (finish_ret hlen _ _), SpoeEncoded.finish_ctx, if_neg (not_not.mpr hoff),
    if_pos trivial, SpoeEncoded.finish_out]

theorem exists_spoeEncodeRun
    (hsmp : ∀ ctx room, spoeEncodeTyped smp ctx 0 room = spoeEncodeFrag type str ctx 0 room)
    (hlow : 2 ^ 32 - 12 ≤ str.area.length) (hlen : str.area.length < 2 ^ 32) :
    ∃ rooms out, spoeEncodeRun smp ⟨0, 0⟩ rooms = some out := by
  have hv := varint_length_le str.length_lt
  -- pieces of a and b bytes, and the rest
  obtain ⟨a, ha⟩ : ∃ a, a = 2 ^ 30 := ⟨_, rfl⟩
  obtain ⟨b, hb⟩ : ∃ b, b = 2 ^ 31 - 1 := ⟨_, rfl⟩
  obtain ⟨c, hc⟩ : ∃ c, c = str.area.length - (a + b) := ⟨_, rfl⟩
  have h₁ := hsmp ⟨0, 0⟩ (1 + (varint str.area.length).length + a)
  have h₂ := hsmp (.at str.area.length a) b
  have h₃ := hsmp (.at str.area.length (a + b)) a
  rw [spoeEncodeFrag_first hlen (by omega) 0 0 (show _ = a by omega), if_neg (by omega),
    if_pos (by omega), FragCtx.update_at hlen (by omega), if_neg (by omega), Nat.zero_add] at h₁
  rw [spoeEncodeFrag_next hlen (by omega) (by omega) 0 (show _ = b by omega), if_pos (by omega),
    FragCtx.update_at hlen (by omega), if_neg (by omega)] at h₂
  rw [spoeEncodeFrag_next hlen (by omega) (by omega) 0 (show _ = c by omega), if_pos (by omega),
    FragCtx.update_at hlen (by omega), if_pos (by omega)] at h₃
  have hlast := spoeEncodeRun_last (by omega) rfl h₃ (by rw [List.length_take]; omega)
  refine ⟨_, _, spoeEncodeRun_step (by omega) (by omega) (by omega) h₁ ?_
    (spoeEncodeRun_step (by omega) (by omega) (by omega) h₂ ?_ hlast)⟩
  · simp only [List.length_cons, List.length_append, List.length_take]
    omega
  · rw [List.length_take]
    omega

theorem spoeEncodeRun_long
    (hsmp : ∀ ctx room, spoeEncodeTyped smp ctx 0 room = spoeEncodeFrag type str ctx 0 room)
    (hlen : 2 ^ 32 ≤ str.area.length) :
    spoeEncodeRun smp ⟨0, 0⟩ [1 + (varint str.area.length).length + 2 ^ 32]
      = some (type :: varint str.area.length) := by
  have hv : encodeVarint ((varint str.area.length).length + 2 ^ 32) str.area.length
      = some (varint str.area.length) :=
    encodeVarint_eq_some_iff.mpr ⟨rfl, by omega⟩
  have hzero : toInt (2 ^ 32 : ℕ) = 0 := by decide
  have hbuf : spoeEncodeFragBuffer str.area ((varint str.area.length).length + 2 ^ 32)
      = some (0, varint str.area.length) := by
    rw [spoeEncodeFragBuffer, if_neg (by omega), if_neg (by omega), hv]
    simp only
    rw [if_neg (by omega), if_neg (by omega : ¬ str.area.length < _), Nat.add_sub_cancel_left]
    rw [hzero, if_neg (by decide), Int.toNat_zero, List.take_zero, List.append_nil]
  have hoff : ∀ len : UInt32, (FragCtx.update ⟨len, 0⟩ 0).off = 0 := by
    intro len
    rw [FragCtx.update]
    split_ifs <;> rfl
  have hlen10 := varint_length_le str.length_lt
  refine spoeEncodeRun_last (by omega) (hoff (UInt32.ofNat str.area.length)) ?_
    (by simp only [List.length_cons]; omega)
  rw [hsmp, spoeEncodeFrag, if_pos rfl, show 1 + (varint str.area.length).length + 2 ^ 32 - 1
    = (varint str.area.length).length + 2 ^ 32 by omega, hbuf]
  rfl

end SmartHAProxy
