/-
The loops of `h1_headers_to_hdr_list` that skip words of 4 and 8 bytes.

The loops of the state HDR_VAL skip bytes from 14 on, which are neither CR nor LF
(`hdrValFast_exact`).  The loop of the state RQURI skips four bytes from 33 to
160 if at least one of them is below 127: its second test asks for one byte
below 127, not for four (`uriFast_cons`).  So it may skip a DEL, or bytes
from 128 on, which the test for a single byte refuses (`uriFast_exact_iff`).

`h1_fast_loops`: where the loop meets no such bytes in a URI, the parser does the
same without the loops.
-/
import SmartHAProxy.H1.Headers

namespace SmartHAProxy

variable {P : UInt8 → Prop} {bs s : CStr} {c : UInt8} {state : H1mState} {r : H1Regs}

/-! ### Words -/

theorem toNat_bytes_lt (bs : List UInt8) : ∀ b ∈ bs.map UInt8.toNat, b < 256 := by
  intro b hb
  obtain ⟨c, -, rfl⟩ := List.mem_map.mp hb
  exact c.toNat_lt

theorem toNat_sub_int {bs : List ℕ} (k : ℕ) (hk : k < 256) (hlen : bs.length = 4)
    (h : ∀ b ∈ bs, b < 256) :
    (UInt32.ofNat (digitsWord bs) - UInt32.ofNat (repeated k 4)).toNat = subRepeated k bs := by
  have hword := digitsWord_lt h
  have hrep := repeated_le hk 4
  rw [hlen] at hword
  rw [UInt32.toNat_sub, UInt32.toNat_ofNat_of_lt' hword, UInt32.toNat_ofNat_of_lt' hrep,
    subRepeated, hlen, show 256 ^ 4 = 2 ^ 32 by decide]

theorem toNat_sub_long {bs : List ℕ} (k : ℕ) (hk : k < 256) (hlen : bs.length = 8)
    (h : ∀ b ∈ bs, b < 256) :
    (UInt64.ofNat (digitsWord bs) - UInt64.ofNat (repeated k 8)).toNat = subRepeated k bs := by
  have hword := digitsWord_lt h
  have hrep := repeated_le hk 8
  rw [hlen] at hword
  rw [UInt64.toNat_sub, UInt64.toNat_ofNat_of_lt' hword, UInt64.toNat_ofNat_of_lt' hrep,
    subRepeated, hlen, show 256 ^ 8 = 2 ^ 64 by decide]

theorem int_and_eq_zero (x : UInt32) :
    x &&& 0x80808080 = 0 ↔ x.toNat &&& repeated 128 4 = 0 := by
  rw [← UInt32.toNat_inj, UInt32.toNat_and]
  rfl

theorem long_and_eq_zero (x : UInt64) :
    x &&& 0x8080808080808080 = 0 ↔ x.toNat &&& repeated 128 8 = 0 := by
  rw [← UInt64.toNat_inj, UInt64.toNat_and]
  rfl

/-! ### Header values -/

theorem not_crlf_of_le {b : UInt8} (h : 14 ≤ b.toNat) : httpIsCrlf b = false := by
  have hne (n : UInt8) (hn : n.toNat < 14) : b ≠ n := by
    rintro rfl
    omega
  have h10 : (b == 10) = false := beq_eq_false_iff_ne.mpr (hne 10 (by decide))
  have h13 : (b == 13) = false := beq_eq_false_iff_ne.mpr (hne 13 (by decide))
  rw [httpIsCrlf, h10, h13]
  rfl

theorem group_not_crlf {bs : List UInt8} (h : ∀ b ∈ bs.map UInt8.toNat, 14 ≤ b ∧ b < 14 + 128) :
    ∀ c ∈ bs, httpIsCrlf c = false :=
  fun _ hc => not_crlf_of_le (h _ (List.mem_map_of_mem hc)).1

theorem forall_take_word {k : ℕ} (hbs : ∀ c ∈ bs, P c) (hs : ∀ c ∈ s.take k, P c) :
    ∀ c ∈ (bs ++ s).take (bs.length + k), P c := by
  rw [List.take_length_add_append]
  exact List.forall_mem_append.mpr ⟨hbs, hs⟩

theorem forall_take_zero : ∀ c ∈ s.take 0, P c :=
  fun _ hc => absurd hc List.not_mem_nil

theorem hdrValFast4_exact (s : CStr) : ∀ c ∈ s.take (hdrValFast4 s), httpIsCrlf c = false := by
  induction s using hdrValFast4.induct with
  | case1 b₀ b₁ b₂ b₃ s htest =>
    rw [hdrValFast4, if_pos htest]
    exact forall_take_zero
  | case2 b₀ b₁ b₂ b₃ s htest ih =>
    rw [hdrValFast4, if_neg htest]
    have htop := (int_and_eq_zero _).mp (not_not.mp htest)
    have hsub := toNat_sub_int 14 (by decide) rfl (toNat_bytes_lt [b₀, b₁, b₂, b₃])
    have hbytes := (topBits_sub_iff (by decide) (toNat_bytes_lt [b₀, b₁, b₂, b₃])).mp
      (hsub ▸ htop)
    exact forall_take_word (group_not_crlf hbytes) ih
  | case3 s hshort =>
    rw [hdrValFast4]
    · exact forall_take_zero
    · exact hshort

/-- **The loops of the state HDR_VAL are exact.** -/
theorem hdrValFast_exact (s : CStr) : ∀ c ∈ s.take (hdrValFast s), httpIsCrlf c = false := by
  induction s using hdrValFast.induct with
  | case1 b₀ b₁ b₂ b₃ b₄ b₅ b₆ b₇ s htest =>
    rw [hdrValFast, if_pos htest]
    exact forall_take_zero
  | case2 b₀ b₁ b₂ b₃ b₄ b₅ b₆ b₇ s htest ih =>
    rw [hdrValFast, if_neg htest]
    have hlt := toNat_bytes_lt [b₀, b₁, b₂, b₃, b₄, b₅, b₆, b₇]
    have htop := (long_and_eq_zero _).mp (not_not.mp htest)
    have hsub := toNat_sub_long 14 (by decide) rfl hlt
    have hbytes := (topBits_sub_iff (by decide) hlt).mp (hsub ▸ htop)
    exact forall_take_word (group_not_crlf hbytes) ih
  | case3 s hshort =>
    rw [hdrValFast]
    · exact hdrValFast4_exact s
    · exact hshort

/-! ### URIs -/

/-- The words that the loop of the state RQURI skips. -/
def uriSkipped (bs : CStr) : Bool := bs.all (fun b => 33 ≤ b && b ≤ 160) && bs.any (· < 127)

theorem uriTest₁_iff (b₀ b₁ b₂ b₃ : UInt8) :
    (readInt b₀ b₁ b₂ b₃ - 0x21212121) &&& 0x80808080 = 0 ↔
      ∀ b ∈ [b₀, b₁, b₂, b₃].map UInt8.toNat, 33 ≤ b ∧ b < 161 := by
  have hlt := toNat_bytes_lt [b₀, b₁, b₂, b₃]
  rw [int_and_eq_zero, ← topBits_sub_iff (by decide) hlt, ← toNat_sub_int 33 (by decide) rfl hlt]
  rfl

theorem uriTest₂_iff (b₀ b₁ b₂ b₃ : UInt8)
    (h : ∀ b ∈ [b₀, b₁, b₂, b₃].map UInt8.toNat, 33 ≤ b ∧ b < 161) :
    (readInt b₀ b₁ b₂ b₃ - 0x21212121 - 0x5e5e5e5e) &&& 0x80808080 = 0 ↔
      ∀ b ∈ [b₀, b₁, b₂, b₃].map UInt8.toNat, 127 ≤ b := by
  have hlt := toNat_bytes_lt [b₀, b₁, b₂, b₃]
  have hsub : readInt b₀ b₁ b₂ b₃ - 0x21212121 =
      UInt32.ofNat (digitsWord (([b₀, b₁, b₂, b₃].map UInt8.toNat).map (· - 33))) := by
    rw [← subRepeated_eq (by decide) fun b hb => ⟨(h b hb).1, hlt b hb⟩,
      ← toNat_sub_int 33 (by decide) rfl hlt, UInt32.ofNat_toNat]
    rfl
  have hlt' : ∀ b ∈ ([b₀, b₁, b₂, b₃].map UInt8.toNat).map (· - 33), b < 256 := by
    refine List.forall_mem_map.mpr fun b hb => ?_
    exact (Nat.sub_le b 33).trans_lt (hlt b hb)
  rw [hsub, int_and_eq_zero]
  have hiff := topBits_sub_iff (show 94 ≤ 128 by decide) hlt'
  rw [← toNat_sub_int 94 (by decide) rfl hlt'] at hiff
  refine hiff.trans ?_
  rw [List.forall_mem_map]
  refine forall₂_congr fun b hb => ?_
  have := h b hb
  omega

/-- **What the two tests say.** -/
theorem uriFast_cons (b₀ b₁ b₂ b₃ : UInt8) (s : CStr) :
    uriFast (b₀ :: b₁ :: b₂ :: b₃ :: s) =
      if uriSkipped [b₀, b₁, b₂, b₃] then 4 + uriFast s else 0 := by
  have hall : (∀ b ∈ [b₀, b₁, b₂, b₃].map UInt8.toNat, 33 ≤ b ∧ b < 161) ↔
      [b₀, b₁, b₂, b₃].all (fun b => 33 ≤ b && b ≤ 160) = true := by
    rw [List.forall_mem_map, List.all_eq_true]
    refine forall₂_congr fun b _ => ?_
    rw [Bool.and_eq_true_iff, decide_eq_true_iff, decide_eq_true_iff, UInt8.le_iff_toNat_le,
      UInt8.le_iff_toNat_le]
    show _ ↔ 33 ≤ b.toNat ∧ b.toNat ≤ 160
    omega
  have hany : (∀ b ∈ [b₀, b₁, b₂, b₃].map UInt8.toNat, 127 ≤ b) ↔
      ¬[b₀, b₁, b₂, b₃].any (· < 127) = true := by
    rw [List.forall_mem_map, Bool.not_eq_true, List.any_eq_false]
    refine forall₂_congr fun b _ => ?_
    rw [decide_eq_true_iff, UInt8.lt_iff_toNat_lt]
    exact Nat.not_lt.symm
  rw [uriFast, uriSkipped]
  by_cases h₁ : (readInt b₀ b₁ b₂ b₃ - 0x21212121) &&& 0x80808080 = 0
  · have hrange := (uriTest₁_iff b₀ b₁ b₂ b₃).mp h₁
    have h₂ := (uriTest₂_iff b₀ b₁ b₂ b₃ hrange).trans hany
    rw [hall.mp hrange, Bool.true_and]
    dsimp only
    rw [if_neg (not_not.mpr h₁)]
    by_cases hany' : [b₀, b₁, b₂, b₃].any (· < 127) = true
    · rw [if_neg fun h => h₂.mp h hany', if_pos hany']
    · rw [if_pos (h₂.mpr hany'), if_neg hany']
  · have hrange := mt ((uriTest₁_iff b₀ b₁ b₂ b₃).trans hall).mpr h₁
    rw [Bool.eq_false_iff.mpr hrange, Bool.false_and]
    dsimp only
    rw [if_pos h₁, if_neg Bool.false_ne_true]

/-- The loop of the state RQURI skips bytes of a URI only. -/
def UriFastExact (s : CStr) : Prop := ∀ c ∈ s.take (uriFast s), H1Call.uriByte c = true

/-- The words of four bytes, up to the first one that does not consist of bytes of a URI: that
one is not skipped. -/
def uriClean : CStr → Bool
  | b₀ :: b₁ :: b₂ :: b₃ :: s =>
    if [b₀, b₁, b₂, b₃].all H1Call.uriByte then uriClean s else !uriSkipped [b₀, b₁, b₂, b₃]
  | _ => true

theorem uriByte_iff : H1Call.uriByte c = true ↔ 33 ≤ c.toNat ∧ c.toNat ≤ 126 := by
  have hlt := c.toNat_lt
  have hsub : (c - 33).toNat = (2 ^ 8 - 33 + c.toNat) % 2 ^ 8 := UInt8.toNat_sub c 33
  rw [H1Call.uriByte, decide_eq_true_iff, UInt8.le_iff_toNat_le, hsub]
  show _ ≤ 93 ↔ _
  omega

theorem uriSkipped_of_all (hne : bs ≠ []) (h : bs.all H1Call.uriByte = true) :
    uriSkipped bs = true := by
  have hbytes (c : UInt8) (hc : c ∈ bs) := uriByte_iff.mp (List.all_eq_true.mp h c hc)
  obtain ⟨c, bs', rfl⟩ := List.exists_cons_of_ne_nil hne
  refine Bool.and_eq_true_iff.mpr ⟨List.all_eq_true.mpr fun b hb => ?_, ?_⟩
  · have := hbytes b hb
    rw [Bool.and_eq_true_iff, decide_eq_true_iff, decide_eq_true_iff, UInt8.le_iff_toNat_le,
      UInt8.le_iff_toNat_le]
    show 33 ≤ b.toNat ∧ b.toNat ≤ 160
    omega
  · have := hbytes c List.mem_cons_self
    refine List.any_eq_true.mpr ⟨c, List.mem_cons_self, decide_eq_true ?_⟩
    rw [UInt8.lt_iff_toNat_lt]
    show c.toNat < 127
    omega

theorem take_four_add (b₀ b₁ b₂ b₃ : UInt8) (s : CStr) (n : ℕ) :
    (b₀ :: b₁ :: b₂ :: b₃ :: s).take (4 + n) = [b₀, b₁, b₂, b₃] ++ s.take n := by
  rw [Nat.add_comm]
  rfl

/-- **The loop of the state RQURI is exact** if it skips no word with another byte. -/
theorem uriFast_exact_iff (s : CStr) : UriFastExact s ↔ uriClean s = true := by
  unfold UriFastExact
  induction s using uriClean.induct with
  | case1 b₀ b₁ b₂ b₃ s hall ih =>
    rw [uriFast_cons, uriSkipped_of_all (List.cons_ne_nil _ _) hall, if_pos rfl, uriClean,
      if_pos hall, ← ih]
    rw [take_four_add, List.forall_mem_append]
    exact and_iff_right (List.all_eq_true.mp hall)
  | case2 b₀ b₁ b₂ b₃ s hall =>
    rw [uriFast_cons, uriClean, if_neg hall]
    cases hskip : uriSkipped [b₀, b₁, b₂, b₃] with
    | true =>
      refine iff_of_false (fun h => hall (List.all_eq_true.mpr fun c hc => h c ?_))
        Bool.false_ne_true
      rw [if_pos rfl, take_four_add]
      exact List.mem_append_left _ hc
    | false => exact iff_of_true forall_take_zero rfl
  | case3 s hshort =>
    rw [uriFast, uriClean]
    · exact iff_of_true forall_take_zero rfl
    · exact hshort
    · exact hshort

/-! ### The parser without the loops -/

namespace H1Call

variable (call : H1Call)

/-- The same call, without the loops that skip words. -/
def slow : H1Call := { call with fast := false }

/-- Bytes that the tests for a single byte skip in a state with such a loop. -/
def Skips (state : H1mState) (bs : CStr) : Prop :=
  state = .rquri ∧ (∀ c ∈ bs, uriByte c = true) ∨
    state = .hdrVal ∧ ∀ c ∈ bs, httpIsCrlf c = false

/-- **A move with the loops, and one without them**: bytes that are skipped would have been
skipped one by one. -/
inductive Sim (c : UInt8) (s : CStr) : H1Move → H1Move → Prop
  | same (step : H1Step) : Sim c s (.step step) (.step step)
  | jump {state : H1mState} {n : ℕ} (r : H1Regs) (h : Skips state (s.take n)) :
      Sim c s (.jump state n r) (.jump state 0 r)
  | enter {state : H1mState} {n : ℕ} (r : H1Regs) (h : Skips state (s.take n)) :
      Sim c s (.jump state n r) (.step (.eat state c r))

/-- Where a byte leads to the loop of the state RQURI, the loop is exact: at the first byte of
the URI, and after a byte from 128 on that is not refused. -/
def CleanByte (state : H1mState) (r : H1Regs) (c : UInt8) (s : CStr) : Prop :=
  (state = .rqmethSp → httpIsLws c = false → uriClean (c :: s) = true) ∧
    (state = .rqmethSp ∨ state = .rquri → 128 ≤ c → -1 ≤ r.h1m.errPos → uriClean s = true)

instance decidableCleanByte (state : H1mState) (r : H1Regs) (c : UInt8) (s : CStr) :
    Decidable (CleanByte state r c s) :=
  inferInstanceAs (Decidable (_ ∧ _))

/-- **The bytes from `ptr` on are clean**, at all the places where the parser without the
loops would enter that of the state RQURI. -/
def cleanRun (state : H1mState) (r : H1Regs) : CStr → Bool
  | [] => true
  | c :: s =>
    decide (CleanByte state r c s) &&
      match call.slow.byte state r c s with
      | .jump state _ r => cleanRun state (r.eat c) s
      | .step (.eat state c r) => cleanRun state (r.eat c) s
      | _ => true

variable {call}

theorem words_exact {loop : CStr → ℕ} (h : ∀ c ∈ s.take (loop s), P c) :
    ∀ c ∈ s.take (call.words loop s), P c := by
  unfold words
  split_ifs
  · exact h
  · exact forall_take_zero

theorem skips_cons (h : Skips state (c :: bs)) : Skips state [c] ∧ Skips state bs := by
  rcases h with ⟨rfl, h⟩ | ⟨rfl, h⟩
  · obtain ⟨hc, hbs⟩ := List.forall_mem_cons.mp h
    exact ⟨.inl ⟨rfl, List.forall_mem_singleton.mpr hc⟩, .inl ⟨rfl, hbs⟩⟩
  · obtain ⟨hc, hbs⟩ := List.forall_mem_cons.mp h
    exact ⟨.inr ⟨rfl, List.forall_mem_singleton.mpr hc⟩, .inr ⟨rfl, hbs⟩⟩

theorem enter_sim {loop : CStr → ℕ} {next next' : H1Move}
    (hskips : Skips state ((c :: s).take (call.words loop (c :: s)))) (hnext : Sim c s next next')
    (heat : Skips state [c] → next' = .step (.eat state c r)) :
    Sim c s (call.enter state loop r c s next) (call.slow.enter state loop r c s next') := by
  have hslow : call.slow.enter state loop r c s next' = next' := rfl
  rw [hslow]
  unfold enter
  cases hn : call.words loop (c :: s) with
  | zero => exact hnext
  | succ n =>
    rw [hn, List.take_succ_cons] at hskips
    rw [heat (skips_cons hskips).1]
    exact .enter r (skips_cons hskips).2

theorem rquri2_eat (s : CStr) (h : Skips .rquri [c]) :
    call.rquri2 r c s = .step (.eat .rquri c r) := by
  rcases h with ⟨-, h⟩ | ⟨hstate, -⟩
  · rw [rquri2, if_pos (List.forall_mem_singleton.mp h)]
  · cases hstate

theorem hdrVal2_eat (h : Skips .hdrVal [c]) : hdrVal2 r c = .eat .hdrVal c r := by
  rcases h with ⟨hstate, -⟩ | ⟨-, h⟩
  · cases hstate
  · rw [hdrVal2, List.forall_mem_singleton.mp h]
    rfl

theorem rquri2_sim (hclean : 128 ≤ c → -1 ≤ r.h1m.errPos → uriClean s = true) :
    Sim c s (call.rquri2 r c s) (call.slow.rquri2 r c s) := by
  unfold rquri2
  split_ifs with huri hspht h128 herr hcrlf
  · exact .same _
  · exact .same _
  · exact .same _
  · -- a byte from 128 on that is captured
    have hexact := (uriFast_exact_iff s).mpr (hclean h128 (by omega))
    exact .jump _ (.inl ⟨rfl, words_exact hexact⟩)
  · exact .same _
  · exact .same _

theorem rqmethSp_sim (hclean : httpIsLws c = false → uriClean (c :: s) = true)
    (hclean' : 128 ≤ c → -1 ≤ r.h1m.errPos → uriClean s = true) :
    Sim c s (call.rqmethSp r c s) (call.slow.rqmethSp r c s) := by
  unfold rqmethSp
  cases hlws : httpIsLws c with
  | false =>
    have hexact := (uriFast_exact_iff (c :: s)).mpr (hclean hlws)
    exact enter_sim (.inl ⟨rfl, words_exact hexact⟩) (rquri2_sim hclean') (rquri2_eat s)
  | true =>
    cases httpIsSpht c with
    | true => exact .same _
    | false => exact .same _

theorem hdrVal_sim (r : H1Regs) (c : UInt8) (s : CStr) :
    Sim c s (call.hdrVal r c s) (call.slow.hdrVal r c s) :=
  enter_sim (.inr ⟨rfl, words_exact (hdrValFast_exact (c :: s))⟩) (.same _)
    fun h => congrArg H1Move.step (hdrVal2_eat h)

theorem hdrL1Sp_sim (r : H1Regs) (c : UInt8) (s : CStr) :
    Sim c s (call.hdrL1Sp r c s) (call.slow.hdrL1Sp r c s) := by
  unfold hdrL1Sp
  dsimp only
  split_ifs
  · exact .same _
  · exact hdrVal_sim _ c s
  · exact .same _

theorem hdrL1Lws_sim (r : H1Regs) (c : UInt8) (s : CStr) :
    Sim c s (call.hdrL1Lws r c s) (call.slow.hdrL1Lws r c s) := by
  unfold hdrL1Lws
  cases httpIsSpht c with
  | true => exact hdrL1Sp_sim _ c s
  | false => exact .same _

theorem hdrL2Lws_sim (r : H1Regs) (c : UInt8) (s : CStr) :
    Sim c s (call.hdrL2Lws r c s) (call.slow.hdrL2Lws r c s) := by
  unfold hdrL2Lws
  cases httpIsSpht c with
  | true => exact hdrVal_sim _ c s
  | false => exact .same _

/-- **One byte**, with the loops and without them. -/
theorem byte_sim (h : CleanByte state r c s) :
    Sim c s (call.byte state r c s) (call.slow.byte state r c s) := by
  cases state with
  | rqmethSp => exact rqmethSp_sim (h.1 rfl) (h.2 (.inl rfl))
  | rquri => exact rquri2_sim (h.2 (.inr rfl))
  | hdrL1Sp => exact hdrL1Sp_sim r c s
  | hdrL1Lws => exact hdrL1Lws_sim r c s
  | hdrL2Lws => exact hdrL2Lws_sim r c s
  | _ => exact .same _

theorem byte_eat (s : CStr) (h : Skips state [c]) :
    call.byte state r c s = .step (.eat state c r) := by
  rcases h with ⟨rfl, h⟩ | ⟨rfl, h⟩
  · exact rquri2_eat s (.inl ⟨rfl, h⟩)
  · exact congrArg H1Move.step (hdrVal2_eat (.inr ⟨rfl, h⟩))

/-- **A pass**, with the loops and without them, by induction on the bytes. -/
theorem run_slow {n : ℕ} (hskip : n = 0 ∨ Skips state (s.take n))
    (h : call.cleanRun state r s = true) : call.run n state r s = call.slow.run 0 state r s := by
  induction s generalizing n state r with
  | nil => rfl
  | cons c s ih =>
    obtain ⟨hbyte, hrest⟩ := Bool.and_eq_true_iff.mp h
    have hbyte : CleanByte state r c s := of_decide_eq_true hbyte
    rw [run, run, if_neg (not_not.mpr (rfl : 0 = 0))]
    rcases n with - | n
    · rw [if_neg (not_not.mpr (rfl : 0 = 0))]
      have hsim : Sim c s (call.byte state r c s) (call.slow.byte state r c s) := byte_sim hbyte
      generalize call.byte state r c s = m at hsim ⊢
      generalize call.slow.byte state r c s = m' at hsim hrest ⊢
      cases hsim with
      | same step =>
        cases step with
        | eat state c r => exact ih (.inl rfl) hrest
        | invalid | full | restart | done => rfl
      | jump r h => exact ih (.inr h) hrest
      | enter r h => exact ih (.inr h) hrest
    · rw [if_pos (Nat.succ_ne_zero n)]
      have hskips := skips_cons (hskip.resolve_left (Nat.succ_ne_zero n))
      rw [byte_eat s hskips.1] at hrest ⊢
      exact ih (.inr hskips.2) hrest

end H1Call

def CleanPass (hdr : Bool) (msg : CStr) (hdrNum start : ℕ) (h1m : H1m) : Prop :=
  (h1m.passState = .rquri → uriClean (h1m.passBytes msg start) = true) ∧
    (h1m.passCall true hdr hdrNum).cleanRun h1m.passState (h1Regs msg start h1m.passH1m)
      (h1m.passBytes msg start) = true

/-- **A call is clean**: in its passes without the loops, the loop of the state RQURI would be
exact wherever it was entered. -/
def CleanCall (hdr : Bool) (msg : CStr) (hdrNum : ℕ) (h1m : H1m) : Prop :=
  CleanPass hdr msg hdrNum 0 h1m ∧
    ∀ r, h1Pass false hdr msg hdrNum 0 h1m = .restart r →
      CleanPass hdr msg hdrNum r.start r.h1m.restart

theorem first_skips (call : H1Call) (h : state = .rquri → uriClean s = true) :
    call.first state s = 0 ∨ H1Call.Skips state (s.take (call.first state s)) := by
  cases state with
  | rquri =>
    have hexact := (uriFast_exact_iff s).mpr (h rfl)
    exact .inr (.inl ⟨rfl, H1Call.words_exact hexact⟩)
  | hdrVal => exact .inr (.inr ⟨rfl, H1Call.words_exact (hdrValFast_exact s)⟩)
  | _ => exact .inl rfl

theorem first_slow (call : H1Call) (state : H1mState) (s : CStr) :
    call.slow.first state s = 0 := by
  cases state with
  | rquri | hdrVal => rfl
  | _ => rfl

theorem h1Pass_slow {hdr : Bool} {msg : CStr} {hdrNum start : ℕ} {h1m : H1m}
    (h : CleanPass hdr msg hdrNum start h1m) :
    h1Pass true hdr msg hdrNum start h1m = h1Pass false hdr msg hdrNum start h1m := by
  obtain ⟨hstart, hrun⟩ := h
  have hslow := first_slow (h1m.passCall true hdr hdrNum) h1m.passState (h1m.passBytes msg start)
  have hsame := H1Call.run_slow (first_skips (h1m.passCall true hdr hdrNum) hstart) hrun
  rw [← hslow] at hsame
  exact hsame

/-- **The parser without the loops.** -/
theorem h1HeadersToHdrList_slow {hdr : Bool} {msg : CStr} {hdrNum : ℕ} {h1m : H1m}
    (h : CleanCall hdr msg hdrNum h1m) :
    h1HeadersToHdrList true hdr msg hdrNum h1m = h1HeadersToHdrList false hdr msg hdrNum h1m := by
  unfold h1HeadersToHdrList
  rw [h1Pass_slow h.1]
  cases hend : h1Pass false hdr msg hdrNum 0 h1m with
  | restart r =>
    dsimp only
    rw [h1Pass_slow (h.2 r hend)]
  | ood | invalid | full | done => rfl

/-! ### Exactness -/

/-- The loops that skip words skip, from a position on, only bytes that the tests for a single
byte would skip. -/
def FastExact (s : CStr) : Prop :=
  UriFastExact s ∧ ∀ c ∈ s.take (hdrValFast s), httpIsCrlf c = false

/-- **When the loops that skip words are exact**, from a position on: the loop of the state
RQURI meets no word with another byte that it skips.  In a call where this holds wherever the
loop is entered, the parser does the same without the loops. -/
theorem h1_fast_loops (s : CStr) (hdr : Bool) (msg : CStr) (hdrNum : ℕ) (h1m : H1m) :
    (FastExact s ↔ uriClean s = true) ∧
      (CleanCall hdr msg hdrNum h1m → h1HeadersToHdrList true hdr msg hdrNum h1m =
        h1HeadersToHdrList false hdr msg hdrNum h1m) :=
  ⟨(and_iff_left (hdrValFast_exact s)).trans (uriFast_exact_iff s), h1HeadersToHdrList_slow⟩

def cleanRequest : CStr := bytes "GET /index.html HTTP/1.1\r\nHost: example\r\n\r\n"

theorem h1_fast_loops_clean :
    FastExact cleanRequest ∧
      h1HeadersToHdrList true true cleanRequest 100 h1mInitReq =
        h1HeadersToHdrList false true cleanRequest 100 h1mInitReq := by
  obtain ⟨hexact, hsame⟩ := h1_fast_loops cleanRequest true cleanRequest 100 h1mInitReq
  refine ⟨hexact.mpr (by decide +kernel), hsame ⟨⟨?_, by decide +kernel⟩, fun r hr => ?_⟩⟩
  · exact fun hstate => by cases hstate
  · -- the first pass does not restart
    have hend : (h1Pass false true cleanRequest 100 0 h1mInitReq).isRestart = false := by
      decide +kernel
    rw [hr] at hend
    cases hend

def delRequest : CStr := bytes "GET /aa" ++ [127] ++ bytes " HTTP/1.1\r\n\r\n"

/-- With the loops, the DEL is accepted. -/
theorem not_h1_fast_loops :
    ¬FastExact ([47, 97, 97, 127] : CStr) ∧
      (h1HeadersToHdrList true true delRequest 100 h1mInitReq).ret = 21 ∧
      (h1HeadersToHdrList false true delRequest 100 h1mInitReq).ret = -1 := by
  refine ⟨fun h => ?_, by decide +kernel, by decide +kernel⟩
  exact absurd (h.1 127 (by decide +kernel)) (by decide)

end SmartHAProxy
