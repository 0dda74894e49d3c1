/-
The byte strings that are integers of variable length.

Because an offset is taken off at each step, the code has no redundancy: a string of
bytes that the decoder takes is the form of the number that its bytes add up to
(`decodeVarint_form`), and a number of `n` bytes is one in an interval that ends
where those of `n + 1` bytes begin (`varint_length_le_iff`).
-/
import SmartHAProxy.Lib.Varint

namespace SmartHAProxy

/-! ### Lengths -/

/-- The numbers below it have at most `n` groups. -/
def groupsBound : ℕ → ℕ
  | 0 => 0
  | n + 1 => 128 + 128 * groupsBound n

theorem varintGroups_length_le_iff {n q : ℕ} :
    (varintGroups q).length ≤ n ↔ q < groupsBound n := by
  induction n generalizing q with
  | zero =>
    rw [varintGroups]
    split_ifs <;> simp [groupsBound]
  | succ n ih =>
    rw [varintGroups, groupsBound]
    split_ifs with hq
    · rw [List.length_cons, Nat.succ_le_succ_iff, ih, Nat.shiftRight_eq_div_pow]
      omega
    · simp only [List.length_singleton]
      omega

/-- **Where the numbers of more bytes begin.** -/
theorem varint_length_le_iff {n v : ℕ} :
    (varint v).length ≤ n + 1 ↔ v < 240 + 16 * groupsBound n := by
  rw [varint]
  split_ifs with hv
  · simp only [List.length_singleton]
    omega
  · rw [List.length_cons, Nat.succ_le_succ_iff, varintGroups_length_le_iff,
      Nat.shiftRight_eq_div_pow]
    omega

theorem varint_length_eq {n v : ℕ} (hlow : 240 + 16 * groupsBound n ≤ v)
    (hhigh : v < 240 + 16 * groupsBound (n + 1)) : (varint v).length = n + 2 := by
  have h1 := mt varint_length_le_iff.mp (not_lt.mpr hlow)
  have h2 := varint_length_le_iff.mpr hhigh
  omega

/-! ### Values -/

/-- What the groups from the shift count `r` on add up to. -/
def groupsValue (r : ℕ) : List UInt8 → ℕ
  | [] => 0
  | b :: bs => b.toNat * 2 ^ r + groupsValue (r + 7) bs

/-- What the bytes of a number add up to. -/
def varintValue : List UInt8 → ℕ
  | [] => 0
  | b :: bs => b.toNat + groupsValue 4 bs

theorem group_cons {b : UInt8} (hb : 128 ≤ b) (q : ℕ) :
    b :: varintGroups q = varintGroups (b.toNat + 128 * q) := by
  rw [UInt8.le_iff_toNat_le] at hb
  have hb' : 128 ≤ b.toNat := hb
  have hlt := b.toNat_lt
  rw [varintGroups.eq_def (b.toNat + 128 * q), if_pos (by omega)]
  have hrest : (b.toNat + 128 * q - 128) >>> 7 = q := by
    rw [Nat.shiftRight_eq_div_pow]
    omega
  rw [hrest]
  refine congrArg (· :: _) (UInt8.toNat_inj.mp ?_)
  rw [toNat_group]
  omega

theorem decodeVarintLoop_form {i v : UInt64} {r : ℕ} {data rest : List UInt8}
    (h : decodeVarintLoop i r data = some (v, rest)) :
    ∃ q, data = varintGroups q ++ rest ∧ groupsValue r (varintGroups q) = q * 2 ^ r := by
  induction data generalizing i r with
  | nil => simp [decodeVarintLoop] at h
  | cons b data ih =>
    rw [decodeVarintLoop] at h
    split_ifs at h with hb
    · obtain ⟨q, rfl, hq⟩ := ih h
      refine ⟨b.toNat + 128 * q, by rw [← group_cons hb, List.cons_append], ?_⟩
      rw [← group_cons hb, groupsValue, hq]
      ring
    · obtain ⟨-, rfl⟩ : _ ∧ data = rest := by simpa using h
      have hb' : b.toNat < 128 := by
        rw [UInt8.le_iff_toNat_le] at hb
        simpa using hb
      have hone : varintGroups b.toNat = [b] := by
        rw [varintGroups, if_neg (by omega), UInt8.ofNat_toNat]
      exact ⟨b.toNat, by rw [hone, List.singleton_append], by rw [hone]; rfl⟩

/-- **What the decoder takes is the form of a number**: of the one that its bytes add up to. -/
theorem decodeVarint_form {v : UInt64} {data rest : List UInt8}
    (h : decodeVarint data = some (v, rest)) :
    ∃ x, data = varint x ++ rest ∧ varintValue (varint x) = x := by
  rcases data with - | ⟨b, data⟩
  · simp [decodeVarint] at h
  rw [decodeVarint] at h
  split_ifs at h with hb
  · obtain ⟨-, rfl⟩ : _ ∧ data = rest := by simpa using h
    have hone : varint b.toNat = [b] := by
      rw [varint, if_pos, UInt8.ofNat_toNat]
      simpa [UInt8.lt_iff_toNat_lt] using hb
    exact ⟨b.toNat, by rw [hone, List.singleton_append], by rw [hone]; rfl⟩
  · obtain ⟨q, rfl, hq⟩ := decodeVarintLoop_form h
    have hb' : 240 ≤ b.toNat := by
      rw [UInt8.lt_iff_toNat_lt] at hb
      simpa using hb
    have hlt := b.toNat_lt
    -- the first byte and the number of the groups
    have hform : varint (b.toNat + 16 * q) = b :: varintGroups q := by
      have hrest : (b.toNat + 16 * q - 240) >>> 4 = q := by
        rw [Nat.shiftRight_eq_div_pow]
        omega
      rw [varint, if_neg (by omega), hrest]
      refine congrArg (· :: _) (UInt8.toNat_inj.mp ?_)
      rw [toNat_firstByte]
      omega
    refine ⟨b.toNat + 16 * q, by rw [hform, List.cons_append], ?_⟩
    rw [hform, varintValue, hq]
    ring

/-! ### The bytes that the decoder looks at -/

/-- The number of bytes up to the last group, or all of them if there is none. -/
def groupsSpan : List UInt8 → ℕ
  | [] => 0
  | b :: bs => if 128 ≤ b then groupsSpan bs + 1 else 1

/-- The number of bytes up to the end of the number, or all of them if they end inside of it. -/
def varintSpan : List UInt8 → ℕ
  | [] => 0
  | b :: bs => if b < 240 then 1 else groupsSpan bs + 1

theorem groupsSpan_le (l : List UInt8) : groupsSpan l ≤ l.length := by
  induction l with
  | nil => exact le_rfl
  | cons b l ih =>
    rw [groupsSpan, List.length_cons]
    split_ifs <;> omega

theorem varintSpan_le (l : List UInt8) : varintSpan l ≤ l.length := by
  cases l with
  | nil => exact le_rfl
  | cons b l =>
    have := groupsSpan_le l
    rw [varintSpan, List.length_cons]
    split_ifs <;> omega

section Span

variable {l x y rest : List UInt8} {i v : UInt64} {r : ℕ}

theorem decodeVarintLoop_append (h : decodeVarintLoop i r l = some (v, rest)) (y : List UInt8) :
    decodeVarintLoop i r (l ++ y) = some (v, rest ++ y) ∧
      groupsSpan (l ++ y) + rest.length = l.length := by
  induction l generalizing i r with
  | nil => simp [decodeVarintLoop] at h
  | cons b l ih =>
    rw [decodeVarintLoop] at h
    rw [List.cons_append, decodeVarintLoop, groupsSpan, List.length_cons]
    split_ifs at h ⊢ with hb
    · obtain ⟨hdec, hspan⟩ := ih h
      exact ⟨hdec, by omega⟩
    · obtain ⟨rfl, rfl⟩ : _ = v ∧ l = rest := by simpa using h
      exact ⟨rfl, by omega⟩

theorem decodeVarint_append (h : decodeVarint l = some (v, rest)) (y : List UInt8) :
    decodeVarint (l ++ y) = some (v, rest ++ y) ∧
      varintSpan (l ++ y) + rest.length = l.length := by
  rcases l with - | ⟨b, l⟩
  · simp [decodeVarint] at h
  rw [decodeVarint] at h
  rw [List.cons_append, decodeVarint, varintSpan, List.length_cons]
  split_ifs at h ⊢ with hb
  · obtain ⟨rfl, rfl⟩ : _ = v ∧ l = rest := by simpa using h
    exact ⟨rfl, by omega⟩
  · obtain ⟨hdec, hspan⟩ := decodeVarintLoop_append h y
    exact ⟨hdec, by omega⟩

theorem decodeVarintLoop_of_span (hspan : groupsSpan (l ++ x) ≤ l.length) (hx : x ≠ []) :
    ∃ o, decodeVarintLoop i r l = some o := by
  induction l generalizing i r with
  | nil =>
    obtain ⟨b, x, rfl⟩ := List.exists_cons_of_ne_nil hx
    rw [List.nil_append, groupsSpan] at hspan
    split_ifs at hspan <;> simp at hspan
  | cons b l ih =>
    rw [List.cons_append, groupsSpan, List.length_cons] at hspan
    rw [decodeVarintLoop]
    split_ifs at hspan ⊢ with hb
    · exact ih (by omega)
    · exact ⟨_, rfl⟩

theorem decodeVarint_of_span (hspan : varintSpan (l ++ x) ≤ l.length) (hx : x ≠ []) :
    ∃ o, decodeVarint l = some o := by
  rcases l with - | ⟨b, l⟩
  · obtain ⟨b, x, rfl⟩ := List.exists_cons_of_ne_nil hx
    rw [List.nil_append, varintSpan] at hspan
    split_ifs at hspan <;> simp at hspan
  rw [List.cons_append, varintSpan, List.length_cons] at hspan
  rw [decodeVarint]
  split_ifs at hspan ⊢ with hb
  · exact ⟨_, rfl⟩
  · exact decodeVarintLoop_of_span (by omega) hx

theorem groupsSpan_gt (hspan : l.length < groupsSpan (l ++ x)) (hy : y ≠ []) :
    l.length < groupsSpan (l ++ y) := by
  induction l with
  | nil =>
    obtain ⟨b, y, rfl⟩ := List.exists_cons_of_ne_nil hy
    rw [List.nil_append, groupsSpan]
    split_ifs <;> simp
  | cons b l ih =>
    rw [List.cons_append, groupsSpan, List.length_cons] at hspan ⊢
    split_ifs at hspan ⊢ with hb
    · have := ih (by omega)
      omega
    · omega

theorem varintSpan_gt (hspan : l.length < varintSpan (l ++ x)) (hy : y ≠ []) :
    l.length < varintSpan (l ++ y) := by
  rcases l with - | ⟨b, l⟩
  · obtain ⟨b, y, rfl⟩ := List.exists_cons_of_ne_nil hy
    rw [List.nil_append, varintSpan]
    split_ifs <;> simp
  rw [List.cons_append, varintSpan, List.length_cons] at hspan ⊢
  split_ifs at hspan ⊢ with hb
  · omega
  · have := groupsSpan_gt (l := l) (x := x) (by omega) hy
    omega

end Span

theorem varintSpan_varint {n : ℕ} (h : n < 2 ^ 64) : varintSpan (varint n) = (varint n).length := by
  have hdec := decodeVarint_varint h []
  rw [List.append_nil] at hdec
  have := (decodeVarint_append hdec []).2
  rwa [List.append_nil] at this

end SmartHAProxy
