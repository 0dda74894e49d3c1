/-
Which Content-Length headers `h1_parse_cont_len_header` accepts.

The values should be lists of decimal numbers below 2^64 that are all the same
(`ContLenValid`).  The code takes more (`ContLenTaken`): a blank value, a comma at
the end, and digits that pass 2^64, since the sum of a negative `long long` and
a digit is never smaller than the number.  It takes less, too: 2^63 and 2^63 + 1 look like an
overflow of the signed number.

`contLen_exact_iff`: the headers for which this makes no difference.
-/
import SmartHAProxy.H1.Message

namespace SmartHAProxy

variable {c : UInt8} {t n : ℕ} {ds b f s : CStr}

/-! ### Numbers -/

/-- The number that decimal digits make after the number `x`. -/
def decFrom (x : ℕ) (ds : CStr) : ℕ := ds.foldl (fun x c => 10 * x + (c.toNat - 48)) x

theorem le_decFrom (x : ℕ) (ds : CStr) : x ≤ decFrom x ds := by
  induction ds generalizing x with
  | nil => exact Nat.le_refl x
  | cons c ds ih =>
    refine Nat.le_trans ?_ (ih (10 * x + (c.toNat - 48)))
    omega

theorem decFrom_append (x : ℕ) (p q : CStr) : decFrom x (p ++ q) = decFrom (decFrom x p) q :=
  List.foldl_append

def digitOf (t : ℕ) : UInt8 := UInt8.ofNat (48 + t)

theorem isDigit_iff : isDigit c = true ↔ 48 ≤ c.toNat ∧ c.toNat ≤ 57 := by
  simp [isDigit, UInt8.le_iff_toNat_le]

theorem isDigit_digitOf (ht : t ≤ 9) : isDigit (digitOf t) = true := by
  have hlt : 48 + t < 2 ^ 8 := by omega
  rw [isDigit_iff, digitOf, UInt8.toNat_ofNat_of_lt' hlt]
  omega

theorem digitOf_toNat (ht : t ≤ 9) : (digitOf t).toNat - 48 = t := by
  have hlt : 48 + t < 2 ^ 8 := by omega
  rw [digitOf, UInt8.toNat_ofNat_of_lt' hlt]
  exact Nat.add_sub_cancel_left 48 t

/-- One more digit, as the code reads it. -/
def natDigit (x d : ℕ) : Option ℕ :=
  if x > 1844674407370955161 ∨ 10 * x < 2 ^ 63 ∧ 2 ^ 63 ≤ 10 * x + d then none
  else some ((10 * x + d) % 2 ^ 64)

/-- Digits after the number `x`, as the code reads them. -/
def natRead (x : ℕ) : CStr → Option ℕ
  | [] => some x
  | c :: ds => (natDigit x (c.toNat - 48)).bind fun x => natRead x ds

/-- Numbers that are not taken for an overflow. -/
def Plain (n : ℕ) : Prop := n < 2 ^ 64 ∧ n ≠ 2 ^ 63 ∧ n ≠ 2 ^ 63 + 1

/-- **Digits as the code reads them.**  A number below 2^64 is read as it is, unless it is
2^63 or 2^63 + 1; digits that make 2^64 + t, with t up to 3, are read like the digit t. -/
inductive ContLenReads : CStr → ℕ → Prop
  | exact {ds : CStr} {n : ℕ} (h : decFrom 0 ds = n) (hn : Plain n) : ContLenReads ds n
  | pass {p q : CStr} {t n : ℕ} (ht : t ≤ 3) (hp : decFrom 0 p = 2 ^ 64 + t)
      (h : ContLenReads (digitOf t :: q) n) : ContLenReads (p ++ q) n

theorem natRead_append (x : ℕ) (p q : CStr) :
    natRead x (p ++ q) = (natRead x p).bind fun x => natRead x q := by
  induction p generalizing x with
  | nil => rfl
  | cons c p ih =>
    rw [List.cons_append, natRead, natRead, Option.bind_assoc]
    congr 1
    funext y
    exact ih y

theorem natRead_digitOf (ht : t ≤ 3) (q : CStr) : natRead 0 (digitOf t :: q) = natRead t q := by
  rw [natRead, digitOf_toNat (by omega), natDigit, if_neg (by omega), Nat.mod_eq_of_lt (by omega)]
  show natRead (10 * 0 + t) q = natRead t q
  rw [Nat.mul_zero, Nat.zero_add]

theorem natDigit_plain {x d : ℕ} (hd : d ≤ 9) (h : Plain (10 * x + d)) :
    natDigit x d = some (10 * x + d) := by
  obtain ⟨hlt, h63, h63'⟩ := h
  have hcheck : ¬(x > 1844674407370955161 ∨ 10 * x < 2 ^ 63 ∧ 2 ^ 63 ≤ 10 * x + d) := by
    -- the last multiple of ten before 2^63 is 2^63 - 8
    omega
  rw [natDigit, if_neg hcheck, Nat.mod_eq_of_lt hlt]

theorem natRead_plain {x : ℕ} (ds : CStr) (hds : ∀ c ∈ ds, isDigit c = true)
    (h : Plain (decFrom x ds)) : natRead x ds = some (decFrom x ds) := by
  induction ds generalizing x with
  | nil => rfl
  | cons c ds ih =>
    obtain ⟨hc, hds⟩ := List.forall_mem_cons.mp hds
    have hd : c.toNat - 48 ≤ 9 := by
      have := isDigit_iff.mp hc
      omega
    have hnext : Plain (10 * x + (c.toNat - 48)) := by
      rcases ds with - | ⟨c', ds⟩
      · exact h
      · -- one more digit, and 2^63 would be too large
        have hle : 10 * (10 * x + (c.toNat - 48)) + (c'.toNat - 48) ≤ decFrom x (c :: c' :: ds) :=
          le_decFrom _ ds
        obtain ⟨hlt, -, -⟩ := h
        refine ⟨?_, ?_, ?_⟩ <;> omega
    rw [natRead, natDigit_plain hd hnext]
    exact ih hds h

/-- **What the digits after `x` are, when they are read as `n`**: the number itself, or they
pass 2^64 by at most 3. -/
theorem natRead_cases {x : ℕ} (ds : CStr) (hds : ∀ c ∈ ds, isDigit c = true) (hx : Plain x)
    (h : natRead x ds = some n) :
    (decFrom x ds = n ∧ Plain n) ∨
      ∃ p q t, ds = p ++ q ∧ t ≤ 3 ∧ decFrom x p = 2 ^ 64 + t ∧ natRead t q = some n := by
  induction ds generalizing x with
  | nil =>
    cases h
    exact .inl ⟨rfl, hx⟩
  | cons c ds ih =>
    obtain ⟨hc, hds⟩ := List.forall_mem_cons.mp hds
    have hd : c.toNat - 48 ≤ 9 := by
      have := isDigit_iff.mp hc
      omega
    rw [natRead, natDigit] at h
    split_ifs at h with hcheck
    · cases h
    · have h : natRead ((10 * x + (c.toNat - 48)) % 2 ^ 64) ds = some n := h
      by_cases hlt : 10 * x + (c.toNat - 48) < 2 ^ 64
      · rw [Nat.mod_eq_of_lt hlt] at h
        have hnext : Plain (10 * x + (c.toNat - 48)) := by
          refine ⟨hlt, ?_, ?_⟩ <;> omega
        rcases ih hds hnext h with hn | ⟨p, q, t, rfl, ht, hp, hq⟩
        · exact .inl hn
        · exact .inr ⟨c :: p, q, t, rfl, ht, hp, hq⟩
      · -- x ≤ 1844674407370955161
        obtain ⟨t, ht⟩ := Nat.exists_eq_add_of_le (Nat.le_of_not_lt hlt)
        have ht3 : t ≤ 3 := by omega
        have hmod : (2 ^ 64 + t) % 2 ^ 64 = t := by omega
        rw [ht, hmod] at h
        exact .inr ⟨[c], ds, t, rfl, ht3, ht, h⟩

theorem natRead_pass {p : CStr} (hp : ∀ c ∈ p, isDigit c = true) (ht : t ≤ 3)
    (h : decFrom 0 p = 2 ^ 64 + t) : natRead 0 p = some t := by
  rcases List.eq_nil_or_concat p with rfl | ⟨p, c, rfl⟩
  · have h : 0 = 2 ^ 64 + t := h
    omega
  · rw [List.concat_eq_append] at *
    rw [List.forall_mem_append, List.forall_mem_singleton] at hp
    obtain ⟨hp, hc⟩ := hp
    have hd := isDigit_iff.mp hc
    rw [decFrom_append] at h
    have h : 10 * decFrom 0 p + (c.toNat - 48) = 2 ^ 64 + t := h
    have hplain : Plain (decFrom 0 p) := by
      refine ⟨?_, ?_, ?_⟩ <;> omega
    rw [natRead_append, natRead_plain p hp hplain]
    show (natDigit (decFrom 0 p) (c.toNat - 48)).bind (fun x => some x) = some t
    rw [natDigit, if_neg (by omega), h]
    show some ((2 ^ 64 + t) % 2 ^ 64) = some t
    rw [Nat.add_mod_left, Nat.mod_eq_of_lt (by omega)]

theorem two_le_length {p : CStr} (hp : ∀ c ∈ p, isDigit c = true) (h : decFrom 0 p = 2 ^ 64 + t) :
    2 ≤ p.length := by
  rcases p with - | ⟨c, - | ⟨c', p⟩⟩
  · have h : 0 = 2 ^ 64 + t := h
    omega
  · have h : 10 * 0 + (c.toNat - 48) = 2 ^ 64 + t := h
    have := isDigit_iff.mp (hp c (List.mem_singleton.mpr rfl))
    omega
  · exact Nat.le_add_left 2 p.length

/-- **`ContLenReads` is what the loop for the digits computes.** -/
theorem natRead_iff (ds : CStr) (n : ℕ) (hds : ∀ c ∈ ds, isDigit c = true) :
    natRead 0 ds = some n ↔ ContLenReads ds n := by
  constructor
  · -- each time the number passes 2^64, two digits at least are gone, and one is new
    intro h
    induction hlen : ds.length using Nat.strong_induction_on generalizing ds with
    | _ len ih =>
      rcases natRead_cases ds hds ⟨by decide, by decide, by decide⟩ h with
        ⟨hn, hplain⟩ | ⟨p, q, t, rfl, ht, hp, hq⟩
      · exact .exact hn hplain
      · rw [List.forall_mem_append] at hds
        have hlt : q.length + 1 < len := by
          have := two_le_length hds.1 hp
          rw [List.length_append] at hlen
          omega
        have hdigits : ∀ c ∈ digitOf t :: q, isDigit c = true :=
          List.forall_mem_cons.mpr ⟨isDigit_digitOf (by omega), hds.2⟩
        exact .pass ht hp (ih _ hlt _ hdigits ((natRead_digitOf ht q).trans hq) rfl)
  · intro h
    induction h with
    | exact h hn => exact h ▸ natRead_plain _ hds (h.symm ▸ hn)
    | pass ht hp _ ih =>
      rw [List.forall_mem_append] at hds
      rw [natRead_append, natRead_pass hds.1 ht hp]
      show natRead _ _ = some _
      rw [← natRead_digitOf ht]
      exact ih (List.forall_mem_cons.mpr ⟨isDigit_digitOf (by omega), hds.2⟩)

theorem toInt64_lt_iff (a b : UInt64) :
    a.toInt64 < b.toInt64 ↔ (a.toNat + 2 ^ 63) % 2 ^ 64 < (b.toNat + 2 ^ 63) % 2 ^ 64 := by
  have toInt (x : UInt64) : x.toInt64.toInt = ((x.toNat + 2 ^ 63) % 2 ^ 64 : ℕ) - (2 ^ 63 : ℤ) := by
    show x.toBitVec.toInt = _
    have hlt : x.toNat < 2 ^ 64 := x.toNat_lt
    rw [BitVec.toInt_eq_toNat_cond]
    show (if 2 * x.toNat < 2 ^ 64 then (x.toNat : ℤ) else (x.toNat : ℤ) - (2 ^ 64 : ℕ)) = _
    split_ifs <;> omega
  rw [Int64.lt_iff_toInt_lt, toInt, toInt]
  omega

theorem signed_sum_lt_iff {y d : ℕ} (hy : y ≤ 2 ^ 64 - 6) (hd : d ≤ 9) :
    ((y + d) % 2 ^ 64 + 2 ^ 63) % 2 ^ 64 < (y + 2 ^ 63) % 2 ^ 64 ↔ y < 2 ^ 63 ∧ 2 ^ 63 ≤ y + d := by
  by_cases hneg : y < 2 ^ 63
  · rw [Nat.mod_eq_of_lt (show y + d < 2 ^ 64 by omega),
      Nat.mod_eq_of_lt (show y + 2 ^ 63 < 2 ^ 64 by omega)]
    omega
  · have hy' : (y + 2 ^ 63) % 2 ^ 64 = y - 2 ^ 63 := by omega
    rw [hy']
    by_cases hwrap : y + d < 2 ^ 64
    · rw [Nat.mod_eq_of_lt hwrap]
      omega
    · -- the sum is 3 at most
      have hmod : (y + d) % 2 ^ 64 = y + d - 2 ^ 64 := by omega
      rw [hmod, Nat.mod_eq_of_lt (show y + d - 2 ^ 64 + 2 ^ 63 < 2 ^ 64 by omega)]
      omega

theorem contLenDigit_eq (cl : UInt64) (hc : isDigit c = true) :
    (contLenDigit cl c).map UInt64.toNat = natDigit cl.toNat (c.toNat - 48) := by
  have hd := isDigit_iff.mp hc
  have hgt : cl > ullongMaxDiv10 ↔ cl.toNat > 1844674407370955161 := UInt64.lt_iff_toNat_lt
  unfold contLenDigit natDigit
  by_cases hle : cl > ullongMaxDiv10
  · rw [if_pos hle, if_pos (.inl (hgt.mp hle))]
    rfl
  · rw [if_neg hle]
    rw [hgt] at hle
    have h10 : (cl * 10).toNat = 10 * cl.toNat := by
      rw [UInt64.toNat_mul]
      show cl.toNat * 10 % 2 ^ 64 = _
      omega
    have hsum : (cl * 10 + UInt64.ofNat (c.toNat - 48)).toNat =
        (10 * cl.toNat + (c.toNat - 48)) % 2 ^ 64 := by
      have hlt : c.toNat - 48 < 2 ^ 64 := by omega
      rw [UInt64.toNat_add, h10, UInt64.toNat_ofNat_of_lt' hlt]
    have hlt : (cl * 10 + UInt64.ofNat (c.toNat - 48)).toInt64 < (cl * 10).toInt64 ↔
        10 * cl.toNat < 2 ^ 63 ∧ 2 ^ 63 ≤ 10 * cl.toNat + (c.toNat - 48) := by
      rw [toInt64_lt_iff, hsum, h10]
      exact signed_sum_lt_iff (by omega) (by omega)
    show Option.map _ (if _ then none else _) = _
    by_cases hover : 10 * cl.toNat < 2 ^ 63 ∧ 2 ^ 63 ≤ 10 * cl.toNat + (c.toNat - 48)
    · rw [if_pos (hlt.mpr hover), if_pos (.inr hover)]
      rfl
    · rw [if_neg (mt hlt.mp hover), if_neg (not_or.mpr ⟨hle, hover⟩)]
      exact congrArg some hsum

/-! ### The fields of a value -/

def Blank (s : CStr) : Prop := ∀ c ∈ s, httpIsLws c = true

def Digits (s : CStr) : Prop := ∀ c ∈ s, isDigit c = true

def NumberField (f : CStr) : Prop :=
  ∃ a ds b, f = a ++ (ds ++ b) ∧ Blank a ∧ Digits ds ∧ ds ≠ [] ∧ Blank b

def digitsOf (f : CStr) : CStr := f.filter isDigit

/-- The fields of a value, between commas. -/
abbrev commaFields (s : CStr) : List CStr := s.splitOn 44

/-- **What a Content-Length should be**: a list of decimal numbers that are all `n`. -/
def ContLenValid (n : ℕ) (s : CStr) : Prop :=
  n < 2 ^ 64 ∧ ∀ f ∈ commaFields s, NumberField f ∧ decFrom 0 (digitsOf f) = n

/-- A field that the code takes for the number `n`. -/
def FieldTaken (n : ℕ) (f : CStr) : Prop := NumberField f ∧ ContLenReads (digitsOf f) n

/-- The fields that the code takes: the last one may be blank. -/
def FieldsTaken (n : ℕ) : List CStr → Prop
  | [] => True
  | [f] => Blank f ∨ FieldTaken n f
  | f :: fs => FieldTaken n f ∧ FieldsTaken n fs

/-- A Content-Length that the code takes for the number `n`. -/
def ContLenTaken (n : ℕ) (s : CStr) : Prop := FieldsTaken n (commaFields s)

theorem blank_not_digit (h : httpIsLws c = true) : isDigit c = false := by
  simp only [httpIsLws, Bool.or_eq_true, beq_iff_eq] at h
  rcases h with ((rfl | rfl) | rfl) | rfl <;> rfl

theorem digitsOf_eq {a : CStr} (ha : Blank a) (hds : Digits ds) (hb : Blank b) :
    digitsOf (a ++ (ds ++ b)) = ds := by
  have hnone {s : CStr} (h : Blank s) : s.filter isDigit = [] :=
    List.filter_eq_nil_iff.mpr fun c hc => Bool.not_eq_true _ ▸ blank_not_digit (h c hc)
  rw [digitsOf, List.filter_append, List.filter_append, hnone ha, hnone hb,
    List.filter_eq_self.mpr hds, List.nil_append, List.append_nil]

theorem digits_digitsOf (f : CStr) : Digits (digitsOf f) := fun _ hc => (List.mem_filter.mp hc).2

/-! ### The loops -/

/-- The end of a field: the end of the value, or a comma. -/
def AtEnd (r : CStr) : Prop := r = [] ∨ ∃ s, r = 44 :: s

/-- A message that has not got a length other than `n`. -/
def Compat (h1m : H1m) (n : ℕ) : Prop := h1m.flags.clen = true → h1m.bodyLen.toNat = n

theorem exists_span (p : UInt8 → Bool) (s : CStr) :
    ∃ a r, s = a ++ r ∧ (∀ c ∈ a, p c = true) ∧ (r = [] ∨ ∃ c t, r = c :: t ∧ p c = false) := by
  induction s with
  | nil => exact ⟨[], [], rfl, fun c hc => absurd hc List.not_mem_nil, .inl rfl⟩
  | cons c s ih =>
    cases hc : p c with
    | false =>
      exact ⟨[], c :: s, rfl, fun c hc => absurd hc List.not_mem_nil, .inr ⟨c, s, rfl, hc⟩⟩
    | true =>
      obtain ⟨a, r, rfl, ha, hr⟩ := ih
      exact ⟨c :: a, r, rfl, List.forall_mem_cons.mpr ⟨hc, ha⟩, hr⟩

theorem contLenWord_blank (h1m : H1m) (value : Ist) {a : CStr} (ptr : ℕ) (s : CStr)
    (ha : Blank a) : ∃ ptr', contLenWord h1m value ptr (a ++ s) = contLenWord h1m value ptr' s := by
  induction a generalizing ptr with
  | nil => exact ⟨ptr, by rw [List.nil_append]⟩
  | cons c a ih =>
    obtain ⟨hc, ha⟩ := List.forall_mem_cons.mp ha
    rw [List.cons_append, contLenWord, if_pos hc]
    exact ih _ ha

theorem contLenBlanks_blank (h1m : H1m) (value word : Ist) (cl : UInt64) (ptr : ℕ) (s : CStr)
    (hb : Blank b) :
    ∃ ptr', contLenBlanks h1m value word cl ptr (b ++ s) =
      contLenBlanks h1m value word cl ptr' s := by
  induction b generalizing ptr with
  | nil => exact ⟨ptr, by rw [List.nil_append]⟩
  | cons c b ih =>
    obtain ⟨hc, hb⟩ := List.forall_mem_cons.mp hb
    rw [List.cons_append, contLenBlanks, if_pos hc]
    exact ih _ hb

theorem contLenDigits_blank (h1m : H1m) (value word : Ist) (cl : UInt64) (ptr : ℕ) (s : CStr)
    (hb : Blank b) (hs : b = [] → ∀ c ∈ s.head?, isDigit c = false) :
    ∃ ptr', contLenDigits h1m value word cl ptr (b ++ s) =
      contLenBlanks h1m value word cl ptr' s := by
  rcases b with - | ⟨c, b⟩
  · rcases s with - | ⟨c, s⟩
    · exact ⟨ptr, by rw [List.nil_append, contLenDigits, contLenBlanks]⟩
    · have hc := hs rfl c rfl
      refine ⟨ptr, ?_⟩
      rw [List.nil_append, contLenDigits, contLenBlanks, hc, if_neg Bool.false_ne_true]
  · obtain ⟨hc, hb⟩ := List.forall_mem_cons.mp hb
    rw [List.cons_append, contLenDigits, blank_not_digit hc, if_neg Bool.false_ne_true, if_pos hc]
    exact contLenBlanks_blank h1m value word cl _ s hb

theorem contLenDigits_digits (h1m : H1m) (value word : Ist) (cl : UInt64) (ds : CStr) (ptr : ℕ)
    (s : CStr) (hds : Digits ds) :
    (natRead cl.toNat ds = none ∧
        contLenDigits h1m value word cl ptr (ds ++ s) = (false, h1m, value)) ∨
      ∃ cl' word' ptr', natRead cl.toNat ds = some (UInt64.toNat cl') ∧
        contLenDigits h1m value word cl ptr (ds ++ s) =
          contLenDigits h1m value word' cl' ptr' s := by
  induction ds generalizing word cl ptr with
  | nil => exact .inr ⟨cl, word, ptr, rfl, by rw [List.nil_append]⟩
  | cons c ds ih =>
    obtain ⟨hc, hds⟩ := List.forall_mem_cons.mp hds
    rw [List.cons_append, contLenDigits, if_pos hc, natRead, ← contLenDigit_eq cl hc]
    rcases contLenDigit cl c with - | cl'
    · exact .inl ⟨rfl, rfl⟩
    · exact ih _ cl' _ hds

theorem contLenWord_digits (h1m : H1m) (value : Ist) (ptr : ℕ) (s : CStr) (hds : Digits ds)
    (hne : ds ≠ []) :
    (natRead 0 ds = none ∧ contLenWord h1m value ptr (ds ++ s) = (false, h1m, value)) ∨
      ∃ cl word ptr', natRead 0 ds = some (UInt64.toNat cl) ∧
        contLenWord h1m value ptr (ds ++ s) = contLenDigits h1m value word cl ptr' s := by
  obtain ⟨c, ds, rfl⟩ := List.exists_cons_of_ne_nil hne
  obtain ⟨hc, hds⟩ := List.forall_mem_cons.mp hds
  have hlws : httpIsLws c = false := by
    by_contra h
    rw [blank_not_digit ((Bool.not_eq_false _).mp h)] at hc
    cases hc
  have hdigit : (contLenDigit 0 c).map UInt64.toNat = natDigit 0 (c.toNat - 48) :=
    contLenDigit_eq 0 hc
  rw [List.cons_append, contLenWord, hlws, if_neg Bool.false_ne_true, if_pos hc, natRead, ← hdigit]
  rcases contLenDigit 0 c with - | cl
  · exact .inl ⟨rfl, rfl⟩
  · exact contLenDigits_digits h1m value _ cl ds _ s hds

theorem contLenWord_number (h1m : H1m) (value : Ist) (ptr : ℕ) (r : CStr) (hf : NumberField f)
    (hr : AtEnd r) :
    (natRead 0 (digitsOf f) = none ∧ ∃ e, contLenWord h1m value ptr (f ++ r) = (false, e)) ∨
      ∃ cl word ptr', natRead 0 (digitsOf f) = some (UInt64.toNat cl) ∧
        contLenWord h1m value ptr (f ++ r) = contLenBlanks h1m value word cl ptr' r := by
  obtain ⟨a, ds, b, rfl, ha, hds, hne, hb⟩ := hf
  rw [digitsOf_eq ha hds hb, List.append_assoc, List.append_assoc]
  obtain ⟨ptr₁, h₁⟩ := contLenWord_blank h1m value ptr (ds ++ (b ++ r)) ha
  rw [h₁]
  rcases contLenWord_digits h1m value ptr₁ (b ++ r) hds hne with
    ⟨hread, h⟩ | ⟨cl, word, ptr₂, hread, h₂⟩
  · exact .inl ⟨hread, _, h⟩
  · have hhead : ∀ c ∈ r.head?, isDigit c = false := by
      rcases hr with rfl | ⟨s, rfl⟩
      · exact fun c hc => absurd hc (by simp)
      · exact fun c hc => Option.some.inj hc ▸ rfl
    obtain ⟨ptr₃, h₃⟩ := contLenDigits_blank h1m value word cl ptr₂ r hb fun _ => hhead
    exact .inr ⟨cl, word, ptr₃, hread, h₂.trans h₃⟩

/-- **A field that is neither blank nor a number** ends the call. -/
theorem contLenWord_stray (h1m : H1m) (value : Ist) (f : CStr) (ptr : ℕ) (r : CStr)
    (hf : ∀ c ∈ f, c ≠ 44) (hblank : ¬Blank f) (hnum : ¬NumberField f) :
    ∃ e, contLenWord h1m value ptr (f ++ r) = (false, e) := by
  obtain ⟨a, t, rfl, ha, ht⟩ := exists_span httpIsLws f
  obtain ⟨ds, u, rfl, hds, hu⟩ := exists_span isDigit t
  obtain ⟨b, g, rfl, hb, hg⟩ := exists_span httpIsLws u
  rw [List.append_assoc, List.append_assoc]
  obtain ⟨ptr₁, h₁⟩ := contLenWord_blank h1m value ptr (ds ++ ((b ++ g) ++ r)) ha
  rw [h₁]
  rcases eq_or_ne ds [] with rfl | hne
  · -- a byte that is neither a blank nor a digit
    rcases ht with ht | ⟨c, t, ht, hlws⟩
    · rw [ht, List.append_nil] at hblank
      exact absurd ha hblank
    · rcases hu with hu | ⟨c', t', hu, hdigit⟩
      · rw [hu] at ht
        cases ht
      · rw [List.nil_append] at ht
        rw [hu] at ht ⊢
        cases ht
        rw [List.nil_append, List.cons_append, contLenWord, hlws, hdigit,
          if_neg Bool.false_ne_true, if_neg Bool.false_ne_true]
        exact ⟨_, rfl⟩
  · rcases contLenWord_digits h1m value ptr₁ ((b ++ g) ++ r) hds hne with
      ⟨-, h⟩ | ⟨cl, word, ptr₂, -, h₂⟩
    · exact ⟨_, h⟩
    · rcases hg with rfl | ⟨c, g, rfl, hlws⟩
      · -- nothing follows the number
        rw [List.append_nil] at hnum
        exact absurd ⟨a, ds, b, rfl, ha, hds, hne, hb⟩ hnum
      · have hhead : b = [] → ∀ c' ∈ (c :: (g ++ r)).head?, isDigit c' = false := by
          rintro rfl c' hc'
          cases hc'
          rcases hu with hu | ⟨c', t', hu, hdigit⟩
          · cases hu
          · cases hu
            exact hdigit
        rw [List.append_assoc, List.cons_append] at h₂ ⊢
        obtain ⟨ptr₃, h₃⟩ := contLenDigits_blank h1m value word cl ptr₂ (c :: (g ++ r)) hb hhead
        have hcomma : c ≠ 44 := hf c (by simp)
        rw [h₂, h₃, contLenBlanks, hlws, if_neg Bool.false_ne_true, if_neg hcomma]
        exact ⟨_, rfl⟩

/-! ### Values -/

theorem contLenStore_cases (h1m : H1m) (word : Ist) (cl : UInt64) :
    (contLenStore h1m word cl = none ∧ ¬Compat h1m cl.toNat) ∨
      ∃ r, contLenStore h1m word cl = some r ∧ Compat h1m cl.toNat ∧
        r.1.flags.clen = true ∧ r.1.bodyLen = cl := by
  unfold contLenStore
  have hiff : Compat h1m cl.toNat ↔ ¬(h1m.flags.clen = true ∧ cl ≠ h1m.bodyLen) := by
    rw [not_and, not_not]
    exact imp_congr_right fun _ => UInt64.toNat_inj.trans eq_comm
  by_cases h : h1m.flags.clen = true ∧ cl ≠ h1m.bodyLen
  · rw [if_pos h]
    exact .inl ⟨rfl, fun hc => hiff.mp hc h⟩
  · rw [if_neg h]
    exact .inr ⟨_, rfl, hiff.mpr h, rfl, rfl⟩

/-- The call succeeds, with a message that fits the length `n`. -/
def Accepts (n : ℕ) (e : ContLenEnd) : Prop := e.1 = true ∧ Compat e.2.1 n

theorem accepts_store (h1m : H1m) (value word : Ist) (cl : UInt64) (n : ℕ)
    (k : H1m × Ist → ContLenEnd) (P : Prop) (hk : ∀ r, Accepts n (k r) ↔ Compat r.1 n ∧ P) :
    Accepts n ((contLenStore h1m word cl).elim (false, h1m, value) k) ↔
      Compat h1m n ∧ cl.toNat = n ∧ P := by
  rcases contLenStore_cases h1m word cl with ⟨hnone, hc⟩ | ⟨r, hr, hc, hclen, hlen⟩
  · rw [hnone]
    refine iff_of_false (fun h => Bool.false_ne_true h.1) ?_
    rintro ⟨h, rfl, -⟩
    exact hc h
  · have hcompat : Compat r.1 n ↔ cl.toNat = n :=
      ⟨fun h => hlen ▸ h hclen, fun h _ => hlen.symm ▸ h⟩
    rw [hr]
    show Accepts n (k r) ↔ _
    rw [hk, hcompat]
    constructor
    · rintro ⟨rfl, hP⟩
      exact ⟨hc, rfl, hP⟩
    · exact fun h => h.2

theorem not_blank_of_number (h : NumberField f) : ¬Blank f := by
  obtain ⟨a, ds, b, rfl, -, hds, hne, -⟩ := h
  intro hblank
  obtain ⟨c, ds, rfl⟩ := List.exists_cons_of_ne_nil hne
  have hlws := blank_not_digit (hblank c (by simp))
  rw [hds c List.mem_cons_self] at hlws
  cases hlws

theorem fieldTaken_iff (hf : NumberField f) (n : ℕ) :
    FieldTaken n f ↔ natRead 0 (digitsOf f) = some n := by
  rw [FieldTaken, natRead_iff _ _ (digits_digitsOf f)]
  exact and_iff_right hf

theorem commaFields_end (hf : ∀ c ∈ f, (c == 44) = false) : commaFields f = [f] :=
  List.splitOnP_eq_singleton hf

theorem commaFields_comma (hf : ∀ c ∈ f, (c == 44) = false) (s : CStr) :
    commaFields (f ++ 44 :: s) = f :: commaFields s :=
  List.splitOnP_append_cons_of_forall_mem hf 44 (beq_self_eq_true 44) s

theorem fieldsTaken_cons (n : ℕ) (f s : CStr) :
    FieldsTaken n (f :: commaFields s) ↔ FieldTaken n f ∧ ContLenTaken n s := by
  obtain ⟨g, gs, hg⟩ := List.exists_cons_of_ne_nil (List.splitOnP_ne_nil (· == (44 : UInt8)) s)
  have hg : commaFields s = g :: gs := hg
  rw [ContLenTaken, hg]
  exact Iff.rfl

theorem contLenWord_field (h1m : H1m) (value : Ist) (ptr n : ℕ) {r : CStr} (P : Prop)
    (hf : ∀ c ∈ f, c ≠ 44) (hblank : ¬Blank f) (hr : AtEnd r)
    (hend : ∀ word cl ptr, Accepts n (contLenBlanks h1m value word cl ptr r) ↔
      Compat h1m n ∧ cl.toNat = n ∧ P) :
    Accepts n (contLenWord h1m value ptr (f ++ r)) ↔ Compat h1m n ∧ FieldTaken n f ∧ P := by
  by_cases hnum : NumberField f
  · rw [fieldTaken_iff hnum]
    rcases contLenWord_number h1m value ptr r hnum hr with
      ⟨hread, e, h⟩ | ⟨cl, word, ptr', hread, h⟩
    · rw [h, hread]
      exact iff_of_false (fun h => Bool.false_ne_true h.1) fun h => Option.some_ne_none n h.2.1.symm
    · rw [h, hread, hend, Option.some.injEq]
  · obtain ⟨e, h⟩ := contLenWord_stray h1m value f ptr r hf hblank hnum
    rw [h]
    exact iff_of_false (fun h => Bool.false_ne_true h.1) fun h => hnum h.2.1.1

/-- **The value of a header** fits the length `n` if the message does, and the value is taken
for `n`.  By induction on the value, a field at a time. -/
theorem contLenWord_iff (h1m : H1m) (value : Ist) (ptr n : ℕ) (s : CStr) :
    Accepts n (contLenWord h1m value ptr s) ↔ Compat h1m n ∧ ContLenTaken n s := by
  induction hlen : s.length using Nat.strong_induction_on generalizing h1m value ptr s with
  | _ len ih =>
    obtain ⟨f, r, rfl, hf, hr⟩ := exists_span (fun c => !(c == 44)) s
    have hf : ∀ c ∈ f, (c == 44) = false := fun c hc => (Bool.not_eq_true' _).mp (hf c hc)
    have hf' : ∀ c ∈ f, c ≠ 44 := fun c hc => beq_eq_false_iff_ne.mp (hf c hc)
    rcases hr with rfl | ⟨c, s, rfl, hc⟩
    · rw [ContLenTaken, List.append_nil, commaFields_end hf]
      show _ ↔ _ ∧ (Blank f ∨ FieldTaken n f)
      by_cases hblank : Blank f
      · obtain ⟨ptr', h⟩ := contLenWord_blank h1m value ptr [] hblank
        rw [List.append_nil] at h
        rw [h, contLenWord]
        exact and_congr_left' (iff_of_true rfl (.inl hblank)) |>.trans and_comm
      · have hfield := contLenWord_field h1m value ptr n True hf' hblank (.inl rfl)
          fun word cl ptr => by
            rw [contLenBlanks]
            refine accepts_store h1m value word cl n _ True fun r => ?_
            exact (and_iff_right rfl).trans (and_true _).to_iff.symm
        rw [List.append_nil, and_true] at hfield
        rw [hfield, or_iff_right hblank]
    · cases beq_iff_eq.mp ((Bool.not_eq_false' _).mp hc)
      have hlt : s.length < len := by
        rw [List.length_append, List.length_cons] at hlen
        omega
      rw [ContLenTaken, commaFields_comma hf, fieldsTaken_cons]
      by_cases hblank : Blank f
      · -- a blank field is fine at the end only
        obtain ⟨ptr', h⟩ := contLenWord_blank h1m value ptr (44 :: s) hblank
        have hfail : contLenWord h1m value ptr' (44 :: s) = (false, h1m, value) := by
          rw [contLenWord]
          rfl
        rw [h, hfail]
        exact iff_of_false (fun h => Bool.false_ne_true h.1)
          fun h => not_blank_of_number h.2.1.1 hblank
      · refine contLenWord_field h1m value ptr n _ hf' hblank (.inr ⟨s, rfl⟩) ?_
        intro word cl ptr'
        rw [contLenBlanks]
        exact accepts_store h1m value word cl n _ _ fun r => ih _ hlt r.1 r.2 _ s rfl

/-! ### Messages -/

/-- The Content-Length headers of a message, one after the other. -/
def parseContLens (h1m : H1m) : List Ist → Option H1m
  | [] => some h1m
  | v :: vs =>
    let r := h1ParseContLenHeader h1m v
    if r.1 < 0 then none else parseContLens r.2.1 vs

/-- **The headers fit the length `n`** if the message does, and each one is taken for `n`. -/
theorem parseContLens_iff (h1m : H1m) (n : ℕ) (vs : List Ist) :
    (∃ h1m', parseContLens h1m vs = some h1m' ∧ Compat h1m' n) ↔
      Compat h1m n ∧ ∀ v ∈ vs, ContLenTaken n v.str := by
  induction vs generalizing h1m with
  | nil => simp [parseContLens]
  | cons v vs ih =>
    have hword := contLenWord_iff h1m v v.ptr n v.str
    rw [List.forall_mem_cons, ← and_assoc, ← hword, parseContLens, h1ParseContLenHeader]
    rcases hcall : contLenWord h1m v v.ptr v.str with ⟨- | -, r⟩
    · refine iff_of_false ?_ fun h => Bool.false_ne_true h.1.1
      rintro ⟨h1m', h, -⟩
      cases h
    · have hret : ¬(if h1m.flags.clen then 0 else 1 : ℤ) < 0 := by
        split_ifs <;> decide
      show (∃ h1m', (if (if h1m.flags.clen then 0 else 1 : ℤ) < 0 then none
        else parseContLens r.1 vs) = some h1m' ∧ Compat h1m' n) ↔ _
      rw [if_neg hret, ih]
      exact and_congr_left' (and_iff_right rfl).symm

/-! ### Exactness -/

/-- The last field is not blank, and no field holds a number from 2^64 on. -/
def ContLenTight (s : CStr) : Prop :=
  (∀ f ∈ (commaFields s).getLast?, ¬Blank f) ∧
    ∀ f ∈ commaFields s, decFrom 0 (digitsOf f) < 2 ^ 64

/-- Headers that all give the length `n`. -/
def ContLensValid (n : ℕ) (vs : List Ist) : Prop := ∀ v ∈ vs, ContLenValid n v.str

/-- Headers that the code all takes for the length `n`. -/
def ContLensTaken (n : ℕ) (vs : List Ist) : Prop := ∀ v ∈ vs, ContLenTaken n v.str

/-- The headers are accepted if they give one and the same length, and the message gets it. -/
def ContLenExact (h1m : H1m) (vs : List Ist) : Prop :=
  ((∃ h1m', parseContLens h1m vs = some h1m') ↔ ∃ n, ContLensValid n vs) ∧
    ∀ n h1m', ContLensValid n vs → parseContLens h1m vs = some h1m' → h1m'.bodyLen.toNat = n

theorem exists_commaField (s : CStr) : ∃ f, f ∈ commaFields s :=
  List.exists_mem_of_ne_nil _ (List.splitOnP_ne_nil (· == (44 : UInt8)) s)

theorem ContLenValid.unique {m : ℕ} (hm : ContLenValid m s) (hn : ContLenValid n s) : m = n := by
  obtain ⟨f, hf⟩ := exists_commaField s
  exact (hm.2 f hf).2.symm.trans (hn.2 f hf).2

theorem reads_exact (h : ContLenReads ds n) (hlt : decFrom 0 ds < 2 ^ 64) :
    decFrom 0 ds = n ∧ Plain n := by
  cases h with
  | exact h hn => exact ⟨h, hn⟩
  | pass ht hp _ =>
    rw [decFrom_append, hp] at hlt
    have hle := Nat.lt_of_le_of_lt (le_decFrom _ _) hlt
    omega

theorem fieldsTaken_of_forall {fs : List CStr} (h : ∀ f ∈ fs, FieldTaken n f) :
    FieldsTaken n fs := by
  induction fs with
  | nil => trivial
  | cons f fs ih =>
    obtain ⟨hf, hfs⟩ := List.forall_mem_cons.mp h
    rcases fs with - | ⟨g, fs⟩
    · exact .inr hf
    · exact ⟨hf, ih hfs⟩

theorem forall_of_fieldsTaken {fs : List CStr} (h : FieldsTaken n fs)
    (hlast : ∀ f ∈ fs.getLast?, ¬Blank f) : ∀ f ∈ fs, FieldTaken n f := by
  induction fs with
  | nil => exact fun f hf => absurd hf List.not_mem_nil
  | cons f fs ih =>
    rcases fs with - | ⟨g, fs⟩
    · exact List.forall_mem_singleton.mpr (h.resolve_left (hlast f rfl))
    · exact List.forall_mem_cons.mpr ⟨h.1, ih h.2 hlast⟩

theorem ContLenValid.taken (h : ContLenValid n s) (hn : Plain n) : ContLenTaken n s :=
  fieldsTaken_of_forall fun f hf => ⟨(h.2 f hf).1, .exact (h.2 f hf).2 hn⟩

theorem ContLenValid.tight (h : ContLenValid n s) : ContLenTight s :=
  ⟨fun f hf => not_blank_of_number (h.2 f (List.mem_of_mem_getLast? hf)).1,
    fun f hf => (h.2 f hf).2.symm ▸ h.1⟩

theorem ContLenTaken.valid (h : ContLenTaken n s) (ht : ContLenTight s) :
    ContLenValid n s ∧ Plain n := by
  have hfields (f : CStr) (hf : f ∈ commaFields s) :
      NumberField f ∧ decFrom 0 (digitsOf f) = n ∧ Plain n :=
    have htaken := forall_of_fieldsTaken h ht.1 f hf
    ⟨htaken.1, reads_exact htaken.2 (ht.2 f hf)⟩
  obtain ⟨g, hg⟩ := exists_commaField s
  have hn : Plain n := (hfields g hg).2.2
  exact ⟨⟨hn.1, fun f hf => ⟨(hfields f hf).1, (hfields f hf).2.1⟩⟩, hn⟩

/-- **When `h1_parse_cont_len_header` is exact** on the headers of a message: the length is
neither 2^63 nor 2^63 + 1, and when the headers are in the form that the code takes, then no
value is blank after its last comma, and no number passes 2^64. -/
theorem contLen_exact_iff (h1m : H1m) (v : Ist) (vs : List Ist)
    (hclen : h1m.flags.clen = false) :
    ContLenExact h1m (v :: vs) ↔
      (¬ContLensValid (2 ^ 63) (v :: vs) ∧ ¬ContLensValid (2 ^ 63 + 1) (v :: vs)) ∧
        ∀ n, ContLensTaken n (v :: vs) → ∀ w ∈ v :: vs, ContLenTight w.str := by
  have hv : v ∈ v :: vs := List.mem_cons_self
  generalize v :: vs = ws at hv ⊢
  have hcompat (n : ℕ) : Compat h1m n := fun h => by
    rw [hclen] at h
    cases h
  have hiff (n : ℕ) : (∃ h1m', parseContLens h1m ws = some h1m' ∧ Compat h1m' n) ↔
      ContLensTaken n ws :=
    (parseContLens_iff h1m n ws).trans (and_iff_right (hcompat n))
  constructor
  · rintro ⟨haccept, hlen⟩
    have hplain (n : ℕ) (hvalid : ContLensValid n ws) : Plain n := by
      obtain ⟨h1m', h⟩ := haccept.mpr ⟨n, hvalid⟩
      have htaken := (hiff n).mp ⟨h1m', h, fun _ => hlen n h1m' hvalid h⟩
      exact ((htaken v hv).valid (hvalid v hv).tight).2
    refine ⟨⟨fun h => (hplain _ h).2.1 rfl, fun h => (hplain _ h).2.2 rfl⟩, fun n htaken => ?_⟩
    obtain ⟨h1m', h, -⟩ := (hiff n).mpr htaken
    obtain ⟨m, hvalid⟩ := haccept.mp ⟨h1m', h⟩
    exact fun w hw => (hvalid w hw).tight
  · rintro ⟨⟨h63, h63'⟩, htight⟩
    have hvalid {n : ℕ} (h : ContLensTaken n ws) : ContLensValid n ws :=
      fun w hw => ((h w hw).valid (htight n h w hw)).1
    have htaken {n : ℕ} (h : ContLensValid n ws) : ContLensTaken n ws := by
      have hn : Plain n := by
        refine ⟨(h v hv).1, ?_, ?_⟩
        · rintro rfl
          exact h63 h
        · rintro rfl
          exact h63' h
      exact fun w hw => (h w hw).taken hn
    constructor
    · constructor
      · rintro ⟨h1m', h⟩
        exact ⟨_, hvalid ((hiff h1m'.bodyLen.toNat).mp ⟨h1m', h, fun _ => rfl⟩)⟩
      · rintro ⟨n, h⟩
        obtain ⟨h1m', h', -⟩ := (hiff n).mpr (htaken h)
        exact ⟨h1m', h'⟩
    · intro n h1m' h h'
      cases hflag : h1m'.flags.clen with
      | true =>
        obtain ⟨h1m'', h'', hn⟩ := (hiff n).mpr (htaken h)
        rw [h'] at h''
        cases h''
        exact hn hflag
      | false =>
        -- without a length, the message would fit every number
        have hnext : ContLensTaken (n + 1) ws := (hiff (n + 1)).mp ⟨h1m', h', fun hc => by
          rw [hflag] at hc
          cases hc⟩
        have heq : n = n + 1 := (h v hv).unique (hvalid hnext v hv)
        omega

def valueOf (s : String) : Ist := ⟨0, bytes s⟩

theorem contLen_exact_iff_equal : ContLenExact h1mInitReq [valueOf "42 ,42", valueOf " 42"] := by
  have hfirst (n : ℕ) (h : ContLensValid n [valueOf "42 ,42", valueOf " 42"]) : 42 = n :=
    ((h (valueOf "42 ,42") List.mem_cons_self).2 (bytes "42 ") (by decide +kernel)).2
  refine (contLen_exact_iff h1mInitReq (valueOf "42 ,42") [valueOf " 42"] rfl).mpr ⟨⟨?_, ?_⟩, ?_⟩
  · exact fun h => absurd (hfirst _ h) (by decide)
  · exact fun h => absurd (hfirst _ h) (by decide)
  · rintro n -
    show ∀ w ∈ [valueOf "42 ,42", valueOf " 42"],
      (∀ f ∈ (commaFields w.str).getLast?, ¬∀ c ∈ f, httpIsLws c = true) ∧
        ∀ f ∈ commaFields w.str, decFrom 0 (digitsOf f) < 2 ^ 64
    decide +kernel

/-- An empty value and 2^64 + 3 are accepted, 2^63 is not. -/
theorem not_contLen_exact :
    ¬ContLenExact h1mInitReq [valueOf ""] ∧
      ¬ContLenExact h1mInitReq [valueOf "18446744073709551619"] ∧
      ¬ContLenExact h1mInitReq [valueOf "9223372036854775808"] := by
  refine ⟨fun h => ?_, fun h => ?_, fun h => ?_⟩
  · obtain ⟨n, hn⟩ := h.1.mp ⟨h1mInitReq, by decide +kernel⟩
    have hempty : [] ∈ commaFields (valueOf "").str := by decide +kernel
    refine not_blank_of_number ((hn _ List.mem_cons_self).2 _ hempty).1 ?_
    exact fun c hc => absurd hc List.not_mem_nil
  · have hsome : (parseContLens h1mInitReq [valueOf "18446744073709551619"]).isSome = true := by
      decide +kernel
    obtain ⟨n, hn⟩ := h.1.mp (Option.isSome_iff_exists.mp hsome)
    have hmem : bytes "18446744073709551619" ∈
        commaFields (valueOf "18446744073709551619").str := by decide +kernel
    have hvalid := hn _ List.mem_cons_self
    have hvalue : 18446744073709551619 = n := (hvalid.2 _ hmem).2
    exact absurd hvalid.1 (by omega)
  · have hnone : parseContLens h1mInitReq [valueOf "9223372036854775808"] = none := by
      decide +kernel
    have hfields : ∀ f ∈ commaFields (valueOf "9223372036854775808").str,
        f = bytes "9223372036854775808" := by decide +kernel
    have hdigits : ∀ c ∈ bytes "9223372036854775808", isDigit c = true := by decide +kernel
    have hvalid : ContLensValid 9223372036854775808 [valueOf "9223372036854775808"] := by
      refine List.forall_mem_singleton.mpr ⟨by decide, fun f hf => ?_⟩
      rw [hfields f hf]
      refine ⟨⟨[], bytes "9223372036854775808", [], rfl, ?_, hdigits, by decide, ?_⟩,
        by decide +kernel⟩
      · exact fun c hc => absurd hc List.not_mem_nil
      · exact fun c hc => absurd hc List.not_mem_nil
    obtain ⟨h1m', h'⟩ := h.1.mpr ⟨_, hvalid⟩
    rw [hnone] at h'
    cases h'

end SmartHAProxy
