/-
Conditions mean what their grammar says.

The grammar of conditions,

    EXPR = AND ('||' AND)*
    AND  = TERM ('&&' TERM)*
    TERM = '!'* (integer | predicate | '(' EXPR ')')

with blanks between tokens where one likes, is stated as a relation between a
syntax tree and the texts before and after what it derives (`DerivesExpr`); an
integer is what `strtol` reads, a predicate a word of the table with arguments
that `make_arg_list` reads.  Nothing in it is greedy, and nothing is deep: how
deep the parser has to go for a tree is `CondExpr.depth`.

Soundness (`parse_sound`) and completeness (`parse_complete`) are inductions on
`maxdepth` over the three functions at once.  A derivation may leave blanks that
the parser has taken, so the texts they end at agree up to blanks.
-/
import SmartHAProxy.Cfg.Cond

namespace SmartHAProxy

variable {s t rest text : CStr} {c : UInt8} {d : ℕ}

/-! ### Tokens -/

inductive Blanks : CStr → CStr → Prop
  | refl (s : CStr) : Blanks s s
  | skip {b : UInt8} {s s' : CStr} : isBlank b = true → Blanks s s' → Blanks (b :: s) s'

/-- Any number of exclamation marks; the parity of their number. -/
inductive Bangs : Bool → CStr → CStr → Prop
  | done {s s' : CStr} : Blanks s s' → Bangs false s s'
  | bang {neg : Bool} {s s' s'' : CStr} :
      Blanks s (33 :: s') → Bangs neg s' s'' → Bangs (!neg) s s''

section Grammar

variable {A : Type} (makeArgList : CondPredicate → CStr → Option (A × CStr))

def DerivesPred (prd : CondPredicate) (args : A) (text rest : CStr) : Prop :=
  ∃ word, cfgLookupCondPred text = some (word, prd) ∧
    makeArgList prd (text.drop word.length) = some (args, rest)

mutual

/-- `TERM = '!'* (integer | predicate | '(' EXPR ')')` -/
def DerivesTerm : CondTerm A → CStr → CStr → Prop
  | .const neg val, text, rest =>
    ∃ s n, Bangs neg text s ∧ strtol s = some (n, rest) ∧ val = (n != 0)
  | .pred neg prd args, text, rest =>
    ∃ s, Bangs neg text s ∧ DerivesPred makeArgList prd args s rest
  | .paren neg expr, text, rest =>
    ∃ s s', Bangs neg text (40 :: s) ∧ DerivesExpr expr s s' ∧ Blanks s' (41 :: rest)

/-- `AND = TERM ('&&' TERM)*` -/
def DerivesAnd : CondAnd A → CStr → CStr → Prop
  | .last left, text, rest => DerivesTerm left text rest
  | .cons left right, text, rest =>
    ∃ s s', DerivesTerm left text s ∧ Blanks s (38 :: 38 :: s') ∧ DerivesAnd right s' rest

/-- `EXPR = AND ('||' AND)*` -/
def DerivesExpr : CondExpr A → CStr → CStr → Prop
  | .last left, text, rest => DerivesAnd left text rest
  | .cons left right, text, rest =>
    ∃ s s', DerivesAnd left text s ∧ Blanks s (124 :: 124 :: s') ∧ DerivesExpr right s' rest

end

def Derives (expr : CondExpr A) (text : CStr) : Prop :=
  ∃ rest, DerivesExpr makeArgList expr text rest ∧ Blanks rest []

end Grammar

variable {A : Type}

mutual

def CondTerm.depth : CondTerm A → ℕ
  | .const _ _ => 1
  | .pred _ _ _ => 1
  | .paren _ expr => expr.depth + 1

def CondAnd.depth : CondAnd A → ℕ
  | .last left => left.depth + 1
  | .cons left right => max left.depth right.depth + 1

def CondExpr.depth : CondExpr A → ℕ
  | .last left => left.depth + 1
  | .cons left right => max left.depth right.depth + 1

end

mutual

/-- The value of a condition, for given values of its predicates. -/
def CondTerm.value (v : CondPredicate → A → Bool) : CondTerm A → Bool
  | .const neg val => val ^^ neg
  | .pred neg prd args => v prd args ^^ neg
  | .paren neg expr => expr.value v ^^ neg

def CondAnd.value (v : CondPredicate → A → Bool) : CondAnd A → Bool
  | .last left => left.value v
  | .cons left right => left.value v && right.value v

def CondExpr.value (v : CondPredicate → A → Bool) : CondExpr A → Bool
  | .last left => left.value v
  | .cons left right => left.value v || right.value v

end

mutual

def CondTerm.preds : CondTerm A → List (CondPredicate × A)
  | .const _ _ => []
  | .pred _ prd args => [(prd, args)]
  | .paren _ expr => expr.preds

def CondAnd.preds : CondAnd A → List (CondPredicate × A)
  | .last left => left.preds
  | .cons left right => left.preds ++ right.preds

def CondExpr.preds : CondExpr A → List (CondPredicate × A)
  | .last left => left.preds
  | .cons left right => left.preds ++ right.preds

end

/-! ### Blanks -/

theorem blanks_skipBlanks (s : CStr) : Blanks s (skipBlanks s) := by
  induction s with
  | nil => exact .refl []
  | cons b s ih =>
    rw [skipBlanks, List.dropWhile_cons]
    split_ifs with hb
    · exact .skip hb ih
    · exact .refl _

theorem Blanks.trans {u : CStr} (h : Blanks s t) (h' : Blanks t u) : Blanks s u := by
  induction h with
  | refl => exact h'
  | skip hb _ ih => exact .skip hb (ih h')

theorem Blanks.skipBlanks_eq (h : Blanks s t) : skipBlanks s = skipBlanks t := by
  induction h with
  | refl => rfl
  | skip hb _ ih => rw [← ih, skipBlanks, List.dropWhile_cons, if_pos hb, skipBlanks]

theorem skipBlanks_cons_of_not {b : UInt8} (hb : isBlank b = false) (s : CStr) :
    skipBlanks (b :: s) = b :: s := by
  rw [skipBlanks, List.dropWhile_cons, if_neg (by simp [hb])]

theorem isBlank_of_skipBlanks (h : skipBlanks s = c :: t) : isBlank c = false := by
  induction s with
  | nil => cases h
  | cons b s ih =>
    rw [skipBlanks, List.dropWhile_cons] at h
    split_ifs at h with hb
    · exact ih h
    · obtain ⟨rfl, -⟩ : b = c ∧ s = t := by simpa using h
      simpa using hb

theorem skipBlanks_skipBlanks (s : CStr) : skipBlanks (skipBlanks s) = skipBlanks s :=
  (blanks_skipBlanks s).skipBlanks_eq.symm

theorem Blanks.skipBlanks_eq_cons (hc : isBlank c = false) (h : Blanks s (c :: t)) :
    skipBlanks s = c :: t := by
  rw [h.skipBlanks_eq, skipBlanks_cons_of_not hc]

theorem eat_eq_some_iff : eat c s = some t ↔ s = c :: t := by
  rcases s with - | ⟨b, s⟩
  · simp [eat]
  · rw [eat]
    split_ifs with hb
    · simp [hb]
    · simp [hb]

theorem eat_eat_eq_some_iff : (eat c s).bind (eat c) = some t ↔ s = c :: c :: t := by
  rw [Option.bind_eq_some_iff]
  constructor
  · rintro ⟨u, hu, ht⟩
    rw [eat_eq_some_iff.mp hu, eat_eq_some_iff.mp ht]
  · rintro rfl
    exact ⟨c :: t, eat_eq_some_iff.mpr rfl, eat_eq_some_iff.mpr rfl⟩

/-! ### Exclamation marks -/

theorem bangs_of_blanks {neg : Bool} {u : CStr} (h : Blanks s t) (h' : Bangs neg t u) :
    Bangs neg s u := by
  rcases h' with hb | ⟨hb, hrest⟩
  · exact .done (h.trans hb)
  · exact .bang (h.trans hb) hrest

theorem skipBangs_blank {b : UInt8} (hb : isBlank b = true) (neg : Bool) (s : CStr) :
    skipBangs neg (b :: s) = skipBangs neg s := by
  have hne : b ≠ 33 := by
    rintro rfl
    exact absurd hb (by decide)
  rw [skipBangs, if_neg hne, if_pos hb]

theorem skipBangs_blanks (h : Blanks s t) (neg : Bool) : skipBangs neg s = skipBangs neg t := by
  induction h with
  | refl => rfl
  | skip hb _ ih => rw [skipBangs_blank hb, ih]

theorem skipBangs_skipBlanks (neg : Bool) (s : CStr) :
    skipBangs neg (skipBlanks s) = skipBangs neg s :=
  (skipBangs_blanks (blanks_skipBlanks s) neg).symm

theorem bangs_skipBangs (s : CStr) (neg : Bool) :
    ∃ n, Bangs n s (skipBangs neg s).2 ∧ (skipBangs neg s).1 = (neg ^^ n) := by
  induction s generalizing neg with
  | nil => exact ⟨false, .done (.refl []), by simp [skipBangs]⟩
  | cons c s ih =>
    rw [skipBangs]
    split_ifs with hbang hblank
    · obtain ⟨n, hn, hneg⟩ := ih (!neg)
      subst hbang
      exact ⟨!n, .bang (.refl _) hn, by rw [hneg]; cases neg <;> cases n <;> rfl⟩
    · obtain ⟨n, hn, hneg⟩ := ih neg
      exact ⟨n, bangs_of_blanks (.skip hblank (.refl s)) hn, hneg⟩
    · exact ⟨false, .done (.refl _), by simp⟩

theorem Bangs.skipBangs_eq {n : Bool} (h : Bangs n s t) (neg : Bool) :
    skipBangs neg s = skipBangs (neg ^^ n) t := by
  induction h generalizing neg with
  | done hb => rw [skipBangs_blanks hb, Bool.xor_false]
  | bang hb _ ih =>
    rw [skipBangs_blanks hb, skipBangs, if_pos rfl, ih]
    congr 1
    rename_i n _ _ _ _
    cases neg <;> cases n <;> rfl

/-! ### What a term starts with -/

/-- No integer starts with this character. -/
def notInt (c : UInt8) : Bool :=
  !isSpaceChar c && c != 45 && c != 43 && !isDigitIn 10 c

theorem strtolDigits_eq_none {base : ℕ} (hc : isDigitIn base c = false) (s : CStr) :
    strtolDigits base (c :: s) = none := by
  rw [strtolDigits, if_pos]
  rw [List.takeWhile_cons, if_neg (by simp [hc])]

theorem strtol_eq_none (hc : notInt c = true) (s : CStr) : strtol (c :: s) = none := by
  obtain ⟨⟨⟨hspace, hminus⟩, hplus⟩, hdigit⟩ :
      ((isSpaceChar c = false ∧ c ≠ 45) ∧ c ≠ 43) ∧ isDigitIn 10 c = false := by
    simpa [notInt] using hc
  have hzero : c ≠ 48 := by
    rintro rfl
    exact absurd hdigit (by decide)
  have hunsigned : strtolUnsigned (c :: s) = none := by
    rcases s with - | ⟨b, s⟩
    · exact strtolDigits_eq_none hdigit []
    · rw [strtolUnsigned, if_neg (by simp [hzero]), if_neg hzero]
      exact strtolDigits_eq_none hdigit (b :: s)
  rw [strtol, List.dropWhile_cons, if_neg (by simp [hspace])]
  simp only
  rw [if_neg hminus, if_neg hplus, hunsigned]
  rfl

theorem strtol_skipBlanks (s : CStr) : strtol (skipBlanks s) = strtol s := by
  have hskip : (skipBlanks s).dropWhile isSpaceChar = s.dropWhile isSpaceChar := by
    induction s with
    | nil => rfl
    | cons b s ih =>
      rw [skipBlanks, List.dropWhile_cons]
      split_ifs with hb
      · have hspace : isSpaceChar b = true := by
          rcases (by simpa [isBlank] using hb : b = 32 ∨ b = 9) with rfl | rfl <;> decide
        rw [List.dropWhile_cons, if_pos hspace]
        exact ih
      · rfl
  rw [strtol, strtol, hskip]

/-- The letters that names of predicates are made of. -/
def isLetter (c : UInt8) : Bool := 97 ≤ c && c ≤ 122

theorem cfgLookupCondPred_head {word : CStr} {prd : CondPredicate}
    (h : cfgLookupCondPred s = some (word, prd)) : ∃ c t, s = c :: t ∧ isLetter c = true := by
  have hmem := List.mem_of_find?_eq_some h
  have hword : word = s.takeWhile fun c => c != 32 && c != 40 := by
    simpa using List.find?_some h
  have hall : condPredicates.all (fun ret => isLetter (ret.1.headD 0)) = true := by decide +kernel
  obtain ⟨c, t, hct, hc⟩ : ∃ c t, word = c :: t ∧ isLetter c = true := by
    have hhead := List.all_eq_true.mp hall _ hmem
    rcases word with - | ⟨c, t⟩
    · exact absurd (show isLetter 0 = true from hhead) (by decide)
    · exact ⟨c, t, rfl, hhead⟩
  rcases s with - | ⟨b, s⟩
  · rw [hword] at hct
    cases hct
  · rw [List.takeWhile_cons] at hword
    split_ifs at hword
    · obtain ⟨rfl, -⟩ : b = c ∧ _ := by simpa [hword] using hct
      exact ⟨b, s, rfl, hc⟩
    · rw [hword] at hct
      cases hct

theorem letter_facts (h : isLetter c = true) :
    notInt c = true ∧ isBlank c = false ∧ c ≠ 33 ∧ c ≠ 40 := by
  obtain ⟨hlow, hhigh⟩ : 97 ≤ c.toNat ∧ c.toNat ≤ 122 := by
    simpa [isLetter, UInt8.le_iff_toNat_le] using h
  have hne : ∀ d : UInt8, d.toNat < 97 → c ≠ d := by
    rintro d hd rfl
    omega
  have hdigit : isDigitIn 10 c = false := by
    have h57 : ¬(48 ≤ c ∧ c ≤ 57) := by
      rw [UInt8.le_iff_toNat_le, UInt8.le_iff_toNat_le]
      simp only [UInt8.toNat_ofNat]
      omega
    have h70 : ¬(65 ≤ c ∧ c ≤ 70) := by
      rw [UInt8.le_iff_toNat_le, UInt8.le_iff_toNat_le]
      simp only [UInt8.toNat_ofNat]
      omega
    rw [isDigitIn, digitVal, if_neg h57, if_neg h70]
    split_ifs
    · simp only [decide_eq_false_iff_not]
      omega
    · rfl
  have hspace : isSpaceChar c = false := by
    have h13 : ¬ c ≤ 13 := by
      rw [UInt8.le_iff_toNat_le]
      simp only [UInt8.toNat_ofNat]
      omega
    simp [isSpaceChar, hne 32 (by decide), h13]
  refine ⟨?_, ?_, hne 33 (by decide), hne 40 (by decide)⟩
  · simp [notInt, hspace, hdigit, hne 45 (by decide), hne 43 (by decide)]
  · simp [isBlank, hne 32 (by decide), hne 9 (by decide)]

theorem skipBangs_cons (hblank : isBlank c = false) (hbang : c ≠ 33) (neg : Bool) (s : CStr) :
    skipBangs neg (c :: s) = (neg, c :: s) := by
  rw [skipBangs, if_neg hbang, if_neg (by simp [hblank])]

theorem skipBangs_of_strtol {n : ℤ} (h : strtol s = some (n, rest)) (neg : Bool) :
    skipBangs neg s = (neg, skipBlanks s) := by
  rw [← strtol_skipBlanks] at h
  rw [← skipBangs_skipBlanks]
  rcases hs : skipBlanks s with - | ⟨c, t⟩
  · rfl
  · rw [hs] at h
    refine skipBangs_cons (isBlank_of_skipBlanks hs) ?_ neg t
    rintro rfl
    rw [strtol_eq_none (by decide)] at h
    cases h

/-! ### Blanks before a derivation -/

section Parser

variable {makeArgList : CondPredicate → CStr → Option (A × CStr)}

theorem derivesTerm_of_blanks {t : CondTerm A} {s' : CStr} (h : Blanks s s')
    (ht : DerivesTerm makeArgList t s' rest) : DerivesTerm makeArgList t s rest := by
  rcases t with ⟨neg, val⟩ | ⟨neg, prd, args⟩ | ⟨neg, expr⟩
  · obtain ⟨u, n, hb, hn⟩ := ht
    exact ⟨u, n, bangs_of_blanks h hb, hn⟩
  · obtain ⟨u, hb, hp⟩ := ht
    exact ⟨u, bangs_of_blanks h hb, hp⟩
  · obtain ⟨u, u', hb, he⟩ := ht
    exact ⟨u, u', bangs_of_blanks h hb, he⟩

theorem derivesAnd_of_blanks {a : CondAnd A} {s' : CStr} (h : Blanks s s')
    (ha : DerivesAnd makeArgList a s' rest) : DerivesAnd makeArgList a s rest := by
  rcases a with t | ⟨t, a⟩
  · exact derivesTerm_of_blanks h ha
  · obtain ⟨u, u', ht, hu⟩ := ha
    exact ⟨u, u', derivesTerm_of_blanks h ht, hu⟩

theorem derivesExpr_of_blanks {e : CondExpr A} {s' : CStr} (h : Blanks s s')
    (he : DerivesExpr makeArgList e s' rest) : DerivesExpr makeArgList e s rest := by
  rcases e with a | ⟨a, e⟩
  · exact derivesAnd_of_blanks h he
  · obtain ⟨u, u', ha, hu⟩ := he
    exact ⟨u, u', derivesAnd_of_blanks h ha, hu⟩

/-! ### Soundness -/

/-- What the parsers return at a depth is derived, within that depth. -/
structure ParseSound (makeArgList : CondPredicate → CStr → Option (A × CStr)) (d : ℕ) : Prop where
  term : ∀ {text t rest}, cfgParseCondTerm makeArgList d text = .ok t rest →
    t.depth ≤ d ∧ ∃ rest', DerivesTerm makeArgList t text rest' ∧ Blanks rest' rest
  and : ∀ {text a rest}, cfgParseCondAnd makeArgList d text = .ok a rest →
    a.depth ≤ d ∧ ∃ rest', DerivesAnd makeArgList a text rest' ∧ Blanks rest' rest
  expr : ∀ {text e rest}, cfgParseCondExpr makeArgList d text = .ok e rest →
    e.depth ≤ d ∧ ∃ rest', DerivesExpr makeArgList e text rest' ∧ Blanks rest' rest

theorem bangs_start (text : CStr) :
    Bangs (skipBangs false (skipBlanks text)).1 text (skipBangs false (skipBlanks text)).2 := by
  obtain ⟨n, hn, hneg⟩ := bangs_skipBangs (skipBlanks text) false
  rw [hneg, Bool.false_xor]
  exact bangs_of_blanks (blanks_skipBlanks text) hn

theorem term_sound (ih : ParseSound makeArgList d) {t : CondTerm A}
    (h : cfgParseCondTerm makeArgList (d + 1) text = .ok t rest) :
    t.depth ≤ d + 1 ∧ ∃ rest', DerivesTerm makeArgList t text rest' ∧ Blanks rest' rest := by
  have hbangs := bangs_start text
  rw [cfgParseCondTerm] at h
  split_ifs at h
  generalize skipBangs false (skipBlanks text) = inp at h hbangs
  obtain ⟨neg, s⟩ := inp
  simp only at h hbangs
  rcases hint : strtol s with - | ⟨val, rest'⟩
  · rw [hint] at h
    simp only at h
    rcases hparen : eat 40 s with - | s'
    · -- a predicate
      rw [hparen] at h
      simp only at h
      rcases hpred : cfgLookupCondPred s with - | ⟨word, prd⟩
      · rw [hpred] at h
        cases h
      · rw [hpred] at h
        simp only at h
        rcases hargs : makeArgList prd (s.drop word.length) with - | ⟨args, rest'⟩
        · rw [hargs] at h
          cases h
        · rw [hargs] at h
          cases h
          exact ⟨by rw [CondTerm.depth]; omega, rest, ⟨s, hbangs, word, hpred, hargs⟩, .refl _⟩
    · -- an expression in parentheses
      rw [hparen] at h
      simp only at h
      rcases hexpr : cfgParseCondExpr makeArgList d (skipBlanks s') with - | - | ⟨e, s''⟩
      · rw [hexpr] at h
        cases h
      · rw [hexpr] at h
        cases h
      · rw [hexpr] at h
        simp only at h
        obtain ⟨hdepth, u, he, hu⟩ := ih.expr hexpr
        rcases hclose : eat 41 (skipBlanks s'') with - | r
        · rw [hclose] at h
          cases h
        · rw [hclose] at h
          cases h
          rw [eat_eq_some_iff.mp hparen] at hbangs
          have hend : Blanks u (41 :: r) := by
            rw [← eat_eq_some_iff.mp hclose]
            exact hu.trans (blanks_skipBlanks s'')
          refine ⟨by rw [CondTerm.depth]; omega, r, ⟨s', u, hbangs, ?_, hend⟩, blanks_skipBlanks r⟩
          exact derivesExpr_of_blanks (blanks_skipBlanks s') he
  · -- an integer
    rw [hint] at h
    cases h
    exact ⟨by rw [CondTerm.depth]; omega, rest, ⟨s, val, hbangs, hint, rfl⟩, .refl _⟩

theorem and_sound (ih : ParseSound makeArgList d) {a : CondAnd A}
    (h : cfgParseCondAnd makeArgList (d + 1) text = .ok a rest) :
    a.depth ≤ d + 1 ∧ ∃ rest', DerivesAnd makeArgList a text rest' ∧ Blanks rest' rest := by
  rw [cfgParseCondAnd] at h
  split_ifs at h
  rcases hterm : cfgParseCondTerm makeArgList d text with - | - | ⟨t, s⟩
  · rw [hterm] at h
    cases h
  · rw [hterm] at h
    cases h
  · rw [hterm] at h
    simp only at h
    obtain ⟨hdepth, u, ht, hu⟩ := ih.term hterm
    have hu' := hu.trans (blanks_skipBlanks s)
    rcases hop : (eat 38 (skipBlanks s)).bind (eat 38) with - | s'
    · rw [hop] at h
      cases h
      exact ⟨by rw [CondAnd.depth]; omega, u, ht, hu'⟩
    · rw [hop] at h
      simp only at h
      rw [eat_eat_eq_some_iff.mp hop] at hu'
      rcases hand : cfgParseCondAnd makeArgList d (skipBlanks s') with - | - | ⟨a', s''⟩
      · rw [hand] at h
        cases h
      · rw [hand] at h
        cases h
      · rw [hand] at h
        cases h
        obtain ⟨hdepth', v, ha, hv⟩ := ih.and hand
        refine ⟨by rw [CondAnd.depth]; omega, v, ⟨u, s', ht, hu', ?_⟩, hv⟩
        exact derivesAnd_of_blanks (blanks_skipBlanks s') ha

theorem expr_sound (ih : ParseSound makeArgList d) {e : CondExpr A}
    (h : cfgParseCondExpr makeArgList (d + 1) text = .ok e rest) :
    e.depth ≤ d + 1 ∧ ∃ rest', DerivesExpr makeArgList e text rest' ∧ Blanks rest' rest := by
  rw [cfgParseCondExpr] at h
  split_ifs at h
  rcases hand : cfgParseCondAnd makeArgList d text with - | - | ⟨a, s⟩
  · rw [hand] at h
    cases h
  · rw [hand] at h
    cases h
  · rw [hand] at h
    simp only at h
    obtain ⟨hdepth, u, ha, hu⟩ := ih.and hand
    have hu' := hu.trans (blanks_skipBlanks s)
    rcases hop : (eat 124 (skipBlanks s)).bind (eat 124) with - | s'
    · rw [hop] at h
      cases h
      exact ⟨by rw [CondExpr.depth]; omega, u, ha, hu'⟩
    · rw [hop] at h
      simp only at h
      rw [eat_eat_eq_some_iff.mp hop] at hu'
      rcases hexpr : cfgParseCondExpr makeArgList d (skipBlanks s') with - | - | ⟨e', s''⟩
      · rw [hexpr] at h
        cases h
      · rw [hexpr] at h
        cases h
      · rw [hexpr] at h
        cases h
        obtain ⟨hdepth', v, he, hv⟩ := ih.expr hexpr
        refine ⟨by rw [CondExpr.depth]; omega, v, ⟨u, s', ha, hu', ?_⟩, hv⟩
        exact derivesExpr_of_blanks (blanks_skipBlanks s') he

/-- **The parsers only accept what the grammar derives.** -/
theorem parse_sound (makeArgList : CondPredicate → CStr → Option (A × CStr)) (d : ℕ) :
    ParseSound makeArgList d := by
  induction d with
  | zero =>
    refine ⟨fun h => ?_, fun h => ?_, fun h => ?_⟩
    · rw [cfgParseCondTerm] at h
      split_ifs at h
    · rw [cfgParseCondAnd] at h
      split_ifs at h
    · rw [cfgParseCondExpr] at h
      split_ifs at h
  | succ d ih => exact ⟨term_sound ih, and_sound ih, expr_sound ih⟩

/-! ### Completeness -/

/-- The text does not go on with the operator. -/
def NotOp (c : UInt8) (s : CStr) : Prop := (eat c s).bind (eat c) = none

/-- What is derived within a depth is parsed, as long as what follows does not go on
with an operator. -/
structure ParseComplete (makeArgList : CondPredicate → CStr → Option (A × CStr)) (d : ℕ) :
    Prop where
  term : ∀ {text t rest}, DerivesTerm makeArgList t text rest → t.depth ≤ d →
    ∃ rest', cfgParseCondTerm makeArgList d text = .ok t rest' ∧ skipBlanks rest' = skipBlanks rest
  and : ∀ {text a rest}, DerivesAnd makeArgList a text rest → a.depth ≤ d →
    NotOp 38 (skipBlanks rest) → cfgParseCondAnd makeArgList d text = .ok a (skipBlanks rest)
  expr : ∀ {text e rest}, DerivesExpr makeArgList e text rest → e.depth ≤ d →
    NotOp 38 (skipBlanks rest) → NotOp 124 (skipBlanks rest) →
      cfgParseCondExpr makeArgList d text = .ok e (skipBlanks rest)

theorem skipBlanks_ne_nil_of_term {t : CondTerm A}
    (h : cfgParseCondTerm makeArgList d text = .ok t rest) : skipBlanks text ≠ [] := by
  intro hnil
  rcases d with - | d
  · rw [cfgParseCondTerm, if_pos hnil] at h
    cases h
  · rw [cfgParseCondTerm, if_pos hnil] at h
    cases h

theorem exists_term_of_and {a : CondAnd A}
    (h : cfgParseCondAnd makeArgList (d + 1) text = .ok a rest) :
    ∃ t s, cfgParseCondTerm makeArgList d text = .ok t s := by
  rw [cfgParseCondAnd] at h
  split_ifs at h
  rcases hterm : cfgParseCondTerm makeArgList d text with - | - | ⟨t, s⟩
  · rw [hterm] at h
    cases h
  · rw [hterm] at h
    cases h
  · exact ⟨t, s, rfl⟩

theorem exists_and_of_expr {e : CondExpr A}
    (h : cfgParseCondExpr makeArgList (d + 1) text = .ok e rest) :
    ∃ a s, cfgParseCondAnd makeArgList d text = .ok a s := by
  rw [cfgParseCondExpr] at h
  split_ifs at h
  rcases hand : cfgParseCondAnd makeArgList d text with - | - | ⟨a, s⟩
  · rw [hand] at h
    cases h
  · rw [hand] at h
    cases h
  · exact ⟨a, s, rfl⟩

theorem parseTerm_skipBlanks (d : ℕ) (text : CStr) :
    cfgParseCondTerm makeArgList d (skipBlanks text) = cfgParseCondTerm makeArgList d text := by
  rcases d with - | d
  · rw [cfgParseCondTerm, cfgParseCondTerm, skipBlanks_skipBlanks]
  · rw [cfgParseCondTerm, cfgParseCondTerm, skipBlanks_skipBlanks]

theorem parseAnd_skipBlanks {a : CondAnd A} (h : cfgParseCondAnd makeArgList d text = .ok a rest) :
    skipBlanks text ≠ [] ∧ cfgParseCondAnd makeArgList d (skipBlanks text) = .ok a rest := by
  rcases d with - | d
  · rw [cfgParseCondAnd] at h
    split_ifs at h
  · obtain ⟨t, s, hterm⟩ := exists_term_of_and h
    have hne := skipBlanks_ne_nil_of_term hterm
    have htext : text ≠ [] := by
      rintro rfl
      exact hne rfl
    rw [cfgParseCondAnd, if_neg htext] at h
    rw [cfgParseCondAnd, if_neg hne, parseTerm_skipBlanks]
    exact ⟨hne, h⟩

theorem parseExpr_skipBlanks {e : CondExpr A}
    (h : cfgParseCondExpr makeArgList d text = .ok e rest) :
    cfgParseCondExpr makeArgList d (skipBlanks text) = .ok e rest := by
  rcases d with - | d
  · rw [cfgParseCondExpr] at h
    split_ifs at h
  · obtain ⟨a, s, hand⟩ := exists_and_of_expr h
    obtain ⟨hne, hand'⟩ := parseAnd_skipBlanks hand
    have htext : text ≠ [] := by
      rintro rfl
      exact hne rfl
    rw [cfgParseCondExpr, if_neg htext, hand] at h
    rw [cfgParseCondExpr, if_neg hne, hand']
    exact h

theorem parseTerm_start {neg : Bool} (hs : s ≠ []) (h : skipBangs false text = (neg, s)) :
    cfgParseCondTerm makeArgList (d + 1) text =
      match strtol s with
      | some (val, rest) => .ok (.const neg (val != 0)) rest
      | none =>
        match eat 40 s with
        | some rest =>
          match cfgParseCondExpr makeArgList d (skipBlanks rest) with
          | .ok expr rest =>
            match eat 41 (skipBlanks rest) with
            | some rest => .ok (.paren neg expr) (skipBlanks rest)
            | none => .error
          | .desync => .error
          | .error => .error
        | none =>
          match cfgLookupCondPred s with
          | some (word, prd) =>
            match makeArgList prd (s.drop word.length) with
            | some (args, rest) => .ok (.pred neg prd args) rest
            | none => .error
          | none => .error := by
  have hne : skipBlanks text ≠ [] := by
    intro hnil
    rw [← skipBangs_skipBlanks, hnil] at h
    exact hs (congrArg Prod.snd h).symm
  rw [cfgParseCondTerm, if_neg hne, skipBangs_skipBlanks]
  generalize skipBangs false text = p at h
  subst h
  rfl

theorem term_complete (ih : ParseComplete makeArgList d) {t : CondTerm A}
    (h : DerivesTerm makeArgList t text rest) (hdepth : t.depth ≤ d + 1) :
    ∃ rest', cfgParseCondTerm makeArgList (d + 1) text = .ok t rest' ∧
      skipBlanks rest' = skipBlanks rest := by
  rcases t with ⟨neg, val⟩ | ⟨neg, prd, args⟩ | ⟨neg, expr⟩
  · obtain ⟨s, n, hbangs, hint, rfl⟩ := h
    have hstart : skipBangs false text = (neg, skipBlanks s) := by
      rw [hbangs.skipBangs_eq, Bool.false_xor, skipBangs_of_strtol hint]
    rw [← strtol_skipBlanks] at hint
    have hne : skipBlanks s ≠ [] := by
      intro hnil
      rw [hnil] at hint
      cases hint
    refine ⟨rest, ?_, rfl⟩
    rw [parseTerm_start hne hstart, hint]
  · obtain ⟨s, hbangs, word, hpred, hargs⟩ := h
    obtain ⟨c, s', rfl, hc⟩ := cfgLookupCondPred_head hpred
    obtain ⟨hint, hblank, hbang, hparen⟩ := letter_facts hc
    have hstart : skipBangs false text = (neg, c :: s') := by
      rw [hbangs.skipBangs_eq, Bool.false_xor, skipBangs_cons hblank hbang]
    have heat : eat 40 (c :: s') = none := by rw [eat, if_neg hparen]
    refine ⟨rest, ?_, rfl⟩
    rw [parseTerm_start (List.cons_ne_nil _ _) hstart, strtol_eq_none hint, heat, hpred]
    simp only
    rw [hargs]
  · obtain ⟨s, s', hbangs, hexpr, hclose⟩ := h
    have hstart : skipBangs false text = (neg, 40 :: s) := by
      rw [hbangs.skipBangs_eq, Bool.false_xor, skipBangs_cons (by decide) (by decide)]
    have hend : skipBlanks s' = 41 :: rest := hclose.skipBlanks_eq_cons (by decide)
    rw [CondTerm.depth] at hdepth
    have hparse := ih.expr hexpr (by omega) (by rw [hend]; rfl) (by rw [hend]; rfl)
    refine ⟨skipBlanks rest, ?_, skipBlanks_skipBlanks rest⟩
    rw [parseTerm_start (List.cons_ne_nil _ _) hstart, strtol_eq_none (by decide),
      eat_eq_some_iff.mpr rfl]
    simp only
    rw [parseExpr_skipBlanks hparse]
    simp only
    rw [skipBlanks_skipBlanks, hend, eat_eq_some_iff.mpr rfl]

theorem and_complete (ih : ParseComplete makeArgList d) {a : CondAnd A}
    (h : DerivesAnd makeArgList a text rest) (hdepth : a.depth ≤ d + 1)
    (hop : NotOp 38 (skipBlanks rest)) :
    cfgParseCondAnd makeArgList (d + 1) text = .ok a (skipBlanks rest) := by
  rcases a with t | ⟨t, a⟩
  · rw [CondAnd.depth] at hdepth
    obtain ⟨rest', hterm, hrest⟩ := ih.term h (by omega)
    have htext : text ≠ [] := by
      rintro rfl
      exact skipBlanks_ne_nil_of_term hterm rfl
    rw [cfgParseCondAnd, if_neg htext, hterm]
    simp only
    rw [hrest, hop]
  · obtain ⟨s, s', hterm, hamp, hand⟩ := h
    rw [CondAnd.depth] at hdepth
    obtain ⟨rest', hterm, hrest⟩ := ih.term hterm (by omega)
    have htext : text ≠ [] := by
      rintro rfl
      exact skipBlanks_ne_nil_of_term hterm rfl
    rw [cfgParseCondAnd, if_neg htext, hterm]
    simp only
    rw [hrest, hamp.skipBlanks_eq_cons (by decide), eat_eat_eq_some_iff.mpr rfl]
    simp only
    rw [(parseAnd_skipBlanks (ih.and hand (by omega) hop)).2]

theorem expr_complete (ih : ParseComplete makeArgList d) {e : CondExpr A}
    (h : DerivesExpr makeArgList e text rest) (hdepth : e.depth ≤ d + 1)
    (hamp : NotOp 38 (skipBlanks rest)) (hbar : NotOp 124 (skipBlanks rest)) :
    cfgParseCondExpr makeArgList (d + 1) text = .ok e (skipBlanks rest) := by
  rcases e with a | ⟨a, e⟩
  · rw [CondExpr.depth] at hdepth
    have hand := ih.and h (by omega) hamp
    have htext : text ≠ [] := by
      rintro rfl
      exact (parseAnd_skipBlanks hand).1 rfl
    rw [cfgParseCondExpr, if_neg htext, hand]
    simp only
    rw [skipBlanks_skipBlanks, hbar]
  · obtain ⟨s, s', hand, hop, hexpr⟩ := h
    rw [CondExpr.depth] at hdepth
    have hs : skipBlanks s = 124 :: 124 :: s' := hop.skipBlanks_eq_cons (by decide)
    have hand := ih.and hand (by omega) (by rw [hs]; rfl)
    have htext : text ≠ [] := by
      rintro rfl
      exact (parseAnd_skipBlanks hand).1 rfl
    rw [cfgParseCondExpr, if_neg htext, hand]
    simp only
    rw [skipBlanks_skipBlanks, hs, eat_eat_eq_some_iff.mpr rfl]
    simp only
    rw [parseExpr_skipBlanks (ih.expr hexpr (by omega) hamp hbar)]

/-- **The parsers accept all that the grammar derives**, within their depth. -/
theorem parse_complete (makeArgList : CondPredicate → CStr → Option (A × CStr)) (d : ℕ) :
    ParseComplete makeArgList d := by
  induction d with
  | zero =>
    refine ⟨fun {_ t _} _ hd => ?_, fun {_ a _} _ hd _ => ?_, fun {_ e _} _ hd _ _ => ?_⟩
    · rcases t with _ | _ | _ <;> rw [CondTerm.depth] at hd <;> omega
    · rcases a with _ | _ <;> rw [CondAnd.depth] at hd <;> omega
    · rcases e with _ | _ <;> rw [CondExpr.depth] at hd <;> omega
  | succ d ih => exact ⟨term_complete ih, and_complete ih, expr_complete ih⟩

theorem parse_iff_derives {e : CondExpr A} :
    (∃ rest, cfgParseCondExpr makeArgList d text = .ok e rest ∧ skipBlanks rest = []) ↔
      Derives makeArgList e text ∧ e.depth ≤ d := by
  constructor
  · rintro ⟨rest, hparse, hrest⟩
    obtain ⟨hdepth, rest', he, hb⟩ := (parse_sound makeArgList d).expr hparse
    refine ⟨⟨rest', he, ?_⟩, hdepth⟩
    rw [← hrest]
    exact hb.trans (blanks_skipBlanks rest)
  · rintro ⟨⟨rest, he, hb⟩, hdepth⟩
    have hnil : skipBlanks rest = [] := hb.skipBlanks_eq
    have hparse := (parse_complete makeArgList d).expr he hdepth (by rw [hnil]; rfl)
      (by rw [hnil]; rfl)
    exact ⟨skipBlanks rest, hparse, by rw [skipBlanks_skipBlanks, hnil]⟩

theorem derives_unique {e e' : CondExpr A} (h : Derives makeArgList e text)
    (h' : Derives makeArgList e' text) : e = e' := by
  obtain ⟨rest, hparse, -⟩ := parse_iff_derives.mpr ⟨h, le_max_left e.depth e'.depth⟩
  obtain ⟨rest', hparse', -⟩ := parse_iff_derives.mpr ⟨h', le_max_right e.depth e'.depth⟩
  rw [hparse, ParseRet.ok.injEq] at hparse'
  exact hparse'.1

end Parser

/-! ### Evaluation -/

section Eval

variable {predVal : CondPredicate → A → Option Bool} {v : CondPredicate → A → Bool}

mutual

theorem evalTerm_eq : ∀ t : CondTerm A, (∀ p ∈ t.preds, predVal p.1 p.2 = some (v p.1 p.2)) →
    cfgEvalCondTerm predVal t = some (t.value v)
  | .const neg val, _ => by rw [cfgEvalCondTerm, CondTerm.value]
  | .pred neg prd args, h => by
    rw [cfgEvalCondTerm, h (prd, args) (by simp [CondTerm.preds]), CondTerm.value]
    rfl
  | .paren neg expr, h => by
    rw [CondTerm.preds] at h
    rw [cfgEvalCondTerm, evalExpr_eq expr h, CondTerm.value]
    rfl

theorem evalAnd_eq : ∀ a : CondAnd A, (∀ p ∈ a.preds, predVal p.1 p.2 = some (v p.1 p.2)) →
    cfgEvalCondAnd predVal a = some (a.value v)
  | .last left, h => by
    rw [CondAnd.preds] at h
    rw [cfgEvalCondAnd, evalTerm_eq left h, CondAnd.value]
  | .cons left right, h => by
    rw [CondAnd.preds] at h
    have hleft := evalTerm_eq left fun p hp => h p (List.mem_append_left _ hp)
    have hright := evalAnd_eq right fun p hp => h p (List.mem_append_right _ hp)
    rw [cfgEvalCondAnd, hleft, hright, CondAnd.value]
    cases left.value v <;> rfl

theorem evalExpr_eq : ∀ e : CondExpr A, (∀ p ∈ e.preds, predVal p.1 p.2 = some (v p.1 p.2)) →
    cfgEvalCondExpr predVal e = some (e.value v)
  | .last left, h => by
    rw [CondExpr.preds] at h
    rw [cfgEvalCondExpr, evalAnd_eq left h, CondExpr.value]
  | .cons left right, h => by
    rw [CondExpr.preds] at h
    have hleft := evalAnd_eq left fun p hp => h p (List.mem_append_left _ hp)
    have hright := evalExpr_eq right fun p hp => h p (List.mem_append_right _ hp)
    rw [cfgEvalCondExpr, hleft, hright, CondExpr.value]
    cases left.value v <;> rfl

end

end Eval

/-- **Conditions mean what their grammar says.**  For a condition that is not empty,
all of whose derivations are within the recursion limit and have predicates that can
be evaluated, an error is returned exactly when there is no derivation, and otherwise
the value of the condition. -/
theorem cfgEvalCondition_iff (makeArgList : CondPredicate → CStr → Option (A × CStr))
    (predVal : CondPredicate → A → Option Bool) (text : CStr) (htext : text ≠ [])
    (hlimit : ∀ e, Derives makeArgList e text → e.depth ≤ maxCfgRecursion)
    (hpred : ∀ e, Derives makeArgList e text → ∀ p ∈ e.preds, (predVal p.1 p.2).isSome) :
    (cfgEvalCondition predVal makeArgList text = none ↔ ¬∃ e, Derives makeArgList e text) ∧
      ∀ e, Derives makeArgList e text → cfgEvalCondition predVal makeArgList text
        = some (e.value fun prd args => (predVal prd args).getD false) := by
  have hvalue : ∀ e, Derives makeArgList e text → cfgEvalCondition predVal makeArgList text
      = some (e.value fun prd args => (predVal prd args).getD false) := by
    intro e he
    obtain ⟨rest, hparse, hrest⟩ := parse_iff_derives.mpr ⟨he, hlimit e he⟩
    have hsome : ∀ p ∈ e.preds, predVal p.1 p.2 = some ((predVal p.1 p.2).getD false) := by
      intro p hp
      obtain ⟨b, hb⟩ := Option.isSome_iff_exists.mp (hpred e he p hp)
      rw [hb]
      rfl
    have heval : cfgEvalCondExpr predVal e
        = some (e.value fun prd args => (predVal prd args).getD false) := evalExpr_eq e hsome
    rw [cfgEvalCondition, if_neg htext, hparse]
    simp only
    rw [if_pos hrest, heval]
  refine ⟨⟨?_, ?_⟩, hvalue⟩
  · rintro hnone ⟨e, he⟩
    rw [hvalue e he] at hnone
    cases hnone
  · intro hnot
    rw [cfgEvalCondition, if_neg htext]
    rcases hparse : cfgParseCondExpr makeArgList maxCfgRecursion text with - | - | ⟨e, rest⟩
    · rfl
    · rfl
    · simp only
      rw [if_neg]
      intro hrest
      exact hnot ⟨e, (parse_iff_derives.mp ⟨rest, hparse, hrest⟩).1⟩

/-- The condition `1 && !0`. -/
def sampleCond : CStr := [49, 32, 38, 38, 32, 33, 48]

theorem cfgEvalCondition_iff_and :
    cfgEvalCondition (fun _ () => none) (fun _ _ => none) sampleCond = some true := by
  have he : Derives (fun _ _ => none)
      (.last (.cons (.const false true) (.last (.const true false))) : CondExpr Unit)
      sampleCond := by
    refine ⟨[], ⟨[32, 38, 38, 32, 33, 48], [32, 33, 48], ?_, .skip rfl (.refl _), ?_⟩, .refl _⟩
    · exact ⟨sampleCond, 1, .done (.refl _), by decide +kernel, rfl⟩
    · exact ⟨[48], 0, .bang (.skip rfl (.refl _)) (.done (.refl _)), by decide +kernel, rfl⟩
  have heval := (cfgEvalCondition_iff (fun _ _ => none) (fun _ () => none) sampleCond
    (by decide) (fun e' he' => derives_unique he he' ▸ by decide)
    (fun e' he' p hp => by rw [← derives_unique he he'] at hp; cases hp)).2 _ he
  rw [heval]
  rfl

/-- The empty condition is not derived, and is false. -/
theorem not_cfgEvalCondition_empty :
    cfgEvalCondition (A := Unit) (fun _ _ => none) (fun _ _ => none) [] ≠ none ∧
      ¬∃ e : CondExpr Unit, Derives (fun _ _ => none) e [] := by
  refine ⟨by decide, ?_⟩
  rintro ⟨e, he⟩
  obtain ⟨rest, hparse, -⟩ := parse_iff_derives.mpr ⟨he, le_rfl⟩
  generalize e.depth = d at hparse
  rcases d with - | d
  · rw [cfgParseCondExpr, if_pos rfl] at hparse
    cases hparse
  · rw [cfgParseCondExpr, if_pos rfl] at hparse
    cases hparse

end SmartHAProxy
