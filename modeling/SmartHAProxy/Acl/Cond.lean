/-
ACL conditions (acl.c, haproxy/acl-t.h).

A condition is a disjunction of suites, a suite a conjunction of terms, and a term an ACL or its
negation; an ACL passes if one of its expressions finds a sample among its patterns.  While data
are missing, an expression may be undecided, and so may be the condition (`ACL_TEST_MISS`).

The loops leave early, a suite also at a term that is undecided: what is undecided is not always
what Kleene's connectives leave undecided.  It is still true that a decision is never taken back
when more is known (`aclExecCond_le`).
-/
import Mathlib.Data.List.Basic

namespace SmartHAProxy

/-! ### Results of tests -/

/-- `enum acl_test_res`. -/
inductive AclTestRes
  | fail | miss | pass
  deriving DecidableEq, Repr

namespace AclTestRes

/-- The numbers of the results. -/
def num : AclTestRes → ℕ
  | fail => 0
  | miss => 1
  | pass => 3

/-- `x | y`. -/
def or : AclTestRes → AclTestRes → AclTestRes
  | pass, _ => pass
  | miss, pass => pass
  | miss, _ => miss
  | fail, y => y

/-- `x & y`. -/
def and : AclTestRes → AclTestRes → AclTestRes
  | fail, _ => fail
  | miss, fail => fail
  | miss, _ => miss
  | pass, y => y

/-- `acl_neg`. -/
def neg : AclTestRes → AclTestRes
  | fail => pass
  | miss => miss
  | pass => fail

/-- The operations are those of the numbers. -/
theorem num_ops (x y : AclTestRes) : (x.or y).num = x.num ||| y.num ∧
    (x.and y).num = x.num &&& y.num ∧ x.neg.num = 3 >>> x.num := by
  cases x <;> cases y <;> exact ⟨rfl, rfl, rfl⟩

/-- A decision. -/
def ofBool (b : Bool) : AclTestRes := if b then pass else fail

/-- A decision stays as it is, and what is undecided may become anything. -/
def Le (x x' : AclTestRes) : Prop := x = miss ∨ x' = x

variable {x x' y y' : AclTestRes}

theorem Le.refl (x : AclTestRes) : x.Le x := .inr rfl

theorem Le.or (hx : x.Le x') (hy : y.Le y') : (x.or y).Le (x'.or y') := by
  rcases hx with rfl | rfl
  · rcases hy with rfl | rfl
    · exact .inl rfl
    · cases y'
      · exact .inl rfl
      · exact .inl rfl
      · cases x' <;> exact .inr rfl
  · rcases hy with rfl | rfl
    · cases x'
      · exact .inl rfl
      · exact .inl rfl
      · exact .inr rfl
    · exact .inr rfl

theorem Le.neg (hx : x.Le x') : x.neg.Le x'.neg := by
  rcases hx with rfl | rfl
  · exact .inl rfl
  · exact .inr rfl

theorem or_fail (x : AclTestRes) : x.or fail = x := by cases x <;> rfl

theorem or_assoc (x y z : AclTestRes) : (x.or y).or z = x.or (y.or z) := by
  cases x <;> cases y <;> cases z <;> rfl

theorem ofBool_or (a b : Bool) : (ofBool a).or (ofBool b) = ofBool (a || b) := by
  cases a <;> cases b <;> rfl

end AclTestRes

open AclTestRes (fail miss pass ofBool or_fail ofBool_or)

/-! ### The source -/

/-- What `sample_process` answers for an expression, call after call, and whether
`pattern_exec_match` finds the sample: no sample, the last one, or one with `SMP_F_NOT_LAST`;
`mayChange` is `SMP_F_MAY_CHANGE`. -/
inductive AclFetch
  | failed (mayChange : Bool)
  | last (found mayChange : Bool)
  | more (found : Bool) (next : AclFetch)

def pat2acl (found : Bool) : AclTestRes := if found then pass else fail

/-- `struct acl_term`, with the expressions of its ACL. -/
structure AclTerm (ε : Type*) where
  exprs : List ε
  neg : Bool

variable {ε : Type*}

/-- An expression, from `fetch_next` on; `final` is `SMP_OPT_FINAL`. -/
def aclExprLoop (final : Bool) : AclTestRes → AclFetch → AclTestRes
  | aclRes, .failed mayChange => if mayChange && !final then aclRes.or miss else aclRes
  | aclRes, .last found mayChange =>
    let aclRes := aclRes.or (pat2acl found)
    if aclRes = pass then aclRes
    else if mayChange && !final then aclRes.or miss
    else aclRes
  | aclRes, .more found next =>
    let aclRes := aclRes.or (pat2acl found)
    if aclRes = pass then aclRes else aclExprLoop final aclRes next

/-- The loop over the expressions of an ACL. -/
def aclLoop (final : Bool) (fetch : ε → AclFetch) : AclTestRes → List ε → AclTestRes
  | aclRes, [] => aclRes
  | aclRes, expr :: exprs =>
    let aclRes := aclExprLoop final aclRes (fetch expr)
    if aclRes = pass then aclRes else aclLoop final fetch aclRes exprs

/-- The loop over the terms of a suite. -/
def aclSuiteLoop (final : Bool) (fetch : ε → AclFetch) :
    AclTestRes → List (AclTerm ε) → AclTestRes
  | suiteRes, [] => suiteRes
  | suiteRes, term :: terms =>
    let aclRes := aclLoop final fetch fail term.exprs
    let aclRes := if term.neg then aclRes.neg else aclRes
    let suiteRes := suiteRes.and aclRes
    if suiteRes ≠ pass then suiteRes else aclSuiteLoop final fetch suiteRes terms

/-- The loop over the suites of a condition. -/
def aclCondLoop (final : Bool) (fetch : ε → AclFetch) :
    AclTestRes → List (List (AclTerm ε)) → AclTestRes
  | condRes, [] => condRes
  | condRes, suite :: suites =>
    let condRes := condRes.or (aclSuiteLoop final fetch pass suite)
    if condRes = pass then condRes else aclCondLoop final fetch condRes suites

def aclExecCond (final : Bool) (fetch : ε → AclFetch) (cond : List (List (AclTerm ε))) :
    AclTestRes :=
  aclCondLoop final fetch fail cond

/-! ### The loops -/

namespace AclFetch

/-- A sample is found. -/
def found : AclFetch → Bool
  | failed _ => false
  | last found _ => found
  | more found next => found || next.found

/-- The last answer may change. -/
def mayChange : AclFetch → Bool
  | failed mayChange => mayChange
  | last _ mayChange => mayChange
  | more _ next => next.mayChange

/-- The result of an expression. -/
def res (final : Bool) (f : AclFetch) : AclTestRes :=
  if f.found then pass else if f.mayChange && !final then miss else fail

end AclFetch

theorem or_ite (x : AclTestRes) (p : Bool) :
    (if p then x.or miss else x) = x.or (if p then miss else fail) := by
  cases p
  · exact (or_fail x).symm
  · rfl

theorem aclExprLoop_eq (final : Bool) (x : AclTestRes) (f : AclFetch) :
    aclExprLoop final x f = x.or (f.res final) := by
  induction f generalizing x with
  | failed mayChange => exact or_ite x _
  | last found mayChange =>
    rw [aclExprLoop, or_ite]
    cases found
    · rw [show pat2acl false = fail from rfl, or_fail]
      cases x <;> rfl
    · cases x <;> rfl
  | more found next ih =>
    rw [aclExprLoop, ih, AclTestRes.or_assoc]
    cases found
    · rw [show pat2acl false = fail from rfl, or_fail]
      cases x <;> rfl
    · cases x <;> rfl

theorem foldr_or_eq_pass {α : Type*} {f : α → AclTestRes} {l : List α} :
    l.foldr (fun a res => (f a).or res) fail = pass ↔ ∃ a ∈ l, f a = pass := by
  induction l with
  | nil => simp
  | cons a l ih =>
    rw [List.foldr_cons, List.exists_mem_cons_iff, ← ih]
    rcases f a with - | - | -
    · simp [AclTestRes.or]
    · rcases l.foldr (fun a res => (f a).or res) fail with - | - | - <;> simp [AclTestRes.or]
    · simp [AclTestRes.or]

/-- A loop that takes results together until one passes. -/
theorem orLoop_eq {α : Type*} {loop : AclTestRes → List α → AclTestRes} {f : α → AclTestRes}
    (hnil : ∀ x, loop x [] = x)
    (hcons : ∀ x a l, loop x (a :: l) = if x.or (f a) = pass then x.or (f a) else
      loop (x.or (f a)) l) (x : AclTestRes) (l : List α) :
    loop x l = x.or (l.foldr (fun a res => (f a).or res) fail) := by
  induction l generalizing x with
  | nil => rw [hnil, List.foldr_nil, or_fail]
  | cons a l ih =>
    rw [hcons, ih, AclTestRes.or_assoc, List.foldr_cons]
    rcases hres : x.or (f a) with - | - | -
    · exact if_neg (by decide)
    · exact if_neg (by decide)
    · rw [if_pos rfl, ← AclTestRes.or_assoc, hres]
      rfl

theorem foldr_or_le {α : Type*} {f f' : α → AclTestRes} {l : List α}
    (h : ∀ a ∈ l, (f a).Le (f' a)) :
    (l.foldr (fun a res => (f a).or res) fail).Le (l.foldr (fun a res => (f' a).or res) fail) := by
  induction l with
  | nil => exact .refl _
  | cons a l ih =>
    exact (h a List.mem_cons_self).or (ih fun b hb => h b (List.mem_cons_of_mem _ hb))

theorem foldr_or_ofBool {α : Type*} {f : α → AclTestRes} {g : α → Bool} {l : List α}
    (h : ∀ a ∈ l, f a = ofBool (g a)) :
    l.foldr (fun a res => (f a).or res) fail = ofBool (l.any g) := by
  induction l with
  | nil => rfl
  | cons a l ih =>
    rw [List.foldr_cons, h a List.mem_cons_self, ih fun b hb => h b (List.mem_cons_of_mem _ hb),
      ofBool_or, List.any_cons]

variable {final final' : Bool} {fetch fetch' : ε → AclFetch}

/-- The result of a term. -/
def AclTerm.res (final : Bool) (fetch : ε → AclFetch) (term : AclTerm ε) : AclTestRes :=
  let res := term.exprs.foldr (fun expr res => ((fetch expr).res final).or res) fail
  if term.neg then res.neg else res

theorem aclSuiteLoop_cons (term : AclTerm ε) (terms : List (AclTerm ε)) :
    aclSuiteLoop final fetch pass (term :: terms) =
      if term.res final fetch ≠ pass then term.res final fetch
      else aclSuiteLoop final fetch pass terms := by
  have hacl : aclLoop final fetch fail term.exprs =
      term.exprs.foldr (fun expr res => ((fetch expr).res final).or res) fail :=
    orLoop_eq (fun _ => rfl) (fun x a l => by rw [aclLoop, aclExprLoop_eq]) fail term.exprs
  have hterm : pass.and (if term.neg then (aclLoop final fetch fail term.exprs).neg
      else aclLoop final fetch fail term.exprs) = term.res final fetch := by
    rw [hacl]
    rfl
  rw [aclSuiteLoop, hterm]
  by_cases h : term.res final fetch = pass
  · rw [h]
  · rw [if_pos h, if_pos h]

theorem aclSuiteLoop_eq_pass {suite : List (AclTerm ε)} :
    aclSuiteLoop final fetch pass suite = pass ↔ ∀ term ∈ suite, term.res final fetch = pass := by
  induction suite with
  | nil => simp [aclSuiteLoop]
  | cons term terms ih =>
    rw [aclSuiteLoop_cons, List.forall_mem_cons, ← ih]
    split_ifs with h
    · simp [h]
    · simp [not_not.mp h]

theorem aclExecCond_eq (cond : List (List (AclTerm ε))) : aclExecCond final fetch cond =
    cond.foldr (fun suite res => (aclSuiteLoop final fetch pass suite).or res) fail :=
  orLoop_eq (fun _ => rfl) (fun _ _ _ => rfl) fail cond

/-! ### Decisions -/

theorem AclTerm.res_le (h : ∀ expr, ((fetch expr).res final).Le ((fetch' expr).res final'))
    (term : AclTerm ε) : (term.res final fetch).Le (term.res final' fetch') := by
  have hor := foldr_or_le (l := term.exprs) fun expr _ => h expr
  rw [AclTerm.res, AclTerm.res]
  cases term.neg
  · exact hor
  · exact hor.neg

/-- **More data** do not change what is decided. -/
theorem aclExecCond_le (h : ∀ expr, ((fetch expr).res final).Le ((fetch' expr).res final'))
    (cond : List (List (AclTerm ε))) :
    (aclExecCond final fetch cond).Le (aclExecCond final' fetch' cond) := by
  have hsuite : ∀ suite : List (AclTerm ε),
      (aclSuiteLoop final fetch pass suite).Le (aclSuiteLoop final' fetch' pass suite) := by
    intro suite
    induction suite with
    | nil => exact .refl _
    | cons term terms ih =>
      rw [aclSuiteLoop_cons, aclSuiteLoop_cons]
      rcases term.res_le h with hmiss | hsame
      -- the suite ends at a term that is undecided, and so it is undecided itself
      · rw [hmiss]
        exact .inl rfl
      · rw [hsame]
        split_ifs
        · exact .refl _
        · exact ih
  rw [aclExecCond_eq, aclExecCond_eq]
  exact foldr_or_le fun suite _ => hsuite suite

/-- The truth of a term, where `v` is that of the expressions. -/
def AclTerm.value (v : ε → Bool) (term : AclTerm ε) : Bool :=
  term.neg ^^ term.exprs.any v

/-- The truth of a condition. -/
def aclCondValue (v : ε → Bool) (cond : List (List (AclTerm ε))) : Bool :=
  cond.any fun suite => suite.all (·.value v)

/-- **Without missing data**, the result is the truth. -/
theorem aclExecCond_ofBool {v : ε → Bool} (h : ∀ expr, (fetch expr).res final = ofBool (v expr))
    (cond : List (List (AclTerm ε))) :
    aclExecCond final fetch cond = ofBool (aclCondValue v cond) := by
  rw [aclExecCond_eq]
  refine foldr_or_ofBool fun suite hmem => ?_
  clear hmem
  induction suite with
  | nil => rfl
  | cons term terms ih =>
    have hterm : term.res final fetch = ofBool (term.value v) := by
      rw [AclTerm.res, AclTerm.value, foldr_or_ofBool fun expr _ => h expr]
      cases term.neg <;> cases term.exprs.any v <;> rfl
    rw [aclSuiteLoop_cons, hterm, ih, List.all_cons]
    cases term.value v <;> rfl

/-- Once a condition is decided, it stays so, whatever arrives later and when the data are final:
an expression that was decided is not changed by it. -/
theorem aclExecCond_settled (h : ∀ expr, (fetch expr).res final ≠ miss →
      (fetch' expr).res final' = (fetch expr).res final)
    (cond : List (List (AclTerm ε))) (hdecided : aclExecCond final fetch cond ≠ miss) :
    aclExecCond final' fetch' cond = aclExecCond final fetch cond :=
  (aclExecCond_le (fun expr => or_iff_not_imp_left.mpr (h expr)) cond).resolve_left hdecided

/-- A rule on a request of which the body is missing: it is decided before the body is there. -/
theorem aclExecCond_settled_early :
    aclExecCond true (fun i => if i = 0 then .last true false else .last true false)
        [[⟨[0], false⟩], [⟨[1], true⟩]] =
      aclExecCond false (fun i : ℕ => if i = 0 then .last true false else .failed true)
        [[⟨[0], false⟩], [⟨[1], true⟩]] := by
  refine aclExecCond_settled (fun i hi => ?_) _ (by decide)
  by_cases h : i = 0
  · subst h
    rfl
  · simp only [if_neg h] at hi
    exact absurd rfl hi

/-- A decision is the truth of the condition, whatever is missing; and a condition passes exactly
if all terms of one of its suites pass. -/
theorem aclExecCond_decided (final : Bool) (fetch : ε → AclFetch)
    (cond : List (List (AclTerm ε))) :
    (∀ v : ε → Bool, (∀ expr, ((fetch expr).res final).Le (ofBool (v expr))) →
      (aclExecCond final fetch cond).Le (ofBool (aclCondValue v cond))) ∧
    (aclExecCond final fetch cond = pass ↔
      ∃ suite ∈ cond, ∀ term ∈ suite, term.res final fetch = pass) := by
  refine ⟨fun v hv => ?_, ?_⟩
  · have hknown : ∀ expr, (AclFetch.last (v expr) false).res final = ofBool (v expr) := by
      intro expr
      cases v expr <;> rfl
    have hle : (aclExecCond final fetch cond).Le
        (aclExecCond final (fun expr => .last (v expr) false) cond) :=
      aclExecCond_le (fun expr => (hknown expr).symm ▸ hv expr) cond
    rw [aclExecCond_ofBool hknown] at hle
    exact hle
  · rw [aclExecCond_eq, foldr_or_eq_pass]
    exact exists_congr fun suite => and_congr_right fun _ => aclSuiteLoop_eq_pass

/-- With `SMP_OPT_FINAL` a condition is decided, and the truth of an expression is whether one of
its samples is found. -/
theorem aclExecCond_final (fetch : ε → AclFetch) (cond : List (List (AclTerm ε))) :
    aclExecCond true fetch cond = ofBool (aclCondValue (fun expr => (fetch expr).found) cond) := by
  refine aclExecCond_ofBool (fun expr => ?_) cond
  rw [AclFetch.res, Bool.not_true, Bool.and_false]
  rfl

end SmartHAProxy
