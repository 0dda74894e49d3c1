/-
Conditions of `.if` and `.elif` lines (src/cfgcond.c).

Three functions parse a condition by recursive descent: a term, a chain of terms
joined by `&&`, a chain of such chains joined by `||`.  They share a pointer into
the text, which is the list of the bytes that are left, and return whether they
found an error, nothing, or what they were to parse.  Each call is made with a
smaller `maxdepth`, chains included.

The parser of the arguments of a predicate, `make_arg_list`, and the value of a
predicate are parameters.
-/
import Mathlib.Algebra.Order.Ring.Int
import SmartHAProxy.Lib.CString

namespace SmartHAProxy

/-! ### Integers -/

/-- `isspace`. -/
def isSpaceChar (c : UInt8) : Bool := c == 32 || (9 ≤ c && c ≤ 13)

/-- The value of a digit in bases up to 16. -/
def digitVal (c : UInt8) : Option ℕ :=
  if 48 ≤ c ∧ c ≤ 57 then some (c.toNat - 48)
  else if 97 ≤ c ∧ c ≤ 102 then some (c.toNat - 87)
  else if 65 ≤ c ∧ c ≤ 70 then some (c.toNat - 55)
  else none

/-- Whether a character is a digit in a base. -/
def isDigitIn (base : ℕ) (c : UInt8) : Bool :=
  match digitVal c with
  | some d => d < base
  | none => false

/-- The number at the start of the text, and what follows; none without a digit. -/
def strtolDigits (base : ℕ) (s : CStr) : Option (ℕ × CStr) :=
  let digits := s.takeWhile (isDigitIn base)
  if digits = [] then none
  else some (digits.foldl (fun n c => base * n + (digitVal c).getD 0) 0,
    s.dropWhile (isDigitIn base))

/-- A number with the sign already read: `0x` for hexadecimal, if a digit follows, `0`
for octal. -/
def strtolUnsigned (s : CStr) : Option (ℕ × CStr) :=
  match s with
  | a :: b :: s' =>
    if a = 48 ∧ (b = 120 ∨ b = 88) then
      match strtolDigits 16 s' with
      | some r => some r
      | none => strtolDigits 8 s
    else if a = 48 then strtolDigits 8 s
    else strtolDigits 10 s
  | _ => strtolDigits 10 s

/-- The limits of a `long`. -/
def clampLong (n : ℤ) : ℤ := max (-2 ^ 63) (min (2 ^ 63 - 1) n)

/-- `strtol` in base 0; none when it does not move the end pointer. -/
def strtol (text : CStr) : Option (ℤ × CStr) :=
  match text.dropWhile isSpaceChar with
  | [] => none
  | c :: s =>
    if c = 45 then (strtolUnsigned s).map fun r => (clampLong (-r.1), r.2)
    else if c = 43 then (strtolUnsigned s).map fun r => (clampLong r.1, r.2)
    else (strtolUnsigned (c :: s)).map fun r => (clampLong r.1, r.2)

/-! ### Conditions -/

/-- `enum cond_predicate`. -/
inductive CondPredicate
  | isDefined | feature | streq | strneq | versionAtleast | versionBefore
  | opensslVersionAtleast | opensslVersionBefore
  deriving DecidableEq, Repr

/-- `cond_predicates`, in the order of the table. -/
def condPredicates : List (CStr × CondPredicate) :=
  [(bytes "defined", .isDefined), (bytes "feature", .feature), (bytes "streq", .streq),
    (bytes "strneq", .strneq), (bytes "version_atleast", .versionAtleast),
    (bytes "version_before", .versionBefore),
    (bytes "openssl_version_atleast", .opensslVersionAtleast),
    (bytes "openssl_version_before", .opensslVersionBefore)]

mutual

/-- `struct cfg_cond_term`: a constant, a predicate with its arguments, or an
expression in parentheses; possibly negated. -/
inductive CondTerm (A : Type)
  | const (neg : Bool) (val : Bool)
  | pred (neg : Bool) (prd : CondPredicate) (args : A)
  | paren (neg : Bool) (expr : CondExpr A)

/-- `struct cfg_cond_and`. -/
inductive CondAnd (A : Type)
  | last (left : CondTerm A)
  | cons (left : CondTerm A) (right : CondAnd A)

/-- `struct cfg_cond_expr`. -/
inductive CondExpr (A : Type)
  | last (left : CondAnd A)
  | cons (left : CondAnd A) (right : CondExpr A)

end

/-- What a parser returns: less than zero, zero, or more with what it has parsed and
the text that is left. -/
inductive ParseRet (α : Type)
  | error
  | desync
  | ok (a : α) (text : CStr)

def isBlank (c : UInt8) : Bool := c == 32 || c == 9

def skipBlanks (text : CStr) : CStr := text.dropWhile isBlank

/-- The exclamation marks before a term, with the blanks behind each of them. -/
def skipBangs (neg : Bool) : CStr → Bool × CStr
  | [] => (neg, [])
  | c :: s =>
    if c = 33 then skipBangs (!neg) s
    else if isBlank c then skipBangs neg s
    else (neg, c :: s)

/-- The text behind a character, if it starts with it. -/
def eat (c : UInt8) : CStr → Option CStr
  | [] => none
  | b :: s => if b = c then some s else none

/-- `cfg_lookup_cond_pred`: the word up to a space or a parenthesis. -/
def cfgLookupCondPred (str : CStr) : Option (CStr × CondPredicate) :=
  let word := str.takeWhile fun c => c != 32 && c != 40
  condPredicates.find? fun ret => ret.1 = word

section Parser

variable {A : Type} (makeArgList : CondPredicate → CStr → Option (A × CStr))

mutual

def cfgParseCondTerm (maxdepth : ℕ) (text : CStr) : ParseRet (CondTerm A) :=
  -- empty term does not parse
  if skipBlanks text = [] then .desync
  else match maxdepth with
    | 0 => .error
    | maxdepth + 1 =>
      let inp := skipBangs false (skipBlanks text)
      match strtol inp.2 with
      | some (val, rest) => .ok (.const inp.1 (val != 0)) rest
      | none =>
        match eat 40 inp.2 with
        | some rest =>
          match cfgParseCondExpr maxdepth (skipBlanks rest) with
          | .ok expr rest =>
            match eat 41 (skipBlanks rest) with
            | some rest => .ok (.paren inp.1 expr) (skipBlanks rest)
            | none => .error
          | .desync => .error
          | .error => .error
        | none =>
          match cfgLookupCondPred inp.2 with
          | some (word, prd) =>
            match makeArgList prd (inp.2.drop word.length) with
            | some (args, rest) => .ok (.pred inp.1 prd args) rest
            | none => .error
          | none => .error

def cfgParseCondAnd (maxdepth : ℕ) (text : CStr) : ParseRet (CondAnd A) :=
  -- empty expr does not parse
  if text = [] then .desync
  else match maxdepth with
    | 0 => .error
    | maxdepth + 1 =>
      match cfgParseCondTerm maxdepth text with
      | .error => .error
      | .desync => .error
      | .ok left rest =>
        match (eat 38 (skipBlanks rest)).bind (eat 38) with
        | none => .ok (.last left) (skipBlanks rest)
        | some rest =>
          match cfgParseCondAnd maxdepth (skipBlanks rest) with
          | .ok right rest => .ok (.cons left right) rest
          | .desync => .desync
          | .error => .error

def cfgParseCondExpr (maxdepth : ℕ) (text : CStr) : ParseRet (CondExpr A) :=
  -- empty expr does not parse
  if text = [] then .desync
  else match maxdepth with
    | 0 => .error
    | maxdepth + 1 =>
      match cfgParseCondAnd maxdepth text with
      | .error => .error
      | .desync => .error
      | .ok left rest =>
        match (eat 124 (skipBlanks rest)).bind (eat 124) with
        | none => .ok (.last left) (skipBlanks rest)
        | some rest =>
          match cfgParseCondExpr maxdepth (skipBlanks rest) with
          | .ok right rest => .ok (.cons left right) rest
          | .desync => .desync
          | .error => .error

end

end Parser

/-! ### Evaluation -/

section Eval

variable {A : Type} (predVal : CondPredicate → A → Option Bool)

mutual

/-- `cfg_eval_cond_term`; none is an error. -/
def cfgEvalCondTerm : CondTerm A → Option Bool
  | .const neg val => some (val ^^ neg)
  | .pred neg prd args => (predVal prd args).map (· ^^ neg)
  | .paren neg expr => (cfgEvalCondExpr expr).map (· ^^ neg)

/-- `cfg_eval_cond_and`: as long as the terms are true. -/
def cfgEvalCondAnd : CondAnd A → Option Bool
  | .last left => cfgEvalCondTerm left
  | .cons left right =>
    match cfgEvalCondTerm left with
    | some true => cfgEvalCondAnd right
    | ret => ret

/-- `cfg_eval_cond_expr`: as long as the sub-expressions are false. -/
def cfgEvalCondExpr : CondExpr A → Option Bool
  | .last left => cfgEvalCondAnd left
  | .cons left right =>
    match cfgEvalCondAnd left with
    | some false => cfgEvalCondExpr right
    | ret => ret

end

def maxCfgRecursion : ℕ := 1024

/-- `cfg_eval_condition` on the text of a condition; none is an error. -/
def cfgEvalCondition (makeArgList : CondPredicate → CStr → Option (A × CStr)) (text : CStr) :
    Option Bool :=
  -- note: empty = false
  if text = [] then some false
  else match cfgParseCondExpr makeArgList maxCfgRecursion text with
    | .error => none
    | .desync => none
    | .ok expr rest => if skipBlanks rest = [] then cfgEvalCondExpr predVal expr else none

end Eval

end SmartHAProxy
