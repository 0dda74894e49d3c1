/-
Characters and methods of HTTP (http.c, haproxy/http.h).
-/
import SmartHAProxy.Lib.CString

namespace SmartHAProxy

/-! ### Characters -/

def httpIsToken (c : UInt8) : Bool :=
  (48 ≤ c && c ≤ 57) || (65 ≤ c && c ≤ 90) || (97 ≤ c && c ≤ 122) ||
    [33, 35, 36, 37, 38, 39, 42, 43, 45, 46, 94, 95, 96, 124, 126].contains c

def httpIsLws (c : UInt8) : Bool := c == 9 || c == 10 || c == 13 || c == 32

def httpIsCtl (c : UInt8) : Bool := c < 32 || c == 127

def isUpper (c : UInt8) : Bool := 65 ≤ c && c ≤ 90

def isDigit (c : UInt8) : Bool := 48 ≤ c && c ≤ 57

def isAlpha (c : UInt8) : Bool := isUpper c || (97 ≤ c && c ≤ 122)

def istLc (c : UInt8) : UInt8 := if isUpper c then c + 32 else c

/-- `isteqi`: equality up to the case. -/
def isteqi (a b : CStr) : Bool := a.map istLc == b.map istLc

theorem isUpper_iff {c : UInt8} : isUpper c = true ↔ 65 ≤ c.toNat ∧ c.toNat ≤ 90 := by
  simp [isUpper, UInt8.le_iff_toNat_le]

theorem istLc_not_upper (c : UInt8) : isUpper (istLc c) = false := by
  unfold istLc
  split_ifs with hu
  · rw [Bool.eq_false_iff, ne_eq, isUpper_iff]
    rw [isUpper_iff] at hu
    simp only [UInt8.toNat_add, UInt8.toNat_ofNat]
    omega
  · simpa using hu

theorem istLc_token {c : UInt8} (h : httpIsToken c = true) : httpIsToken (istLc c) = true := by
  unfold istLc
  split_ifs with hu
  · -- an upper-case letter becomes a lower-case one
    rw [isUpper_iff] at hu
    have hlc : 97 ≤ c + 32 ∧ c + 32 ≤ 122 := by
      simp only [UInt8.le_iff_toNat_le, UInt8.toNat_add, UInt8.toNat_ofNat]
      omega
    simp [httpIsToken, hlc]
  · exact h

/-! ### Methods -/

/-- `enum http_meth_t`. -/
inductive HttpMeth
  | options | get | head | post | put | delete | trace | connect | other
  deriving DecidableEq, Repr

def findHttpMeth (m : CStr) : HttpMeth :=
  if m = bytes "GET" then .get
  else if m = bytes "HEAD" then .head
  else if m = bytes "POST" then .post
  else if m = bytes "CONNECT" then .connect
  else if m = bytes "PUT" then .put
  else if m = bytes "OPTIONS" then .options
  else if m = bytes "DELETE" then .delete
  else if m = bytes "TRACE" then .trace
  else .other

end SmartHAProxy
