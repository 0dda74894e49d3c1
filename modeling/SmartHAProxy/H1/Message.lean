/-
The state of an HTTP/1 message (haproxy/h1.h), and what the parser makes of its
content-length, transfer-encoding, connection and upgrade headers (h1.c).

A string of the message is its position and its bytes at the time it is
recorded; what the code rewrites later lies elsewhere.  Positions count from the
byte that the caller passes as the start of the message.

The code is compiled with `-fwrapv`: the sums of `long long` values wrap around.
-/
import SmartHAProxy.Http.Normalize

namespace SmartHAProxy

/-! ### Messages -/

/-- `enum h1m_state`. -/
inductive H1mState
  | rqbefore | rqbeforeCr | rqmeth | rqmethSp | rquri | rquriSp | rqver | rqlineEnd
  | rpbefore | rpbeforeCr | rpver | rpverSp | rpcode | rpcodeSp | rpreason | rplineEnd
  | hdrFirst | hdrName | hdrCol | hdrL1Sp | hdrL1Lf | hdrL1Lws | hdrVal | hdrL2Lf | hdrL2Lws
  | lastLf | chunkSize | data | chunkCrlf | trailers | done | tunnel
  deriving DecidableEq, Repr

/-- The flags of a message that the parser reads or writes (`H1_MF_*`). -/
structure H1mFlags where
  clen : Bool
  chnk : Bool
  resp : Bool
  tolower : Bool
  ver11 : Bool
  connClo : Bool
  connKal : Bool
  connUpg : Bool
  xferEnc : Bool
  noPhdr : Bool
  hdrsOnly : Bool
  cleanConnHdr : Bool
  upgWebsocket : Bool
  deriving DecidableEq, Repr

/-- `struct h1m`. -/
structure H1m where
  state : H1mState
  flags : H1mFlags
  currLen : UInt64
  bodyLen : UInt64
  next : ℕ
  errPos : ℤ
  errState : H1mState
  deriving DecidableEq, Repr

/-- `H1_MF_NONE`. -/
def H1mFlags.none : H1mFlags :=
  ⟨false, false, false, false, false, false, false, false, false, false, false, false, false⟩

def h1mInitReq : H1m where
  state := .rqbefore
  flags := .none
  currLen := 0
  bodyLen := 0
  next := 0
  errPos := -2
  errState := .rqbefore

/-- A string in a message, `struct ist`. -/
structure Ist where
  ptr : ℕ
  str : CStr
  deriving DecidableEq, Repr

/-! ### Content-Length -/

/-- `ULLONG_MAX / 10ULL`. -/
def ullongMaxDiv10 : UInt64 := 1844674407370955161

/-- One more digit `c` of a content-length; `none` on overflow.  The sum is compared as
`long long`. -/
def contLenDigit (cl : UInt64) (c : UInt8) : Option UInt64 :=
  if cl > ullongMaxDiv10 then none
  else
    let cl := cl * 10
    let sum := cl + UInt64.ofNat (c.toNat - 48)
    if sum.toInt64 < cl.toInt64 then none else some sum

/-- The value that was read is stored, unless another one was stored before.  `word` is the
position of its digits. -/
def contLenStore (h1m : H1m) (word : Ist) (cl : UInt64) : Option (H1m × Ist) :=
  if h1m.flags.clen ∧ cl ≠ h1m.bodyLen then none
  else
    let flags := { h1m.flags with clen := true }
    some ({ h1m with flags, currLen := cl, bodyLen := cl }, word)

/-- How a call of `h1_parse_cont_len_header` ends: it succeeds or fails; the message and the
value as they are then. -/
abbrev ContLenEnd := Bool × H1m × Ist

mutual

/-- The outer loop of `h1_parse_cont_len_header`, with the position and the bytes from
`word.ptr` on. -/
def contLenWord (h1m : H1m) (value : Ist) (ptr : ℕ) : CStr → ContLenEnd
  | [] => (true, h1m, value)
  | c :: s =>
    if httpIsLws c then contLenWord h1m value (ptr + 1) s
    else if isDigit c then
      (contLenDigit 0 c).elim (false, h1m, value) fun cl =>
        contLenDigits h1m value ⟨ptr, [c]⟩ cl (ptr + 1) s
    else (false, h1m, value)

/-- The loop for the digits after the first one. -/
def contLenDigits (h1m : H1m) (value word : Ist) (cl : UInt64) (ptr : ℕ) : CStr → ContLenEnd
  | [] => (contLenStore h1m word cl).elim (false, h1m, value) fun r => (true, r)
  | c :: s =>
    if isDigit c then
      (contLenDigit cl c).elim (false, h1m, value) fun cl =>
        contLenDigits h1m value ⟨word.ptr, word.str ++ [c]⟩ cl (ptr + 1) s
    else if httpIsLws c then contLenBlanks h1m value word cl (ptr + 1) s
    else if c = 44 then
      (contLenStore h1m word cl).elim (false, h1m, value) fun r =>
        contLenWord r.1 r.2 (ptr + 1) s
    else (false, h1m, value)

/-- The loop for the blanks up to the next comma. -/
def contLenBlanks (h1m : H1m) (value word : Ist) (cl : UInt64) (ptr : ℕ) : CStr → ContLenEnd
  | [] => (contLenStore h1m word cl).elim (false, h1m, value) fun r => (true, r)
  | c :: s =>
    if httpIsLws c then contLenBlanks h1m value word cl (ptr + 1) s
    else if c = 44 then
      (contLenStore h1m word cl).elim (false, h1m, value) fun r =>
        contLenWord r.1 r.2 (ptr + 1) s
    else (false, h1m, value)

end

/-- `h1_parse_cont_len_header`: the return value, the message and the value. -/
def h1ParseContLenHeader (h1m : H1m) (value : Ist) : ℤ × H1m × Ist :=
  let notFirst := h1m.flags.clen
  match contLenWord h1m value value.ptr value.str with
  | (true, r) => (if notFirst then 0 else 1, r)
  | (false, r) => (-1, r)

/-! ### Words of a header -/

/-- The words that the loops of the other functions find in the bytes `s`: the position, the
bytes without trailing blanks, and the position of the end.  A turn passes one byte at
least. -/
def hdrWords : ℕ → ℕ → CStr → List (Ist × ℕ)
  | _, _, [] => []
  | 0, _, _ => []
  | fuel + 1, ptr, c :: s =>
    if httpIsLws c then hdrWords fuel (ptr + 1) s
    else
      let n := httpFindHdrValueEnd false false (c :: s)
      let word := (((c :: s).take n).reverse.dropWhile httpIsLws).reverse
      (⟨ptr, word⟩, ptr + n) :: hdrWords fuel (ptr + n + 1) ((c :: s).drop (n + 1))

def Ist.words (value : Ist) : List (Ist × ℕ) := hdrWords value.str.length value.ptr value.str

/-! ### Transfer-Encoding, Connection, Upgrade -/

def h1ParseXferEncHeader (h1m : H1m) (value : Ist) : H1m :=
  let chnk := value.words.foldl (fun _ word => isteqi word.1.str (bytes "chunked")) false
  { h1m with flags := { h1m.flags with xferEnc := true, chnk := chnk } }

/-- One turn of the loop of `h1_parse_connection_header`: the flags, the value as it is
rewritten, and the end `p` of the word before. -/
def connectionWord (value : Ist) (r : H1mFlags × CStr × ℕ) (word : Ist × ℕ) : H1mFlags × CStr × ℕ :=
  let (flags, out, p) := r
  let (w, n) := word
  let keep (flags : H1mFlags) : H1mFlags × CStr × ℕ :=
    if flags.cleanConnHdr then
      -- no rewrite done till now
      if value.ptr + out.length = p then (flags, value.str.take (n - value.ptr), n)
      else (flags, (if out = [] then out else out ++ [44]) ++ w.str, n)
    else (flags, out, n)
  if isteqi w.str (bytes "keep-alive") then
    let flags := { flags with connKal := true }
    if flags.cleanConnHdr then (flags, out, n) else keep flags
  else if isteqi w.str (bytes "close") then
    let flags := { flags with connClo := true }
    if flags.cleanConnHdr then (flags, out, n) else keep flags
  else if isteqi w.str (bytes "upgrade") then keep { flags with connUpg := true }
  else keep flags

def h1ParseConnectionHeader (h1m : H1m) (value : Ist) : H1m × Ist :=
  let out := if h1m.flags.cleanConnHdr then [] else value.str
  let r := value.words.foldl (connectionWord value) (h1m.flags, out, value.ptr)
  ({ h1m with flags := r.1 }, ⟨value.ptr, r.2.1⟩)

def h1ParseUpgradeHeader (h1m : H1m) (value : Ist) : H1m :=
  let websocket := value.words.any fun word => isteqi word.1.str (bytes "websocket")
  { h1m with flags := { h1m.flags with upgWebsocket := websocket } }

end SmartHAProxy
