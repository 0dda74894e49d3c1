/-
The parser for the headers of HTTP/1 messages, `h1_headers_to_hdr_list` (h1.c).

A label of the parser is its state.  `H1Call.byte` is what it does with one byte,
up to the next `EAT_AND_JUMP_OR_RETURN`; the labels that it passes without
eating a byte are functions of their own, in the order of the jumps.  The two
loops that skip words of 4 and 8 bytes say, where they are entered, how many bytes
they skip (`uriFast`, `hdrValFast`).

Positions count from the byte that the caller passes as `start`; in the code
they count from the first byte of the start line.  `fields` is a history variable: the header
fields, with their values, that the parser has delimited.
-/
import SmartHAProxy.H1.Message
import SmartHAProxy.Http.Host
import SmartHAProxy.Lib.Swar

namespace SmartHAProxy

/-! ### Registers -/

def httpIsVerToken (c : UInt8) : Bool :=
  isDigit c || [46, 47, 72, 80, 82, 83, 84].contains c

/-- `struct http_hdr`. -/
structure HttpHdr where
  n : Ist
  v : Ist
  deriving DecidableEq, Repr

/-- The request line in `union h1_sl`. -/
structure H1RqSl where
  m : Ist
  u : Ist
  v : Ist
  meth : HttpMeth
  deriving DecidableEq, Repr

/-- The status line in `union h1_sl`. -/
structure H1StSl where
  v : Ist
  c : Ist
  r : Ist
  status : UInt16
  deriving DecidableEq, Repr

/-- `union h1_sl`.  A call uses one of the two lines. -/
structure H1Sl where
  rq : H1RqSl
  st : H1StSl
  deriving DecidableEq, Repr

/-- What does not change during a pass over the message. -/
structure H1Call where
  hdrNum : ℕ
  /-- the loops that skip words are compiled in -/
  fast : Bool
  skipUpdate : Bool
  restarting : Bool
  deriving DecidableEq, Repr

structure H1Regs where
  h1m : H1m
  /-- `start` -/
  start : ℕ
  /-- the bytes before `ptr`, as they are in the buffer -/
  past : CStr
  sol : ℕ
  col : ℕ
  eol : ℕ
  sov : ℕ
  sl : H1Sl
  hdrs : List HttpHdr
  hostIdx : Option ℕ
  fields : List HttpHdr
  deriving DecidableEq, Repr

def H1Regs.ptr (r : H1Regs) : ℕ := r.past.length

/-- The bytes from `a` to `b`. -/
def H1Regs.slice (r : H1Regs) (a b : ℕ) : Ist := ⟨a, (r.past.drop a).take (b - a)⟩

/-- Bytes that are replaced with spaces, from `a` up to `ptr`. -/
def H1Regs.spaces (r : H1Regs) (a : ℕ) : CStr := r.past.take a ++ List.replicate (r.ptr - a) 32

inductive H1Step
  /-- the byte is eaten, as `c` -/
  | eat (state : H1mState) (c : UInt8) (r : H1Regs)
  /-- `http_msg_invalid` -/
  | invalid (state : H1mState) (ptr : ℕ) (r : H1Regs)
  /-- `http_output_full` -/
  | full (state : H1mState) (ptr : ℕ) (r : H1Regs)
  /-- `restart` -/
  | restart (r : H1Regs)
  /-- the headers are complete, up to this byte -/
  | done (state : H1mState) (r : H1Regs)

/-- How it goes on at the labels that may lead to a loop that skips words. -/
inductive H1Move
  | step (step : H1Step)
  /-- the byte is eaten, and the `n` bytes after it are skipped -/
  | jump (state : H1mState) (n : ℕ) (r : H1Regs)

/-- `EXPECT_LF_HERE`. -/
def expectLf (state : H1mState) (r : H1Regs) (c : UInt8) (next : H1Step) : H1Step :=
  if c ≠ 10 then .invalid state r.ptr r else next

/-- The end of a line: a CR is eaten, before an LF. -/
def crOrLf (state : H1mState) (r : H1Regs) (c : UInt8) (lf : H1Regs → H1Step) : H1Step :=
  if c = 13 then .eat state c r else lf r

/-- An error that is captured, unless another one was before. -/
def H1Regs.capture (r : H1Regs) (pos : ℕ) : H1Regs :=
  if r.h1m.errPos = -1 then { r with h1m := { r.h1m with errPos := pos } } else r

/-! ### Skipping words -/

/-- `*(int *)ptr`. -/
def readInt (b₀ b₁ b₂ b₃ : UInt8) : UInt32 :=
  UInt32.ofNat (digitsWord ([b₀, b₁, b₂, b₃].map UInt8.toNat))

/-- `*(long *)ptr`. -/
def readLong (b₀ b₁ b₂ b₃ b₄ b₅ b₆ b₇ : UInt8) : UInt64 :=
  UInt64.ofNat (digitsWord ([b₀, b₁, b₂, b₃, b₄, b₅, b₆, b₇].map UInt8.toNat))

/-- The loop of the state RQURI: how many bytes it skips. -/
def uriFast : CStr → ℕ
  | b₀ :: b₁ :: b₂ :: b₃ :: s =>
    let x := readInt b₀ b₁ b₂ b₃ - 0x21212121
    if x &&& 0x80808080 ≠ 0 then 0
    else
      let x := x - 0x5e5e5e5e
      if x &&& 0x80808080 = 0 then 0 else 4 + uriFast s
  | _ => 0

/-- The second loop of the state HDR_VAL. -/
def hdrValFast4 : CStr → ℕ
  | b₀ :: b₁ :: b₂ :: b₃ :: s =>
    if (readInt b₀ b₁ b₂ b₃ - 0x0e0e0e0e) &&& 0x80808080 ≠ 0 then 0 else 4 + hdrValFast4 s
  | _ => 0

def hdrValFast : CStr → ℕ
  | b₀ :: b₁ :: b₂ :: b₃ :: b₄ :: b₅ :: b₆ :: b₇ :: s =>
    if (readLong b₀ b₁ b₂ b₃ b₄ b₅ b₆ b₇ - 0x0e0e0e0e0e0e0e0e) &&& 0x8080808080808080 ≠ 0 then 0
    else 8 + hdrValFast s
  | s => hdrValFast4 s

/-! ### Header fields -/

/-- `http_del_hdr`: the list up to the first entry without a name. -/
def httpDelHdr (n : CStr) : List HttpHdr → List HttpHdr
  | [] => []
  | h :: hdrs =>
    if h.n.str = [] then [h]
    else if isteqi h.n.str n then httpDelHdr n hdrs
    else h :: httpDelHdr n hdrs

/-- `http_set_hdr` on the next entry. -/
def H1Regs.setHdr (r : H1Regs) (n v : Ist) : H1Regs := { r with hdrs := r.hdrs ++ [⟨n, v⟩] }

/-- What happens to a header field: it is indexed, with its value, or skipped, or refused. -/
inductive H1Field
  | index (r : H1Regs) (v : Ist)
  | skip (r : H1Regs)
  | refuse (r : H1Regs) (v : Ist)

def H1Regs.host (r : H1Regs) (v : Ist) : H1Field :=
  match r.hostIdx with
  | none =>
    let authority := httpAuthority r.sl.rq.u.str
    if authority.length ≠ 0 ∧ isteqi v.str authority = false then
      if r.h1m.errPos < -1 then .refuse r v
      else .index { r.capture v.ptr with hostIdx := some r.hdrs.length } v
    else .index { r with hostIdx := some r.hdrs.length } v
  | some i => if isteqi v.str ((r.hdrs[i]?).elim [] (·.v.str)) then .skip r else .refuse r v

def H1Regs.field (r : H1Regs) (n v : Ist) : H1Field :=
  if isteqi n.str (bytes "transfer-encoding") then
    .index { r with h1m := h1ParseXferEncHeader r.h1m v } v
  else if isteqi n.str (bytes "content-length") then
    let (ret, h1m, v) := h1ParseContLenHeader r.h1m v
    if ret < 0 then .refuse { r with h1m } v
    else if ret = 0 then .skip { r with h1m }
    else .index { r with h1m } v
  else if isteqi n.str (bytes "connection") then
    let (h1m, v) := h1ParseConnectionHeader r.h1m v
    if v.str.length = 0 then .skip { r with h1m } else .index { r with h1m } v
  else if isteqi n.str (bytes "upgrade") then
    .index { r with h1m := h1ParseUpgradeHeader r.h1m v } v
  else if (!r.h1m.flags.hdrsOnly && !r.h1m.flags.resp) && isteqi n.str (bytes "host") then r.host v
  else .index r v

namespace H1Call

variable (call : H1Call)

/-- How many bytes a loop that skips words skips, if there is one. -/
def words (loop : CStr → ℕ) (s : CStr) : ℕ := if call.fast then loop s else 0

/-- A label with a loop that skips words: the byte may be one of those that it skips. -/
def enter (state : H1mState) (loop : CStr → ℕ) (r : H1Regs) (c : UInt8) (s : CStr)
    (next : H1Move) : H1Move :=
  match call.words loop (c :: s) with
  | 0 => next
  | n + 1 => .jump state n r

/-- A length is dropped, with its header. -/
def dropLength (r : H1Regs) : H1Regs :=
  if r.h1m.flags.clen then
    { r with
      h1m := { r.h1m with flags := { r.h1m.flags with clen := false } }
      hdrs := httpDelHdr (bytes "content-length") r.hdrs }
  else r

/-- The end of `H1_MSG_LAST_LF`: the framing of the message. -/
def finish (r : H1Regs) : H1Step :=
  if r.h1m.flags.xferEnc then
    let r := dropLength r
    if r.h1m.flags.chnk then .done .chunkSize r
    else if r.h1m.flags.resp then .done .data r
    else .invalid .data (r.ptr + 1) r
  else .done .data r

/-- `http_msg_last_lf`. -/
def lastLf (r : H1Regs) (c : UInt8) : H1Step :=
  expectLf .lastLf r c <|
    if call.skipUpdate then if call.restarting then .restart r else finish r
    else if r.hdrs.length ≥ call.hdrNum then .full .lastLf (r.ptr + 1) r
    else
      let r := r.setHdr ⟨r.sol, []⟩ ⟨0, []⟩
      if call.restarting then .restart r else finish r

/-- `http_msg_hdr_name`. -/
def hdrName (r : H1Regs) (c : UInt8) : H1Step :=
  if httpIsToken c then
    .eat .hdrName (if !call.skipUpdate && r.h1m.flags.tolower then istLc c else c) r
  else if c = 58 then .eat .hdrL1Sp c { r with col := r.ptr }
  else if r.h1m.errPos < -1 ∨ c = 10 then .invalid .hdrName r.ptr r
  else .eat .hdrName c (r.capture r.ptr)

/-- The start of a line: a header field, or the empty line. -/
def line (r : H1Regs) (c : UInt8) : H1Step :=
  let r := { r with sol := r.ptr }
  if !httpIsCrlf c then call.hdrName r c else crOrLf .lastLf r c (call.lastLf · c)

/-- The blanks around the value are trimmed. -/
def trim (r : H1Regs) : Ist :=
  let v := (r.slice r.sov r.eol).str
  let blanks := (v.takeWhile httpIsLws).length
  ⟨r.sov + blanks, ((v.drop blanks).reverse.dropWhile httpIsLws).reverse⟩

/-- `http_msg_complete_header`. -/
def completeHeader (r : H1Regs) (c : UInt8) : H1Step :=
  if call.skipUpdate then call.line r c
  else
    let n := r.slice r.sol r.col
    let v := trim r
    let r := { r with fields := r.fields ++ [⟨n, v⟩] }
    if r.hdrs.length ≥ call.hdrNum then .full .hdrL2Lws r.ptr r
    else
      match r.field n v with
      | .refuse r v => .invalid .hdrL2Lws v.ptr r
      | .skip r => call.line r c
      | .index r v => call.line (r.setHdr n v) c

/-- `http_msg_hdr_l2_lf`. -/
def hdrL2Lf (r : H1Regs) (c : UInt8) : H1Step := expectLf .hdrL2Lf r c (.eat .hdrL2Lws c r)

/-- `http_msg_hdr_val2`. -/
def hdrVal2 (r : H1Regs) (c : UInt8) : H1Step :=
  if !httpIsCrlf c then .eat .hdrVal c r
  else crOrLf .hdrL2Lf { r with eol := r.ptr } c (hdrL2Lf · c)

/-- `http_msg_hdr_val`. -/
def hdrVal (r : H1Regs) (c : UInt8) (s : CStr) : H1Move :=
  call.enter .hdrVal hdrValFast r c s (.step (hdrVal2 r c))

/-- `http_msg_hdr_l2_lws`. -/
def hdrL2Lws (r : H1Regs) (c : UInt8) (s : CStr) : H1Move :=
  if httpIsSpht c then
    let r := if call.skipUpdate then r else { r with past := r.spaces r.eol, eol := r.ptr }
    call.hdrVal r c s
  else .step (call.completeHeader r c)

/-- `http_msg_hdr_l1_lf`. -/
def hdrL1Lf (r : H1Regs) (c : UInt8) : H1Step := expectLf .hdrL1Lf r c (.eat .hdrL1Lws c r)

/-- `http_msg_hdr_l1_sp`. -/
def hdrL1Sp (r : H1Regs) (c : UInt8) (s : CStr) : H1Move :=
  if httpIsSpht c then .step (.eat .hdrL1Sp c r)
  else
    let r := { r with sov := r.ptr }
    if !httpIsCrlf c then call.hdrVal r c s
    else .step (crOrLf .hdrL1Lf r c (hdrL1Lf · c))

/-- `http_msg_hdr_l1_lws`. -/
def hdrL1Lws (r : H1Regs) (c : UInt8) (s : CStr) : H1Move :=
  if httpIsSpht c then
    let r := if call.skipUpdate then r else { r with past := r.spaces r.sov, sov := r.ptr }
    call.hdrL1Sp r c s
  else .step (call.completeHeader { r with eol := r.sov } c)

/-! ### Start lines -/

/-- A pseudo-header is indexed, if they are wanted and the list is not full. -/
def pseudo (r : H1Regs) (state : H1mState) (name : String) (v : Ist) (next : H1Regs → H1Step) :
    H1Step :=
  if r.hdrs.length ≥ call.hdrNum then .full state r.ptr r
  else next (if r.h1m.flags.noPhdr then r else r.setHdr ⟨0, bytes name⟩ v)

def setVer11 (r : H1Regs) (v : CStr) : H1Regs :=
  if v.length = 8 ∧ (v.getD 5 0 > 49 ∨ v.getD 5 0 = 49 ∧ v.getD 7 0 ≥ 49) then
    { r with h1m := { r.h1m with flags := { r.h1m.flags with ver11 := true } } }
  else r

/-- `http_msg_rqline_end`. -/
def rqlineEnd (r : H1Regs) (c : UInt8) : H1Step :=
  if call.restarting then .restart r
  else if r.sl.rq.v.str.length = 0 then call.lastLf r c
  else expectLf .rqlineEnd r c (.eat .hdrFirst c r)

/-- `http_msg_rqline_eol`. -/
def rqlineEol (r : H1Regs) (c : UInt8) : H1Step :=
  let eol (r : H1Regs) : H1Step :=
    crOrLf .rqlineEnd { r with sol := r.ptr } c (call.rqlineEnd · c)
  if call.skipUpdate then eol r
  else
    call.pseudo (setVer11 r r.sl.rq.v.str) .rqver ":method" r.sl.rq.m fun r =>
      call.pseudo r .rqver ":path" r.sl.rq.u eol

/-- `http_msg_rqver`. -/
def rqver (r : H1Regs) (c : UInt8) : H1Step :=
  if httpIsVerToken c then .eat .rqver c r
  else if httpIsCrlf c then
    let v := r.slice r.sl.rq.v.ptr r.ptr
    call.rqlineEol { r with sl := { r.sl with rq := { r.sl.rq with v } } } c
  else .invalid .rqver r.ptr r

/-- `http_msg_req09_ver`. -/
def req09Ver (r : H1Regs) (c : UInt8) : H1Step :=
  call.rqlineEol { r with sl := { r.sl with rq := { r.sl.rq with v := ⟨r.ptr, []⟩ } } } c

/-- `http_msg_rquri_sp`. -/
def rquriSp (r : H1Regs) (c : UInt8) : H1Step :=
  if !httpIsLws c then
    call.rqver { r with sl := { r.sl with rq := { r.sl.rq with v := ⟨r.ptr, []⟩ } } } c
  else if httpIsSpht c then .eat .rquriSp c r
  else call.req09Ver r c

def uriByte (c : UInt8) : Bool := c - 33 ≤ 93

def setUri (r : H1Regs) : H1Regs :=
  { r with sl := { r.sl with rq := { r.sl.rq with u := r.slice r.sl.rq.u.ptr r.ptr } } }

/-- `http_msg_rquri2`. -/
def rquri2 (r : H1Regs) (c : UInt8) (s : CStr) : H1Move :=
  if uriByte c then .step (.eat .rquri c r)
  else if httpIsSpht c then .step (.eat .rquriSp c (setUri r))
  else if c ≥ 128 then
    if r.h1m.errPos < -1 then .step (.invalid .rquri r.ptr r)
    else .jump .rquri (call.words uriFast s) (r.capture r.ptr)
  else if httpIsCrlf c then .step (call.req09Ver (setUri r) c)
  else .step (.invalid .rquri r.ptr r)

/-- `http_msg_rquri`. -/
def rquri (r : H1Regs) (c : UInt8) (s : CStr) : H1Move :=
  call.enter .rquri uriFast r c s (call.rquri2 r c s)

/-- `http_msg_req09_uri`. -/
def req09Uri (r : H1Regs) (c : UInt8) : H1Step :=
  call.req09Ver { r with sl := { r.sl with rq := { r.sl.rq with u := ⟨r.ptr, []⟩ } } } c

/-- `http_msg_rqmeth_sp`. -/
def rqmethSp (r : H1Regs) (c : UInt8) (s : CStr) : H1Move :=
  if !httpIsLws c then
    let r := { r with sl := { r.sl with rq := { r.sl.rq with u := ⟨r.ptr, []⟩ } } }
    call.rquri r c s
  else if httpIsSpht c then .step (.eat .rqmethSp c r)
  else .step (call.req09Uri r c)

/-- The method, up to `ptr`. -/
def setMeth (r : H1Regs) : H1Regs :=
  let m := r.slice r.sl.rq.m.ptr r.ptr
  { r with sl := { r.sl with rq := { r.sl.rq with m, meth := findHttpMeth m.str } } }

/-- `http_msg_rqmeth`. -/
def rqmeth (r : H1Regs) (c : UInt8) : H1Step :=
  if httpIsToken c then .eat .rqmeth c r
  else if httpIsSpht c then .eat .rqmethSp c (setMeth r)
  else if httpIsCrlf c then call.req09Uri (setMeth r) c
  else .invalid .rqmeth r.ptr r

def begin (r : H1Regs) : H1Regs := { r with start := r.ptr, sol := r.ptr, hdrs := [] }

/-- `http_msg_rqbefore`. -/
def rqbefore (r : H1Regs) (c : UInt8) : H1Step :=
  if httpIsToken c then
    let r := begin r
    call.rqmeth { r with sl := { r.sl with rq := { r.sl.rq with m := ⟨r.ptr, []⟩ } } } c
  else if !httpIsCrlf c then .invalid .rqbefore r.ptr r
  else if c = 10 then .eat .rqbefore c r
  else .eat .rqbeforeCr c r

/-- `http_msg_rpline_end`. -/
def rplineEnd (r : H1Regs) (c : UInt8) : H1Step := expectLf .rplineEnd r c (.eat .hdrFirst c r)

/-- `http_msg_rpline_eol`. -/
def rplineEol (r : H1Regs) (c : UInt8) : H1Step :=
  let eol (r : H1Regs) : H1Step := crOrLf .rplineEnd { r with sol := r.ptr } c (rplineEnd · c)
  if call.skipUpdate then eol r else call.pseudo r .rpreason ":status" r.sl.st.c eol

/-- `http_msg_rpreason`. -/
def rpreason (r : H1Regs) (c : UInt8) : H1Step :=
  if !httpIsCrlf c then .eat .rpreason c r
  else
    let v := r.slice r.sl.st.r.ptr r.ptr
    call.rplineEol { r with sl := { r.sl with st := { r.sl.st with r := v } } } c

/-- `http_msg_rsp_reason`. -/
def rspReason (r : H1Regs) (c : UInt8) : H1Step :=
  call.rplineEol { r with sl := { r.sl with st := { r.sl.st with r := ⟨r.ptr, []⟩ } } } c

/-- `http_msg_rpcode_sp`. -/
def rpcodeSp (r : H1Regs) (c : UInt8) : H1Step :=
  if !httpIsLws c then
    call.rpreason { r with sl := { r.sl with st := { r.sl.st with r := ⟨r.ptr, []⟩ } } } c
  else if httpIsSpht c then .eat .rpcodeSp c r
  else call.rspReason r c

def setCode (r : H1Regs) : H1Regs :=
  { r with sl := { r.sl with st := { r.sl.st with c := r.slice r.sl.st.c.ptr r.ptr } } }

/-- `http_msg_rpcode`. -/
def rpcode (r : H1Regs) (c : UInt8) : H1Step :=
  if isDigit c then
    let status := UInt16.ofNat (r.sl.st.status.toNat * 10 + c.toNat - 48)
    .eat .rpcode c { r with sl := { r.sl with st := { r.sl.st with status } } }
  else if !httpIsLws c then .invalid .rpcode r.ptr r
  else if httpIsSpht c then .eat .rpcodeSp c (setCode r)
  else call.rspReason (setCode r) c

/-- `http_msg_rpver_sp`. -/
def rpverSp (r : H1Regs) (c : UInt8) : H1Step :=
  if !httpIsLws c then
    let st := { r.sl.st with status := 0, c := ⟨r.ptr, []⟩ }
    call.rpcode { r with sl := { r.sl with st } } c
  else if httpIsSpht c then .eat .rpverSp c r
  else .invalid .rpverSp r.ptr r

/-- `http_msg_rpver`. -/
def rpver (r : H1Regs) (c : UInt8) : H1Step :=
  if httpIsVerToken c then .eat .rpver c r
  else if httpIsSpht c then
    let v := r.slice r.sl.st.v.ptr r.ptr
    .eat .rpverSp c (setVer11 { r with sl := { r.sl with st := { r.sl.st with v } } } v.str)
  else .invalid .rpver r.ptr r

/-- `http_msg_rpbefore`. -/
def rpbefore (r : H1Regs) (c : UInt8) : H1Step :=
  if httpIsToken c then
    let r := begin r
    rpver { r with sl := { r.sl with st := { r.sl.st with v := ⟨r.ptr, []⟩ } } } c
  else if !httpIsCrlf c then .invalid .rpbefore r.ptr r
  else if c = 10 then .eat .rpbefore c r
  else .eat .rpbeforeCr c r

/-! ### Messages -/

/-- One byte of the message, `s` being the bytes after it.  The loops of the states RQURI and
HDR_VAL are left. -/
def byte (state : H1mState) (r : H1Regs) (c : UInt8) (s : CStr) : H1Move :=
  match state with
  | .rqbefore => .step (call.rqbefore r c)
  | .rqbeforeCr => .step (expectLf .rqbeforeCr r c (.eat .rqbefore c r))
  | .rqmeth => .step (call.rqmeth r c)
  | .rqmethSp => call.rqmethSp r c s
  | .rquri => call.rquri2 r c s
  | .rquriSp => .step (call.rquriSp r c)
  | .rqver => .step (call.rqver r c)
  | .rqlineEnd => .step (call.rqlineEnd r c)
  | .rpbefore => .step (rpbefore r c)
  | .rpbeforeCr => .step (expectLf .rpbeforeCr r c (.eat .rpbefore c r))
  | .rpver => .step (rpver r c)
  | .rpverSp => .step (call.rpverSp r c)
  | .rpcode => .step (call.rpcode r c)
  | .rpcodeSp => .step (call.rpcodeSp r c)
  | .rpreason => .step (call.rpreason r c)
  | .rplineEnd => .step (rplineEnd r c)
  | .hdrFirst => .step (call.line r c)
  | .hdrName => .step (call.hdrName r c)
  | .hdrL1Sp => call.hdrL1Sp r c s
  | .hdrL1Lf => .step (hdrL1Lf r c)
  | .hdrL1Lws => call.hdrL1Lws r c s
  | .hdrVal => .step (hdrVal2 r c)
  | .hdrL2Lf => .step (hdrL2Lf r c)
  | .hdrL2Lws => call.hdrL2Lws r c s
  | .lastLf => .step (call.lastLf r c)
  | state => .step (.invalid state r.ptr r)

end H1Call

inductive H1End
  /-- `http_msg_ood` -/
  | ood (state : H1mState) (r : H1Regs)
  | invalid (state : H1mState) (ptr : ℕ) (r : H1Regs)
  | full (state : H1mState) (ptr : ℕ) (r : H1Regs)
  | restart (r : H1Regs)
  | done (state : H1mState) (r : H1Regs)

/-- Whether the message has to be parsed again. -/
def H1End.isRestart : H1End → Bool
  | .restart _ => true
  | _ => false

/-- The byte at `ptr` is eaten, as `c`. -/
def H1Regs.eat (r : H1Regs) (c : UInt8) : H1Regs := { r with past := r.past ++ [c] }

/-- The bytes from `ptr` on, of which `n` are skipped. -/
def H1Call.run (call : H1Call) (n : ℕ) (state : H1mState) (r : H1Regs) : CStr → H1End
  | [] => .ood state r
  | c :: s =>
    if n ≠ 0 then call.run (n - 1) state (r.eat c) s
    else
      match call.byte state r c s with
      | .jump state n r => call.run n state (r.eat c) s
      | .step (.eat state c r) => call.run 0 state (r.eat c) s
      | .step (.invalid state ptr r) => .invalid state ptr r
      | .step (.full state ptr r) => .full state ptr r
      | .step (.restart r) => .restart r
      | .step (.done state r) => .done state r

/-! ### Calls -/

/-- The parsing of the message goes on where it stopped: only its end is looked for. -/
def H1m.restarting (h1m : H1m) : Bool :=
  !h1m.flags.hdrsOnly && !(h1m.state == .rqbefore || h1m.state == .rpbefore)

def H1m.skipUpdate (h1m : H1m) (hdr : Bool) : Bool := !hdr || h1m.restarting

/-- The variables at the start of a pass. -/
def h1Regs (msg : CStr) (start : ℕ) (h1m : H1m) : H1Regs where
  h1m := h1m
  start := start
  past := msg.take (start + h1m.next)
  sol := start
  col := start
  eol := start
  sov := start
  sl := ⟨⟨⟨0, []⟩, ⟨0, []⟩, ⟨0, []⟩, .other⟩, ⟨⟨0, []⟩, ⟨0, []⟩, ⟨0, []⟩, 0⟩⟩
  hdrs := []
  hostIdx := none
  fields := []

def H1m.passState (h1m : H1m) : H1mState := if h1m.flags.hdrsOnly then .hdrFirst else h1m.state

def H1m.passH1m (h1m : H1m) : H1m := if h1m.flags.hdrsOnly then { h1m with next := 0 } else h1m

def H1m.passBytes (h1m : H1m) (msg : CStr) (start : ℕ) : CStr :=
  msg.drop (start + h1m.passH1m.next)

/-- The call of a pass.  `hdr` says whether there is a list. -/
def H1m.passCall (h1m : H1m) (fast hdr : Bool) (hdrNum : ℕ) : H1Call :=
  ⟨hdrNum, fast, h1m.skipUpdate hdr, h1m.restarting⟩

/-- How many bytes are skipped where a pass starts in a state with a loop that skips words. -/
def H1Call.first (call : H1Call) (state : H1mState) (s : CStr) : ℕ :=
  match state with
  | .rquri => call.words uriFast s
  | .hdrVal => call.words hdrValFast s
  | _ => 0

/-- A pass over the message, from `try_again` on. -/
def h1Pass (fast hdr : Bool) (msg : CStr) (hdrNum start : ℕ) (h1m : H1m) : H1End :=
  let call := h1m.passCall fast hdr hdrNum
  let s := h1m.passBytes msg start
  call.run (call.first h1m.passState s) h1m.passState (h1Regs msg start h1m.passH1m) s

/-- What a call returns and leaves behind. -/
structure H1Result where
  ret : ℤ
  h1m : H1m
  hdrs : List HttpHdr
  /-- the start line, if it is written -/
  sl : Option H1Sl
  fields : List HttpHdr
  deriving DecidableEq, Repr

/-- The end of a call.  The second pass does not end with a restart. -/
def h1Result (skipUpdate : Bool) : H1End → H1Result
  | .ood state r => result r 0 { r.h1m with state, next := r.ptr }
  | .invalid state ptr r => result r (-1) (failed r state ptr)
  | .full state ptr r => result r (-2) (failed r state ptr)
  | .restart r => result r (-1) r.h1m
  | .done state r => result r (r.ptr + 1 : ℕ) { r.h1m with state, next := r.ptr + 1 }
where
  result (r : H1Regs) (ret : ℤ) (h1m : H1m) : H1Result :=
    ⟨ret, h1m, r.hdrs, if skipUpdate then none else some r.sl, r.fields⟩
  failed (r : H1Regs) (state : H1mState) (ptr : ℕ) : H1m :=
    { r.h1m with errState := state, state, errPos := ptr, next := ptr }

/-- `restart`: the message before the second pass. -/
def H1m.restart (h1m : H1m) : H1m :=
  { h1m with
    flags := { h1m.flags with ver11 := false, clen := false, xferEnc := false, chnk := false,
                              connKal := false, connClo := false, connUpg := false }
    currLen := 0
    bodyLen := 0
    next := 0
    state := if h1m.flags.resp then .rpbefore else .rqbefore }

def h1HeadersToHdrList (fast hdr : Bool) (msg : CStr) (hdrNum : ℕ) (h1m : H1m) : H1Result :=
  match h1Pass fast hdr msg hdrNum 0 h1m with
  | .restart r =>
    let h1m := r.h1m.restart
    h1Result (h1m.skipUpdate hdr) (h1Pass fast hdr msg hdrNum r.start h1m)
  | e => h1Result (h1m.skipUpdate hdr) e

end SmartHAProxy
