/-
HTX messages that are being built (htx.c, haproxy/htx.h).

A message is a list of blocks.  The type of a block and the lengths of its
parts share one word of 32 bits: 4 bits for the type and, for a header, 20 bits
for its value and 8 for its name.  Blocks are only appended here, and nothing is
ever removed, so that a payload always fits behind the previous one as long as
there is enough free space: the addresses are left out.

`Htx.headers` reads the header section back.  `Htx.Holds` says that a message
is made of one start line and the given headers.
-/
import Mathlib.Algebra.Ring.Nat
import SmartHAProxy.Http.Basic

namespace SmartHAProxy

/-! ### Blocks -/

/-- `HTX_SL_F_*`, for requests. -/
structure HtxSlFlags where
  hasSchm : Bool := false
  schmHttp : Bool := false
  schmHttps : Bool := false
  hasAuthority : Bool := false
  normalizedUri : Bool := false
  ver11 : Bool := false
  xferLen : Bool := false
  clen : Bool := false
  bodyless : Bool := false
  connUpg : Bool := false
  deriving DecidableEq, Repr

/-- `struct htx_sl`, for a request: `p1` to `p3` are method, URI and version. -/
structure HtxSl where
  flags : HtxSlFlags
  meth : HttpMeth
  p1 : CStr
  p2 : CStr
  p3 : CStr
  deriving DecidableEq, Repr

/-- `sizeof (struct htx_sl)` and the three parts. -/
def HtxSl.size (sl : HtxSl) : ℕ := 20 + sl.p1.length + sl.p2.length + sl.p3.length

inductive HtxPayload
  | sl (sl : HtxSl)
  | bytes (b : CStr)
  deriving DecidableEq, Repr

/-- `struct htx_blk` with its payload. -/
structure HtxBlk where
  info : ℕ
  payload : HtxPayload
  deriving DecidableEq, Repr

/-- `enum htx_blk_type`. -/
def htxBlkReqSl : ℕ := 0
def htxBlkResSl : ℕ := 1
def htxBlkHdr : ℕ := 2
def htxBlkEoh : ℕ := 3
def htxBlkTlr : ℕ := 5

def htxGetBlkType (b : HtxBlk) : ℕ := b.info / 2 ^ 28

def HtxBlk.bytes (b : HtxBlk) : CStr :=
  match b.payload with
  | .bytes p => p
  | .sl _ => []

def HtxBlk.named (b : HtxBlk) : Bool :=
  htxGetBlkType b == htxBlkHdr || htxGetBlkType b == htxBlkTlr

def htxGetBlksz (b : HtxBlk) : ℕ :=
  if b.named then b.info % 2 ^ 8 + b.info / 2 ^ 8 % 2 ^ 20 else b.info % 2 ^ 28

def htxGetBlkName (b : HtxBlk) : CStr :=
  if b.named then b.bytes.take (b.info % 2 ^ 8) else []

/-- `htx_get_blk_value` of a header. -/
def htxGetBlkValue (b : HtxBlk) : CStr :=
  if b.named then (b.bytes.drop (b.info % 2 ^ 8)).take (b.info / 2 ^ 8 % 2 ^ 20) else []

/-- The word after the length of the value became `len`: the sum has no bits to
spare, and a length from 2^20 on runs into the type. -/
def HtxBlk.infoWithLen (b : HtxBlk) (len : ℕ) : ℕ :=
  if b.named then (htxGetBlkType b * 2 ^ 28 + len * 2 ^ 8 + b.info % 2 ^ 8) % 2 ^ 32
  else (htxGetBlkType b * 2 ^ 28 + len) % 2 ^ 32

/-! ### Messages -/

/-- `struct htx`, without addresses.  `data` counts the bytes of the payloads. -/
structure Htx where
  size : ℕ
  data : ℕ
  blks : List HtxBlk
  parsingError : Bool
  eom : Bool
  deriving DecidableEq, Repr

def htxReset (size : ℕ) : Htx := ⟨size, 0, [], false, false⟩

/-- `htx_free_space`: a block takes 8 bytes besides its payload. -/
def htxFreeSpace (htx : Htx) : ℕ := htx.size - (htx.data + htx.blks.length * 8)

def htxFreeDataSpace (htx : Htx) : ℕ := htxFreeSpace htx - 8

/-- `htx_add_blk`, with what the caller writes to the block.  `none` is a NULL
pointer, or the end of the process by `BUG_ON`. -/
def htxAddBlk (htx : Htx) (blksz : ℕ) (blk : HtxBlk) : Option Htx :=
  if 2 ^ 28 ≤ blksz then none
  else if htxFreeDataSpace htx < blksz then none
  else some { htx with data := htx.data + blksz, blks := htx.blks ++ [blk] }

def slBlk (sl : HtxSl) : HtxBlk := ⟨htxBlkReqSl * 2 ^ 28 + sl.size, .sl sl⟩

def hdrBlk (h : CStr × CStr) : HtxBlk :=
  ⟨htxBlkHdr * 2 ^ 28 + h.2.length * 2 ^ 8 + h.1.length, .bytes (h.1 ++ h.2)⟩

def eohBlk : HtxBlk := ⟨htxBlkEoh * 2 ^ 28 + 1, .bytes [0]⟩

/-- `htx_add_stline`, for a request. -/
def htxAddStline (htx : Htx) (sl : HtxSl) : Option Htx := htxAddBlk htx sl.size (slBlk sl)

/-- `htx_add_header`.  The name is lower cased. -/
def htxAddHeader (htx : Htx) (name value : CStr) : Option Htx :=
  if 255 < name.length ∨ 1048575 < value.length then none
  else htxAddBlk htx (name.length + value.length) (hdrBlk (name.map istLc, value))

/-- `htx_add_endof`, for the end of the headers. -/
def htxAddEndof (htx : Htx) : Option Htx := htxAddBlk htx 1 eohBlk

/-- `htx_change_blk_value_len` on the last block, whose payload is then
extended by `more`. -/
def htxExtendTail (htx : Htx) (newlen : ℕ) (more : CStr) : Htx :=
  match htx.blks.getLast? with
  | none => htx
  | some b =>
    let oldlen := if b.named then b.info / 2 ^ 8 % 2 ^ 20 else b.info % 2 ^ 28
    { htx with
      data := htx.data + newlen - oldlen
      blks := htx.blks.dropLast ++ [⟨b.infoWithLen newlen, .bytes (b.bytes ++ more)⟩] }

/-- `htx_prepare_blk_expansion`: there is no room for `delta` more bytes. -/
def htxNoExpansion (htx : Htx) (new old : ℕ) : Bool := htxFreeSpace htx < new - old

/-- `htx_replace_blk_value`: `len` bytes at `start` of the value of block `i`. -/
def htxReplaceBlkValue (htx : Htx) (i start len : ℕ) (new : CStr) : Option Htx :=
  match htx.blks[i]? with
  | none => none
  | some b =>
    if htxNoExpansion htx new.length len then none
    else
      let n := htxGetBlkName b
      let v := htxGetBlkValue b
      some { htx with
        data := htx.data + new.length - len
        blks := htx.blks.set i ⟨b.infoWithLen (v.length + new.length - len),
          .bytes (n ++ v.take start ++ new ++ v.drop (start + len))⟩ }

/-- `http_get_stline`: the first block, if it is a start line. -/
def httpGetStline (htx : Htx) : Option HtxSl :=
  match htx.blks with
  | ⟨_, .sl sl⟩ :: _ => some sl
  | _ => none

/-- `http_replace_stline`: the parts of the first block, if it is a start line. -/
def httpReplaceStline (htx : Htx) (p1 p2 p3 : CStr) : Option Htx :=
  match htx.blks with
  | ⟨_, .sl sl⟩ :: blks =>
    let sl' : HtxSl := { sl with p1 := p1, p2 := p2, p3 := p3 }
    if htxNoExpansion htx sl'.size sl.size then none
    else some { htx with
      data := htx.data + sl'.size - sl.size
      blks := slBlk sl' :: blks }
  | _ => none

/-! ### The header section -/

def HtxBlk.isStline (b : HtxBlk) : Bool :=
  htxGetBlkType b == htxBlkReqSl || htxGetBlkType b == htxBlkResSl

/-- The blocks before the end of the headers. -/
def Htx.headerSection (htx : Htx) : List HtxBlk :=
  htx.blks.takeWhile fun b => htxGetBlkType b != htxBlkEoh

/-- The start lines of the header section. -/
def Htx.stlines (htx : Htx) : List HtxBlk := htx.headerSection.filter HtxBlk.isStline

/-- The headers of the section, in order. -/
def Htx.headers (htx : Htx) : List (CStr × CStr) :=
  (htx.headerSection.filter fun b => htxGetBlkType b == htxBlkHdr).map fun b =>
    (htxGetBlkName b, htxGetBlkValue b)

/-- The lengths of a header fit the word of its block. -/
def HdrFits (h : CStr × CStr) : Prop := h.1.length ≤ 255 ∧ h.2.length ≤ 1048575

def hdrsSize (hdrs : List (CStr × CStr)) : ℕ := (hdrs.map fun h => h.1.length + h.2.length).sum

/-- One start line, then the headers and the blocks `tl`; the counters agree with
them.  The configuration refuses buffers of 256 MB or more. -/
structure Htx.Holds (htx : Htx) (sl : HtxSl) (hdrs : List (CStr × CStr)) (tl : List HtxBlk) :
    Prop where
  blks : htx.blks = slBlk sl :: (hdrs.map hdrBlk ++ tl)
  size : htx.size < 2 ^ 28
  fits : ∀ h ∈ hdrs, HdrFits h
  data : sl.size + hdrsSize hdrs ≤ htx.data
  room : htx.data + htx.blks.length * 8 ≤ htx.size

section Section

variable {h : CStr × CStr}

theorem hdrBlk_type (hf : HdrFits h) : htxGetBlkType (hdrBlk h) = htxBlkHdr := by
  obtain ⟨h1, h2⟩ := hf
  simp only [htxGetBlkType, hdrBlk, htxBlkHdr]
  omega

theorem hdrBlk_named (hf : HdrFits h) : (hdrBlk h).named = true := by
  simp [HtxBlk.named, hdrBlk_type hf]

theorem hdrBlk_nameLen (hf : HdrFits h) : (hdrBlk h).info % 2 ^ 8 = h.1.length := by
  obtain ⟨h1, h2⟩ := hf
  simp only [hdrBlk, htxBlkHdr]
  omega

theorem hdrBlk_valueLen (hf : HdrFits h) :
    (hdrBlk h).info / 2 ^ 8 % 2 ^ 20 = h.2.length := by
  obtain ⟨h1, h2⟩ := hf
  simp only [hdrBlk, htxBlkHdr]
  omega

theorem hdrBlk_name (hf : HdrFits h) : htxGetBlkName (hdrBlk h) = h.1 := by
  simp only [htxGetBlkName, hdrBlk_named hf, hdrBlk_nameLen hf, if_true]
  simp [HtxBlk.bytes, hdrBlk]

theorem hdrBlk_value (hf : HdrFits h) : htxGetBlkValue (hdrBlk h) = h.2 := by
  simp only [htxGetBlkValue, hdrBlk_named hf, hdrBlk_nameLen hf, hdrBlk_valueLen hf, if_true]
  simp [HtxBlk.bytes, hdrBlk]

theorem slBlk_type {sl : HtxSl} (hs : sl.size < 2 ^ 28) :
    htxGetBlkType (slBlk sl) = htxBlkReqSl := by
  simp only [htxGetBlkType, slBlk, htxBlkReqSl]
  omega

theorem hdrBlk_infoWithLen (hf : HdrFits h) {v : CStr} (hv : v.length ≤ 1048575) :
    (hdrBlk h).infoWithLen v.length = (hdrBlk (h.1, v)).info := by
  simp only [HtxBlk.infoWithLen, hdrBlk_named hf, hdrBlk_type hf, hdrBlk_nameLen hf, if_true]
  obtain ⟨h1, h2⟩ := hf
  simp only [hdrBlk, htxBlkHdr]
  omega

end Section

theorem htxAddBlk_eq_some {htx htx' : Htx} {blksz : ℕ} {blk : HtxBlk}
    (h : htxAddBlk htx blksz blk = some htx') :
    htx' = { htx with data := htx.data + blksz, blks := htx.blks ++ [blk] } ∧ blksz < 2 ^ 28 ∧
      blksz ≤ htxFreeDataSpace htx := by
  simp only [htxAddBlk] at h
  split_ifs at h with h1 h2
  cases h
  exact ⟨rfl, Nat.not_le.mp h1, Nat.not_lt.mp h2⟩

theorem hdrsSize_append (l m : List (CStr × CStr)) :
    hdrsSize (l ++ m) = hdrsSize l + hdrsSize m := by
  simp [hdrsSize]

namespace Htx.Holds

variable {htx htx' : Htx} {sl : HtxSl} {hdrs : List (CStr × CStr)} {tl : List HtxBlk}

theorem slSize (hh : htx.Holds sl hdrs tl) : sl.size < 2 ^ 28 := by
  have h1 := hh.data
  have h2 := hh.room
  have h3 := hh.size
  omega

theorem addStline (hn : htx.blks = []) (hd : htx.data = 0) (hz : htx.size < 2 ^ 28)
    (ha : htxAddStline htx sl = some htx') : htx'.Holds sl [] [] := by
  obtain ⟨rfl, -, hroom⟩ := htxAddBlk_eq_some ha
  have hpos : 20 ≤ sl.size := by
    simp only [HtxSl.size]
    omega
  simp only [htxFreeDataSpace, htxFreeSpace, hn, hd, List.length_nil] at hroom
  refine ⟨by simp [hn], hz, by simp, ?_, ?_⟩
  · simp [hdrsSize]
  · simp only [hn, hd, List.nil_append, List.length_singleton]
    omega

theorem addHeader {n v : CStr} (hh : htx.Holds sl hdrs []) (hn : n ≠ [])
    (ha : htxAddHeader htx n v = some htx') :
    htx'.Holds sl (hdrs ++ [(n.map istLc, v)]) [] := by
  simp only [htxAddHeader] at ha
  split_ifs at ha with hl
  rw [not_or, Nat.not_lt, Nat.not_lt] at hl
  have hf : HdrFits (n.map istLc, v) := ⟨by simpa using hl.1, hl.2⟩
  obtain ⟨rfl, -, hroom⟩ := htxAddBlk_eq_some ha
  have hpos : 0 < n.length := List.length_pos_iff.mpr hn
  refine ⟨?_, hh.size, ?_, ?_, ?_⟩
  · simp [hh.blks]
  · intro h hm
    rcases List.mem_append.mp hm with hm | hm
    · exact hh.fits h hm
    · rw [List.mem_singleton.mp hm]
      exact hf
  · have := hh.data
    rw [hdrsSize_append]
    simp only [hdrsSize, List.map_cons, List.map_nil, List.sum_cons, List.sum_nil,
      List.length_map] at this ⊢
    omega
  · have := hh.room
    simp only [htxFreeDataSpace, htxFreeSpace] at hroom
    simp only [List.length_append, List.length_singleton]
    omega

theorem addEndof (hh : htx.Holds sl hdrs []) (ha : htxAddEndof htx = some htx') :
    htx'.Holds sl hdrs [eohBlk] := by
  obtain ⟨rfl, -, hroom⟩ := htxAddBlk_eq_some ha
  have h1 := hh.data
  have h2 := hh.room
  simp only [htxFreeDataSpace, htxFreeSpace] at hroom
  refine ⟨by simp [hh.blks], hh.size, hh.fits, ?_, ?_⟩
  · show _ ≤ htx.data + 1
    omega
  · simp only [List.length_append, List.length_singleton]
    omega

theorem blks_get {h : CStr × CStr} {pre post : List (CStr × CStr)}
    (hh : htx.Holds sl (pre ++ h :: post) tl) : htx.blks[pre.length + 1]? = some (hdrBlk h) := by
  rw [hh.blks, List.getElem?_cons_succ, List.getElem?_append_left (by simp)]
  simp

theorem blks_drop {h : CStr × CStr} {pre post : List (CStr × CStr)}
    (hh : htx.Holds sl (pre ++ h :: post) tl) :
    htx.blks.drop (pre.length + 1 + 1) = post.map hdrBlk ++ tl := by
  rw [hh.blks, List.drop_succ_cons, List.map_append, List.map_cons, List.append_assoc,
    List.cons_append, List.drop_append]
  simp

theorem replaceBlkValue {n v w : CStr} {pre post : List (CStr × CStr)}
    (hh : htx.Holds sl (pre ++ (n, v) :: post) tl) (hw : w.length ≤ v.length) :
    ∃ htx', htxReplaceBlkValue htx (pre.length + 1) 0 v.length w = some htx' ∧
      htx'.Holds sl (pre ++ (n, w) :: post) tl := by
  have hf : HdrFits (n, v) := hh.fits _ (by simp)
  have hfw : HdrFits (n, w) := ⟨hf.1, Nat.le_trans hw hf.2⟩
  have hno : htxNoExpansion htx w.length v.length = false := by
    simp [htxNoExpansion, Nat.sub_eq_zero_of_le hw]
  have hlen : v.length + w.length - v.length = w.length := by omega
  simp only [htxReplaceBlkValue, hh.blks_get, hno, Bool.false_eq_true, if_false,
    hdrBlk_name hf, hdrBlk_value hf, hlen, hdrBlk_infoWithLen hf hfw.2]
  refine ⟨_, rfl, ?_, hh.size, ?_, ?_, ?_⟩
  · simp [hh.blks, hdrBlk]
  · intro h hm
    rcases List.mem_append.mp hm with hm | hm
    · exact hh.fits h (List.mem_append_left _ hm)
    · rcases List.mem_cons.mp hm with rfl | hm
      · exact hfw
      · exact hh.fits h (by simp [hm])
  · have := hh.data
    simp only [hdrsSize, List.map_append, List.map_cons, List.sum_append, List.sum_cons] at this ⊢
    omega
  · have := hh.room
    simp only [List.length_set]
    omega

theorem replaceStline {p1 p2 p3 : CStr} (hh : htx.Holds sl hdrs tl)
    (hr : httpReplaceStline htx p1 p2 p3 = some htx') :
    htx'.Holds { sl with p1 := p1, p2 := p2, p3 := p3 } hdrs tl := by
  have hdata := hh.data
  have hroom := hh.room
  have hsize := hh.size
  rw [hh.blks] at hroom
  rw [httpReplaceStline, hh.blks] at hr
  simp only [slBlk] at hr
  split_ifs at hr with hno
  cases hr
  generalize hs : HtxSl.size { sl with p1 := p1, p2 := p2, p3 := p3 } = s' at hno
  rw [htxNoExpansion, htxFreeSpace, hh.blks, decide_eq_true_eq, Nat.not_lt] at hno
  refine ⟨?_, hh.size, hh.fits, ?_, ?_⟩
  · simp only [slBlk, hs]
  · simp only [hs]
    omega
  · simp only [List.length_cons] at hroom hno ⊢
    omega

theorem replaceStline_isSome (hh : htx.Holds sl hdrs tl) (p1 p2 p3 : CStr)
    (hle : HtxSl.size { sl with p1 := p1, p2 := p2, p3 := p3 } ≤ sl.size) :
    ∃ htx', httpReplaceStline htx p1 p2 p3 = some htx' := by
  rw [httpReplaceStline, hh.blks]
  simp [slBlk, htxNoExpansion, Nat.sub_eq_zero_of_le hle]

theorem headerSection_eq (hh : htx.Holds sl hdrs (eohBlk :: tl)) :
    htx.headerSection = slBlk sl :: hdrs.map hdrBlk := by
  have hall : ∀ b ∈ slBlk sl :: hdrs.map hdrBlk, (htxGetBlkType b != htxBlkEoh) = true := by
    intro b hm
    rcases List.mem_cons.mp hm with rfl | hm
    · rw [slBlk_type hh.slSize]
      decide
    · obtain ⟨h, hm', rfl⟩ := List.mem_map.mp hm
      rw [hdrBlk_type (hh.fits h hm')]
      decide
  rw [Htx.headerSection, hh.blks, ← List.cons_append, List.takeWhile_append_of_pos hall]
  have he : (htxGetBlkType eohBlk != htxBlkEoh) = false := by decide
  simp [he]

theorem stlines_eq (hh : htx.Holds sl hdrs (eohBlk :: tl)) : htx.stlines = [slBlk sl] := by
  have hnone : (hdrs.map hdrBlk).filter HtxBlk.isStline = [] := by
    rw [List.filter_eq_nil_iff]
    intro b hm
    obtain ⟨h, hm', rfl⟩ := List.mem_map.mp hm
    simp [HtxBlk.isStline, hdrBlk_type (hh.fits h hm'), htxBlkHdr, htxBlkReqSl, htxBlkResSl]
  have hsl : (slBlk sl).isStline = true := by
    simp [HtxBlk.isStline, slBlk_type hh.slSize]
  rw [Htx.stlines, hh.headerSection_eq, List.filter_cons_of_pos hsl, hnone]

theorem headers_eq (hh : htx.Holds sl hdrs (eohBlk :: tl)) : htx.headers = hdrs := by
  have hsl : (htxGetBlkType (slBlk sl) == htxBlkHdr) = false := by
    simp [slBlk_type hh.slSize, htxBlkReqSl, htxBlkHdr]
  rw [Htx.headers, hh.headerSection_eq, List.filter_cons_of_neg (by simp [hsl])]
  -- every block that is left is a header, and reads back as it was written
  have hf := hh.fits
  clear hh
  induction hdrs with
  | nil => rfl
  | cons h hdrs ih =>
    have hfh := hf h List.mem_cons_self
    have ht : (htxGetBlkType (hdrBlk h) == htxBlkHdr) = true := by simp [hdrBlk_type hfh]
    rw [List.map_cons, List.filter_cons_of_pos (by simpa using ht), List.map_cons,
      hdrBlk_name hfh, hdrBlk_value hfh, ih fun h hm => hf h (List.mem_cons_of_mem _ hm)]

end Htx.Holds

end SmartHAProxy
