/-
Send windows of an HTTP/2 connection (mux_h2.c).

The window of a stream is `sws + miw`, two signed 32-bit numbers: SETTINGS frames change
`miw` for all streams at once, WINDOW_UPDATE frames and DATA change `sws`.  Signed numbers
wrap around (`-fwrapv`).

`H2Windows` are the windows as RFC 7540 section 6.9 has them.
-/
import Mathlib.Algebra.Ring.Int.Defs
import Mathlib.Algebra.Ring.Nat
import SmartHAProxy.Lib.Run

namespace SmartHAProxy

/-! ### Streams and the connection -/

/-- `int32_t`. -/
def s32 (x : ℤ) : ℤ := x.bmod (2 ^ 32)

/-- The list of the connection in which a stream is. -/
inductive H2List
  | none
  | send
  | blocked
  deriving DecidableEq, Repr

/-- `struct h2s`: `blkSfctl` is H2_SF_BLK_SFCTL, and `wantSend` says that it subscribed to
SUB_RETRY_SEND or wants to shut down. -/
structure H2s where
  id : ℕ
  sws : ℤ
  closed : Bool
  blkSfctl : Bool
  wantSend : Bool
  list : H2List
  deriving DecidableEq, Repr

/-- `struct h2c`. -/
structure H2c where
  isBack : Bool
  miw : ℤ
  mws : ℤ
  mfs : ℤ
  streamsLimit : UInt32
  streams : List H2s
  deriving DecidableEq, Repr

/-- Errors of the connection and of a stream. -/
inductive H2Err
  | frameSize
  | protocol
  | flowControl
  | streamProtocol
  | streamFlowControl
  deriving DecidableEq, Repr

/-- Frames that change windows: the entries of SETTINGS, and the stream and the payload of
WINDOW_UPDATE. -/
inductive H2Frame
  | settings (ack : Bool) (payload : List (UInt16 × UInt32))
  | windowUpdate (dsi : ℕ) (payload : UInt32)
  deriving DecidableEq, Repr

namespace H2c

def h2sMws (c : H2c) (s : H2s) : ℤ := s32 (s.sws + c.miw)

/-- A stream that is no longer blocked by its window. -/
def unblock (s : H2s) : H2s :=
  { s with
    blkSfctl := false
    list := if s.wantSend then .send else .none }

/-- `h2c_unblock_sfctl`. -/
def unblockSfctl (c : H2c) : H2c :=
  { c with streams := c.streams.map fun s => if s.blkSfctl ∧ 0 < c.h2sMws s then unblock s else s }

def setStream (c : H2c) (s : H2s) : H2c :=
  { c with streams := c.streams.map fun s' => if s'.id = s.id then s else s' }

/-! ### Frames -/

/-- One entry of `h2c_handle_settings`; `maxStreams` is `h2_settings_max_concurrent_streams`. -/
def settingsEntry (maxStreams : UInt32) (c : H2c) (entry : UInt16 × UInt32) : Except H2Err H2c :=
  let arg := s32 entry.2.toNat
  if entry.1 = 4 then
    -- H2_SETTINGS_INITIAL_WINDOW_SIZE
    if arg < 0 then .error .flowControl else .ok { c with miw := arg }
  else if entry.1 = 5 then
    -- H2_SETTINGS_MAX_FRAME_SIZE
    if arg < 16384 ∨ 16777215 < arg then .error .protocol else .ok { c with mfs := arg }
  else if entry.1 = 2 then
    -- H2_SETTINGS_ENABLE_PUSH
    if arg < 0 ∨ 1 < arg then .error .protocol else .ok c
  else if entry.1 = 3 then
    -- H2_SETTINGS_MAX_CONCURRENT_STREAMS
    .ok (if c.isBack then { c with streamsLimit := min entry.2 maxStreams } else c)
  else .ok c

/-- `h2c_handle_settings`. -/
def handleSettings (maxStreams : UInt32) (c : H2c) (ack : Bool) (payload : List (UInt16 × UInt32)) :
    Except H2Err H2c :=
  if ack then (if payload = [] then .ok c else .error .frameSize)
  else payload.foldlM (settingsEntry maxStreams) c

/-- `h2c_handle_window_update`: a stream that is not in the tree is `h2_closed_stream`. -/
def handleWindowUpdate (c : H2c) (dsi : ℕ) (payload : UInt32) : Except H2Err H2c :=
  let inc := s32 payload.toNat
  if dsi ≠ 0 then
    match c.streams.find? (·.id = dsi) with
    | none => .ok c
    | some s =>
      if s.closed then .ok c
      else if inc = 0 then .error .streamProtocol
      else if 0 ≤ c.h2sMws s ∧ s32 (c.h2sMws s + inc) < 0 then .error .streamFlowControl
      else
        let s := { s with sws := s32 (s.sws + inc) }
        .ok (c.setStream (if 0 < c.h2sMws s ∧ s.blkSfctl then unblock s else s))
  else if inc = 0 then .error .protocol
  else if 0 ≤ c.mws ∧ s32 (c.mws + inc) < 0 then .error .flowControl
  else .ok { c with mws := s32 (c.mws + inc) }

/-- A frame, once it is there as a whole. -/
def frame (maxStreams : UInt32) (c : H2c) : H2Frame → Except H2Err H2c
  | .settings ack payload => c.handleSettings maxStreams ack payload
  | .windowUpdate dsi payload => c.handleWindowUpdate dsi payload

/-- `h2_process_demux` on the frames that are there: the streams are unblocked at the end,
if the initial window is not the one from the beginning. -/
def processDemux (maxStreams : UInt32) (c : H2c) (frames : List H2Frame) : Except H2Err H2c :=
  match frames.foldlM (frame maxStreams) c with
  | .error e => .error e
  | .ok c' => .ok (if c.miw ≠ c'.miw then c'.unblockSfctl else c')

/-! ### DATA -/

/-- The windows in `h2s_make_data`, for a block of `fsize` bytes of which `count` may be
sent, `room` bytes of output and, if `swap`, a buffer that can be swapped: the number of
bytes sent. -/
def makeData (c : H2c) (s : H2s) (swap : Bool) (fsize count room : ℤ) : H2c × ℤ :=
  if count = 0 then (c, 0)
  else if swap ∧ fsize = count ∧ fsize ≤ c.h2sMws s ∧ fsize ≤ c.mws ∧ fsize ≤ c.mfs then
    ({ c.setStream { s with sws := s32 (s.sws - fsize) } with mws := s32 (c.mws - fsize) }, fsize)
  else if fsize = 0 then (c, 0)
  else if c.h2sMws s ≤ 0 then
    (c.setStream { s with
      blkSfctl := true
      list := .blocked }, 0)
  else
    let fsize := min (min fsize count) (c.h2sMws s)
    let fsize := if c.mfs ≠ 0 then min fsize c.mfs else fsize
    let fsize := if room < fsize + 9 then room - 9 else fsize
    if fsize ≤ 0 then (c, 0)
    else if c.mws ≤ 0 then (c, 0)
    else
      let fsize := min fsize c.mws
      ({ c.setStream { s with sws := s32 (s.sws - fsize) } with mws := s32 (c.mws - fsize) }, fsize)

end H2c

/-! ### RFC 7540 -/

/-- The window of the connection, the initial window, and those of the streams. -/
structure H2Windows where
  conn : ℤ
  initial : ℤ
  stream : ℕ → ℤ

namespace H2Windows

/-- A change of the initial window goes to all streams. -/
def setInitial (w : H2Windows) (n : ℤ) : H2Windows where
  conn := w.conn
  initial := n
  stream id := w.stream id + (n - w.initial)

def frame (w : H2Windows) : H2Frame → H2Windows
  | .settings _ payload => payload.foldl
      (fun w entry => if entry.1 = 4 then w.setInitial entry.2.toNat else w) w
  | .windowUpdate dsi payload =>
    if dsi = 0 then { w with conn := w.conn + (payload.toNat % 2 ^ 31 : ℕ) }
    else { w with stream := fun id =>
      if id = dsi then w.stream id + (payload.toNat % 2 ^ 31 : ℕ) else w.stream id }

def openStream (w : H2Windows) (id : ℕ) : H2Windows :=
  { w with stream := fun i => if i = id then w.initial else w.stream i }

/-- `n` bytes are sent. -/
def send (w : H2Windows) (id : ℕ) (n : ℤ) : H2Windows :=
  { w with
    conn := w.conn - n
    stream := fun i => if i = id then w.stream i - n else w.stream i }

end H2Windows

/-! ### A connection over time -/

/-- A connection and its windows by the RFC. -/
structure H2Flow where
  conn : H2c
  rfc : H2Windows

inductive H2FlowOp
  | demux (frames : List H2Frame)
  | openStream (id : ℕ) (wantSend : Bool)
  | closeStream (id : ℕ)
  | subscribe (id : ℕ) (wantSend : Bool)
  | send (id : ℕ) (swap : Bool) (fsize count room : ℕ)

namespace H2Flow

/-- Something done to the stream with an id, if there is one that is open. -/
def onStream (x : H2Flow) (id : ℕ) (f : H2s → H2Flow) : H2Flow :=
  match x.conn.streams.find? (·.id = id) with
  | none => x
  | some s => if s.closed then x else f s

/-- One step; an error is one that the connection reports. -/
def step (maxStreams : UInt32) (x : H2Flow) : H2FlowOp → Except H2Err H2Flow
  | .demux frames =>
    match x.conn.processDemux maxStreams frames with
    | .error e => .error e
    | .ok c => .ok ⟨c, frames.foldl H2Windows.frame x.rfc⟩
  | .openStream id wantSend =>
    -- ids are not used again
    if x.conn.streams.any (·.id = id) then .ok x
    else .ok ⟨{ x.conn with streams := x.conn.streams ++ [⟨id, 0, false, false, wantSend, .none⟩] },
      x.rfc.openStream id⟩
  | .closeStream id => .ok (x.onStream id fun s =>
    { x with conn := x.conn.setStream { s with closed := true } })
  | .subscribe id wantSend => .ok (x.onStream id fun s =>
    { x with conn := x.conn.setStream { s with wantSend := wantSend } })
  | .send id swap fsize count room => .ok (x.onStream id fun s =>
    let r := x.conn.makeData s swap fsize count room
    ⟨r.1, x.rfc.send id r.2⟩)

def init (isBack : Bool) (streamsLimit : UInt32) : H2Flow :=
  ⟨⟨isBack, 65535, 65535, 16384, streamsLimit, []⟩, ⟨65535, 65535, fun _ => 65535⟩⟩

end H2Flow

end SmartHAProxy
