/-
Rings of messages with readers (ring.c).

The buffer of a ring holds a counter, then messages: the length as a varint, the
payload and another counter.  A counter is the number of readers that wait there.
A writer deletes the oldest messages to make room, but none behind a counter that is
not zero.  A reader keeps the offset of its counter since the beginning of the ring;
the greatest offset stands for a reader that has not read yet.

The operations of the buffer are those of a queue of bytes; what `BUG_ON` stops is
`none`.
-/
import SmartHAProxy.Lib.CString
import SmartHAProxy.Lib.Run
import SmartHAProxy.Lib.Varint

namespace SmartHAProxy

/-! ### Writing -/

/-- `struct ring`: `data` is the content of the buffer. -/
structure LogRing where
  size : ℕ
  data : CStr
  ofs : ℕ
  readersCount : ℕ
  deriving DecidableEq, Repr

def ringInit (size : ℕ) : LogRing := ⟨size, [0], 0, 0⟩

/-- `b_peek_varint`: the number at `ofs` and its length. -/
def bPeekVarint (data : CStr) (ofs : ℕ) : Option (ℕ × ℕ) :=
  (decodeVarint (data.drop ofs)).map fun r => (r.1.toNat, data.length - ofs - r.2.length)

/-- The loop of `varint_bytes`. -/
def varintBytesLoop (v : ℕ) : ℕ :=
  if v < 128 then 1 else 1 + varintBytesLoop ((v - 128) >>> 7)
termination_by v
decreasing_by
  rw [Nat.shiftRight_eq_div_pow]
  omega

def varintBytes (v : ℕ) : ℕ := if 240 ≤ v then 1 + varintBytesLoop ((v - 240) >>> 4) else 1

/-- The length of the message of `ring_write`. -/
def ringTotlen (maxlen : ℕ) (parts : List CStr) : ℕ := min (parts.map List.length).sum maxlen

/-- The parts as they are copied when `totlen` bytes are there already. -/
def ringParts (maxlen : ℕ) : ℕ → List CStr → CStr
  | _, [] => []
  | totlen, p :: ps =>
    let len := if maxlen < p.length + totlen then maxlen - totlen else p.length
    p.take len ++ ringParts maxlen (totlen + len) ps

/-- The loop of `ring_write` that deletes the oldest messages, and whether there is
room behind it.  It takes less than `fuel` turns. -/
def ringMakeRoom (need : ℕ) : ℕ → LogRing → Option (LogRing × Bool)
  | 0, _ => none
  | fuel + 1, ring =>
    if need ≤ ring.size - ring.data.length then some (ring, true)
    else if ring.data.headD 0 ≠ 0 then some (ring, false)
    else
      match bPeekVarint ring.data 1 with
      | none => some (ring, false)
      | some (dellen, dellenlen) =>
        if ring.data.length < 1 + dellenlen + dellen then none
        else ringMakeRoom need fuel { ring with
          data := ring.data.drop (1 + dellenlen + dellen)
          ofs := (ring.ofs + (1 + dellenlen + dellen)) % 2 ^ 64 }

/-- `ring_write`, and the number of bytes sent. -/
def ringWrite (ring : LogRing) (maxlen : ℕ) (pfx msg : List CStr) : Option (LogRing × ℕ) :=
  let totlen := ringTotlen maxlen (pfx ++ msg)
  let lenlen := varintBytes totlen
  if ring.size < lenlen + totlen + 1 + 1 then some (ring, 0)
  else
    match ringMakeRoom (lenlen + totlen + 1) (ring.data.length + 1) ring with
    | none => none
    | some (ring, false) => some (ring, 0)
    | some (ring, true) =>
      let payload := ringParts maxlen 0 (pfx ++ msg)
      some ({ ring with data := ring.data ++ varint totlen ++ payload ++ [0] },
        lenlen + payload.length + 1)

def ringResize (ring : LogRing) (size : ℕ) : LogRing :=
  if size ≤ ring.size then ring else { ring with size := size }

/-! ### Reading -/

def ringAttach (ring : LogRing) : Option LogRing :=
  if 255 ≤ ring.readersCount then none
  else some { ring with readersCount := ring.readersCount + 1 }

/-- `HA_ATOMIC_INC` of the byte at `ofs`. -/
def ringInc (data : CStr) (ofs : ℕ) : CStr := data.modify ofs (· + 1)

/-- `HA_ATOMIC_DEC` of the byte at `ofs`. -/
def ringDec (data : CStr) (ofs : ℕ) : CStr := data.modify ofs (· - 1)

/-- `~0`, the offset of a reader that has not read yet. -/
def ringNoOfs : ℕ := 2 ^ 64 - 1

/-- The offset `ofs` from the head of the ring. -/
def ringRelOfs (ring : LogRing) (ofs : ℕ) : ℕ := (ofs + 2 ^ 64 - ring.ofs) % 2 ^ 64

/-- `ring_detach_appctx`. -/
def ringDetach (ring : LogRing) (ofs : ℕ) : Option LogRing :=
  if ofs = ringNoOfs then some { ring with readersCount := ring.readersCount - 1 }
  else if ring.size ≤ ringRelOfs ring ofs then none
  else some { ring with
    data := ringDec ring.data (ringRelOfs ring ofs)
    readersCount := ring.readersCount - 1 }

/-- What `ci_putchk` returns: the bytes that were sent, -1 when there is no room now, or
-2 and -3 when the channel is closed or will never take them. -/
inductive PutRet
  | sent
  | noRoom
  | refused
  deriving DecidableEq, Repr

/-- What becomes of a message in the reading loop. -/
inductive MsgFate
  | sent
  | tooLarge
  | refused
  deriving DecidableEq, Repr

/-- The reading loop from the counter at `ofs` on: where it stops, the messages it
passes, and `ret`.  `put i` is what `ci_putchk` returns the `i`-th time. -/
def ringReadLoop (trashSize : ℕ) (put : ℕ → PutRet) (data : CStr) :
    ℕ → ℕ → ℕ → Option (ℕ × List (CStr × MsgFate) × Bool)
  | 0, _, _ => none
  | fuel + 1, i, ofs =>
    if data.length ≤ ofs + 1 then some (ofs, [], true)
    else
      match bPeekVarint data (ofs + 1) with
      | none => some (ofs, [], true)
      | some (msgLen, len) =>
        let cnt := 1 + len
        if data.length < msgLen + ofs + cnt + 1 then none
        else
          let msg := (data.drop (ofs + cnt)).take msgLen
          let next := fun i fate =>
            (ringReadLoop trashSize put data fuel i (ofs + cnt + msgLen)).map
              fun r => (r.1, (msg, fate) :: r.2.1, r.2.2)
          if trashSize < msgLen + 1 then next i .tooLarge
          else
            match put i with
            | .noRoom => some (ofs, [], false)
            | .sent => next (i + 1) .sent
            | .refused => next (i + 1) .refused

/-- The start of `cli_io_handler_show_ring`: a first read takes the oldest message, or the
end of the ring if `seek` (bit 1 of `i0`) says so.  The reader is no longer counted at
the offset from which it reads. -/
def ringReadStart (seek : Bool) (ring : LogRing) (ofs : ℕ) : Option (LogRing × ℕ) :=
  let start :=
    if ofs = ringNoOfs then
      let ofs := if seek then ring.data.length - 1 else 0
      ({ ring with data := ringInc ring.data ofs }, (ofs + ring.ofs) % 2 ^ 64)
    else (ring, ofs)
  let rel := ringRelOfs start.1 start.2
  if ring.size ≤ rel then none
  else some ({ start.1 with data := ringDec start.1.data rel }, rel)

/-- `cli_io_handler_show_ring` of a reader at `ofs`, as far as the ring goes. -/
def cliIoHandlerShowRing (trashSize : ℕ) (put : ℕ → PutRet) (seek : Bool) (ring : LogRing)
    (ofs : ℕ) : Option (LogRing × ℕ × List (CStr × MsgFate) × Bool) :=
  match ringReadStart seek ring ofs with
  | none => none
  | some (ring, rel) =>
    match ringReadLoop trashSize put ring.data (ring.data.length + 1) 0 rel with
    | none => none
    | some (rel, msgs, ret) =>
      some ({ ring with data := ringInc ring.data rel }, (rel + ring.ofs) % 2 ^ 64, msgs, ret)

/-! ### A ring and its readers -/

/-- A reader: `o0` and bit 1 of `i0`.  `first` and `got` are for the statements: the
number of messages that were written at its first read, and what it got since. -/
structure RingReader where
  o0 : ℕ
  seek : Bool
  first : Option ℕ
  got : List (CStr × MsgFate)
  deriving DecidableEq, Repr

/-- A ring, its readers, and the messages written so far. -/
structure RingSys where
  ring : LogRing
  readers : List RingReader
  written : List CStr
  deriving DecidableEq, Repr

/-- What happens to a ring.  A read comes from the reader at a position of the list. -/
inductive RingOp
  | write (maxlen : ℕ) (pfx msg : List CStr)
  | attach (seek : Bool)
  | read (i : ℕ) (put : ℕ → PutRet)
  | resize (size : UInt64)
  | detach (i : ℕ)

/-- One step.  The error is `BUG_ON`. -/
def RingSys.step (trashSize : ℕ) (s : RingSys) : RingOp → Except Unit RingSys
  | .write maxlen pfx msg =>
    match ringWrite s.ring maxlen pfx msg with
    | none => .error ()
    | some (ring, sent) => .ok { s with
        ring := ring
        written := if sent = 0 then s.written else s.written ++ [(pfx ++ msg).flatten.take maxlen] }
  | .attach seek =>
    match ringAttach s.ring with
    | none => .ok s
    | some ring => .ok { s with
        ring := ring
        readers := s.readers ++ [⟨ringNoOfs, seek, none, []⟩] }
  | .read i put =>
    match s.readers[i]? with
    | none => .ok s
    | some r =>
      match cliIoHandlerShowRing trashSize put r.seek s.ring r.o0 with
      | none => .error ()
      | some (ring, o0, msgs, _) => .ok { s with
          ring := ring
          readers := s.readers.set i { r with
            o0 := o0
            first := some (r.first.getD s.written.length)
            got := r.got ++ msgs } }
  | .resize size => .ok { s with ring := ringResize s.ring size.toNat }
  | .detach i =>
    match s.readers[i]? with
    | none => .ok s
    | some r =>
      match ringDetach s.ring r.o0 with
      | none => .error ()
      | some ring => .ok { s with ring := ring, readers := s.readers.eraseIdx i }

def RingSys.init (size : ℕ) : RingSys := ⟨ringInit size, [], []⟩

end SmartHAProxy
