/-
The HPACK header tables (hpack-tbl.c, haproxy/hpack-tbl.h).

The dynamic table is one area of `size` bytes.  It begins with a header of 16
bytes and the descriptors of the entries, 8 bytes each; the contents are placed
from the end downwards.  Descriptors are kept apart from the area here, and
addresses are still offsets in the whole area, so that contents which reach into
the descriptors show as an address below `16 + 8 * wrap`.

Fields have the widths of the source: `total` and the addresses 32 bits, the
others 16 bits.  Allocations succeed, hence `hpack_dht_insert` always returns 0
and its result is the table.  Memory that was just allocated reads as zeroes.
-/
import Mathlib.Algebra.Ring.Int.Defs
import Mathlib.Algebra.Ring.Nat
import SmartHAProxy.Lib.Memory

namespace SmartHAProxy

/-- Conversion to `uint32_t`. -/
def u32 (x : ℤ) : ℕ := (x % 2 ^ 32).toNat

/-- Conversion to `uint16_t`. -/
def u16 (x : ℤ) : ℕ := (x % 2 ^ 16).toNat

/-! ### The static table -/

/-- `HPACK_SHT_SIZE` -/
def hpackShtSize : ℕ := 62

/-- `hpack_sht`; the first entry is unused. -/
def hpackSht : List (CStr × CStr) :=
  [ ([], []),
    (bytes ":authority", []),
    (bytes ":method", bytes "GET"),
    (bytes ":method", bytes "POST"),
    (bytes ":path", bytes "/"),
    (bytes ":path", bytes "/index.html"),
    (bytes ":scheme", bytes "http"),
    (bytes ":scheme", bytes "https"),
    (bytes ":status", bytes "200"),
    (bytes ":status", bytes "204"),
    (bytes ":status", bytes "206"),
    (bytes ":status", bytes "304"),
    (bytes ":status", bytes "400"),
    (bytes ":status", bytes "404"),
    (bytes ":status", bytes "500"),
    (bytes "accept-charset", []),
    (bytes "accept-encoding", bytes "gzip, deflate"),
    (bytes "accept-language", []),
    (bytes "accept-ranges", []),
    (bytes "accept", []),
    (bytes "access-control-allow-origin", []),
    (bytes "age", []),
    (bytes "allow", []),
    (bytes "authorization", []),
    (bytes "cache-control", []),
    (bytes "content-disposition", []),
    (bytes "content-encoding", []),
    (bytes "content-language", []),
    (bytes "content-length", []),
    (bytes "content-location", []),
    (bytes "content-range", []),
    (bytes "content-type", []),
    (bytes "cookie", []),
    (bytes "date", []),
    (bytes "etag", []),
    (bytes "expect", []),
    (bytes "expires", []),
    (bytes "from", []),
    (bytes "host", []),
    (bytes "if-match", []),
    (bytes "if-modified-since", []),
    (bytes "if-none-match", []),
    (bytes "if-range", []),
    (bytes "if-unmodified-since", []),
    (bytes "last-modified", []),
    (bytes "link", []),
    (bytes "location", []),
    (bytes "max-forwards", []),
    (bytes "proxy-authenticate", []),
    (bytes "proxy-authorization", []),
    (bytes "range", []),
    (bytes "referer", []),
    (bytes "refresh", []),
    (bytes "retry-after", []),
    (bytes "server", []),
    (bytes "set-cookie", []),
    (bytes "strict-transport-security", []),
    (bytes "transfer-encoding", []),
    (bytes "user-agent", []),
    (bytes "vary", []),
    (bytes "via", []),
    (bytes "www-authenticate", []) ]

/-! ### The dynamic table -/

/-- `struct hpack_dte`. -/
structure HpackDte where
  addr : ℕ
  nlen : ℕ
  vlen : ℕ
  deriving DecidableEq, Repr

/-- `struct hpack_dht`.  `front`, `head` and `wrap` mean nothing while `used` is 0. -/
structure HpackDht where
  size : ℕ
  total : ℕ
  front : ℕ
  wrap : ℕ
  head : ℕ
  used : ℕ
  dte : ℕ → HpackDte
  area : List UInt8

/-- `hpack_get_dte`.  The index is a `uint16_t`, and 1 is the newest entry. -/
def hpackGetDte (dht : HpackDht) (idx : ℕ) : Option HpackDte :=
  let idx := u16 (idx - 1)
  if idx ≥ dht.used then none
  else if idx ≤ dht.head then some (dht.dte (dht.head - idx))
  else some (dht.dte (u16 (dht.head - idx + dht.wrap)))

/-- `hpack_valid_idx` -/
def hpackValidIdx (dht : HpackDht) (idx : ℕ) : Bool := idx < dht.used + hpackShtSize

/-- `hpack_get_name` -/
def hpackGetName (dht : HpackDht) (dte : HpackDte) : CStr := (dht.area.drop dte.addr).take dte.nlen

/-- `hpack_get_value` -/
def hpackGetValue (dht : HpackDht) (dte : HpackDte) : CStr :=
  (dht.area.drop (dte.addr + dte.nlen)).take dte.vlen

/-- `hpack_idx_to_name` -/
def hpackIdxToName (dht : HpackDht) (idx : ℕ) : CStr :=
  if idx < hpackShtSize then (hpackSht.getD idx ([], [])).1
  else match hpackGetDte dht (u16 (idx - hpackShtSize + 1)) with
    | none => bytes "### ERR ###"
    | some dte => hpackGetName dht dte

/-- `hpack_idx_to_value` -/
def hpackIdxToValue (dht : HpackDht) (idx : ℕ) : CStr :=
  if idx < hpackShtSize then (hpackSht.getD idx ([], [])).2
  else match hpackGetDte dht (u16 (idx - hpackShtSize + 1)) with
    | none => bytes "### ERR ###"
    | some dte => hpackGetValue dht dte

/-- The slot of the oldest of `used` entries. -/
def tailSlot (dht : HpackDht) (used : ℕ) : ℕ :=
  u32 ((if dht.head + 1 < used then dht.wrap else 0 : ℕ) + dht.head + 1 - used)

/-- `hpack_dht_get_tail` -/
def hpackDhtGetTail (dht : HpackDht) : ℕ := tailSlot dht dht.used

/-- `hpack_dht_init`, on memory of `size` bytes. -/
def hpackDhtInit (dht : HpackDht) (size : ℕ) : HpackDht :=
  { dht with size := size, total := 0, used := 0 }

def hpackAlloc (size : ℕ) : HpackDht := ⟨0, 0, 0, 0, 0, 0, fun _ => ⟨0, 0, 0⟩, List.replicate size 0⟩

/-- `hpack_dht_alloc`; the pool has tables of `size` bytes. -/
def hpackDhtAlloc (size : ℕ) : HpackDht := hpackDhtInit (hpackAlloc size) size

/-! ### Eviction -/

/-- The loop of `__hpack_dht_make_room`: the local `used` counts down. -/
def makeRoomLoop (needed : ℕ) : ℕ → HpackDht → ℕ × HpackDht
  | 0, dht => (0, dht)
  | used + 1, dht =>
    let tail := tailSlot dht (used + 1)
    let dht := { dht with
      total := u32 (dht.total - (dht.dte tail).nlen - (dht.dte tail).vlen)
      front := if tail = dht.front then dht.head else dht.front }
    if used ≠ 0 ∧ u32 (used * 32 + dht.total + needed + 32) > dht.size then
      makeRoomLoop needed used dht
    else (used, dht)

/-- `__hpack_dht_make_room` -/
def hpackDhtMakeRoomLoop (dht : HpackDht) (needed : ℕ) : Bool × HpackDht :=
  let (used, dht) := makeRoomLoop needed dht.used dht
  let dht := { dht with used := used }
  let dht := if used = 0 then { dht with front := 0, head := 0 } else dht
  let dht := if dht.head + 1 ≥ used then { dht with wrap := u16 (dht.head + 1) } else dht
  (u32 (needed + 32) ≤ dht.size, dht)

/-- `hpack_dht_make_room` -/
def hpackDhtMakeRoom (dht : HpackDht) (needed : ℕ) : Bool × HpackDht :=
  if u32 (dht.used * 32 + dht.total + needed + 32) ≤ dht.size then (true, dht)
  else if dht.used = 0 then (false, dht)
  else hpackDhtMakeRoomLoop dht needed

/-! ### Defragmentation -/

/-- The loop of `hpack_dht_defrag`, for the `n` entries from slot `old` on. -/
def defragLoop (dht : HpackDht) : ℕ → (new old addr : ℕ) → HpackDht → Except Fault HpackDht
  | 0, _, _, _, alt => .ok alt
  | n + 1, new, old, addr, alt => do
    let d := dht.dte old
    let addr := u32 (addr - (d.nlen + d.vlen))
    let area ← memcpy alt.area addr dht.area d.addr (d.nlen + d.vlen)
    let alt := { alt with dte := Function.update alt.dte new ⟨addr, d.nlen, d.vlen⟩, area := area }
    defragLoop dht n (new + 1) (if old + 1 ≥ dht.wrap then 0 else old + 1) addr alt

/-- `hpack_dht_defrag` -/
def hpackDhtDefrag (dht : HpackDht) : Except Fault HpackDht := do
  let alt := hpackDhtAlloc dht.size
  let alt := { alt with total := dht.total, used := dht.used, wrap := dht.used }
  let alt ← defragLoop dht dht.used 0 (hpackDhtGetTail dht) alt.size alt
  pure { alt with front := u16 (dht.used - 1), head := u16 (dht.used - 1) }

/-! ### Insertion -/

/-- The local variables of `hpack_dht_insert` once the index has a place. -/
structure Placing where
  dht : HpackDht
  head : ℕ
  prev : ℕ
  wrap : ℕ
  tail : ℕ

def realignIndex (dht : HpackDht) : Except Fault Placing := do
  let dht ← hpackDhtDefrag dht
  pure ⟨dht, dht.head + 1, dht.head, dht.wrap + 1, 0⟩

/-- "compute the new head, used and wrap position" -/
def placeIndex (dht : HpackDht) : Except Fault Placing :=
  let used := dht.used + 1
  let head := dht.head + 1
  let tail := hpackDhtGetTail dht
  if head ≥ dht.wrap then
    if 16 + (dht.wrap + 1) * 8 ≤ (dht.dte dht.front).addr then
      .ok ⟨dht, head, dht.head, dht.wrap + 1, tail⟩
    else if head ≥ used then .ok ⟨dht, 0, dht.head, dht.wrap, tail⟩
    else realignIndex dht
  else if used ≥ dht.wrap then realignIndex dht
  else .ok ⟨dht, head, dht.head, dht.wrap, tail⟩

def HpackDte.stop (d : HpackDte) : ℕ := d.addr + d.nlen + d.vlen

/-- An address for contents of `len` bytes: before the front cell, behind the tail,
or before the front cell after a defragmentation. -/
def placeContents (p : Placing) (len : ℕ) : Except Fault HpackDht :=
  let dht := p.dht
  let front := dht.dte dht.front
  let tail := dht.dte p.tail
  let headroom := if p.prev = dht.front then u32 (front.addr - (16 + p.wrap * 8)) else 0
  let tailroom :=
    if p.prev = dht.front then u32 (dht.size - tail.stop) else u32 ((dht.dte p.prev).addr - tail.stop)
  let setAddr (dht : HpackDht) (head : ℕ) (addr : ℤ) : HpackDht :=
    { dht with dte := Function.update dht.dte head { dht.dte head with addr := u32 addr } }
  let finish (dht : HpackDht) (head wrap : ℕ) : HpackDht :=
    { dht with wrap := u16 wrap, head := u16 head, used := u16 (p.dht.used + 1) }
  if p.prev = dht.front ∧ headroom ≥ len then
    .ok (finish { setAddr dht p.head (front.addr - len) with front := u16 p.head } p.head p.wrap)
  else if tailroom ≥ len then
    .ok (finish (setAddr dht p.head (tail.stop + tailroom - len)) p.head p.wrap)
  else do
    let dht ← hpackDhtDefrag dht
    let head := dht.head + 1
    let addr : ℤ := (dht.dte dht.front).addr - len
    pure (finish { setAddr dht head addr with front := u16 head } head (dht.wrap + 1))

/-- The end of `hpack_dht_insert`, for the new head. -/
def insertCopy (dht : HpackDht) (name value : CStr) : Except Fault HpackDht := do
  let addr := (dht.dte dht.head).addr
  let area ← memWrite dht.area addr name
  let area ← memWrite area (addr + name.length) value
  pure { dht with
    total := u32 (dht.total + (name.length + value.length))
    dte := Function.update dht.dte dht.head ⟨addr, u16 name.length, u16 value.length⟩
    area := area }

/-- `hpack_dht_insert` -/
def hpackDhtInsert (dht : HpackDht) (name value : CStr) : Except Fault HpackDht :=
  let len := name.length + value.length
  match hpackDhtMakeRoom dht (u32 len) with
  | (false, dht) => .ok dht
  | (true, dht) =>
    if dht.used = 0 then
      insertCopy
        { dht with
          front := 0, head := 0, wrap := 1, used := 1, total := 0
          dte := Function.update dht.dte 0 { dht.dte 0 with addr := u32 (dht.size - len) } }
        name value
    else do
      let p ← placeIndex dht
      let dht ← placeContents p len
      insertCopy dht name value

end SmartHAProxy
