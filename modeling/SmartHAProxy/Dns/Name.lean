/-
Names in DNS packets (resolvers.c).

A name is a row of labels, each behind its length, up to an empty label or a
pointer to the rest of the name.  `resolv_read_name` copies the labels without
the empty one; the length of what it copies is what its callers know of the name.
-/
import SmartHAProxy.Http.Basic

namespace SmartHAProxy

def dnsMaxNameSize : ℕ := 255

/-- The bytes behind a pointer to characters. -/
abbrev CharBuf := ℕ → UInt8

/-- `memcpy` of `s` to the start of the buffer. -/
def memcpyBuf (buf : CharBuf) (s : CStr) : CharBuf := fun i => s.getD i (buf i)

/-- `memcpy` of `s` and a NUL behind it. -/
def strcpyBuf (buf : CharBuf) (s : CStr) : CharBuf := memcpyBuf buf (s ++ [0])

/-- The bytes of `s`, as a buffer. -/
def bufOf (s : CStr) : CharBuf := fun i => s.getD i 0

/-- `resolv_hostname_cmp`, whether it returns 0. -/
def resolvHostnameCmp (name1 name2 : CharBuf) (len : ℕ) : Bool :=
  (List.range len).all fun i => istLc (name1 i) == istLc (name2 i)

/-- The loop of `resolv_read_name` over the labels from `reader` on, when `nbBytes`
are written.  `jump` reads the name at a pointer. -/
def resolvReadLabels (packet : CStr) (destLen : ℕ) (jump : ℕ → ℕ → Option CStr) :
    ℕ → ℕ → ℕ → Option CStr
  | 0, _, _ => none
  | fuel + 1, reader, nbBytes =>
    match packet[reader]? with
    | none => none
    | some b =>
      if b &&& 0xc0 = 0xc0 then
        match packet[reader + 1]? with
        | none => none
        | some b1 =>
          -- only the low byte of the pointer is compared
          if reader < b1.toNat then none
          else
            match jump ((b &&& 0x3f).toNat * 256 + b1.toNat) (destLen - nbBytes) with
            | none => none
            | some [] => none
            | some n => some n
      else if b = 0 then some []
      else if packet.length ≤ reader + b.toNat ∨ destLen ≤ nbBytes + b.toNat then none
      else
        let label := (packet.drop reader).take (b.toNat + 1)
        (resolvReadLabels packet destLen jump fuel (reader + b.toNat + 1)
          (nbBytes + b.toNat + 1)).map (label ++ ·)

/-- The bytes of `resolv_read_name` at `name`, when `left` pointers may be followed. -/
def resolvReadBytes (packet : CStr) : ℕ → ℕ → ℕ → Option CStr
  | 0, name, destLen =>
    resolvReadLabels packet destLen (fun _ _ => none) (packet.length + 1) name 0
  | left + 1, name, destLen =>
    resolvReadLabels packet destLen (resolvReadBytes packet left) (packet.length + 1) name 0

/-- The offset behind a name: the scan stops at the first NUL or pointer. -/
def resolvNameOffset : CStr → ℕ
  | [] => 0
  | b :: bs => if b &&& 0xc0 = 0xc0 then 2 else if b = 0 then 1 else 1 + resolvNameOffset bs

/-- `resolv_read_name` with a depth of 0: the bytes and the offset.  The empty
name is a length of 0, which its callers take for an error. -/
def resolvReadName (packet : CStr) (name destLen : ℕ) : Option (CStr × ℕ) :=
  match resolvReadBytes packet 101 name destLen with
  | none => none
  | some n => some (n, resolvNameOffset (packet.drop name))

end SmartHAProxy
