/-
Header blocks on the wire, and how the demux buffer reads their frame headers.

`H2HeaderBlock` is a block as a peer sends it.  The header and the length of the padding of
its HEADERS frame have been read and deleted when the frame is handled; the demux buffer
starts with the payload.
-/
import SmartHAProxy.Buf.Content
import SmartHAProxy.H2.Headers

namespace SmartHAProxy

/-! ### Blocks -/

/-- A CONTINUATION frame; `sidWord` is its stream identifier with the reserved bit. -/
structure H2Continuation where
  fragment : List UInt8
  ff : UInt8
  reserved : Bool
  length_lt : fragment.length < 2 ^ 24

def h2FrameHdr (len : ℕ) (ft ff : UInt8) (sidWord : ℕ) : List UInt8 :=
  beBytes 3 len ++ [ft, ff] ++ beBytes 4 sidWord

/-- The stream identifier with the reserved bit. -/
def h2SidWord (sid : ℕ) (reserved : Bool) : ℕ := if reserved then 2 ^ 31 + sid else sid

namespace H2Continuation

def header (f : H2Continuation) (sid : ℕ) : List UInt8 :=
  h2FrameHdr f.fragment.length h2FtContinuation f.ff (h2SidWord sid f.reserved)

def wire (sid : ℕ) (fs : List H2Continuation) : List UInt8 :=
  fs.flatMap fun f => f.header sid ++ f.fragment

/-- The last frame has the flag END_HEADERS, and no other one. -/
def Ended : List H2Continuation → Prop
  | [] => True
  | f :: fs => (f.ff &&& h2FHeadersEndHeaders ≠ 0 ↔ fs = []) ∧ Ended fs

end H2Continuation

/-- A header block of a stream: a HEADERS frame with its flags, its priority fields (the
stream it depends on, which is another one, and the weight) and its padding, and the
CONTINUATION frames. -/
structure H2HeaderBlock where
  sid : ℕ
  ff : UInt8
  priority : Option (UInt32 × UInt8)
  fragment : List UInt8
  padding : List UInt8
  conts : List H2Continuation
  sid_lt : sid < 2 ^ 31
  priority_iff : ff &&& h2FHeadersPriority ≠ 0 ↔ priority.isSome
  priority_ne : ∀ p ∈ priority, p.1.toNat ≠ sid
  headers_iff : ff &&& h2FHeadersEndHeaders ≠ 0 ↔ conts = []
  ended : H2Continuation.Ended conts

namespace H2HeaderBlock

def priorityBytes (B : H2HeaderBlock) : List UInt8 :=
  match B.priority with
  | none => []
  | some (dep, weight) => beBytes 4 dep.toNat ++ [weight]

/-- **The header block itself**: the fragments of all frames. -/
def headers (B : H2HeaderBlock) : List UInt8 :=
  B.fragment ++ B.conts.flatMap H2Continuation.fragment

/-- What is in the buffer when all frames are folded. -/
def folded (B : H2HeaderBlock) : List UInt8 := B.priorityBytes ++ B.headers

/-- The payload of the HEADERS frame, without the padding. -/
def first (B : H2HeaderBlock) : List UInt8 := B.priorityBytes ++ B.fragment

/-- The bytes of the block, from the payload of the HEADERS frame on. -/
def wire (B : H2HeaderBlock) : List UInt8 :=
  B.first ++ B.padding ++ H2Continuation.wire B.sid B.conts

theorem folded_eq (B : H2HeaderBlock) :
    B.folded = B.first ++ B.conts.flatMap H2Continuation.fragment := by
  rw [folded, headers, first, List.append_assoc]

end H2HeaderBlock

@[simp] theorem length_h2FrameHdr (len : ℕ) (ft ff : UInt8) (sidWord : ℕ) :
    (h2FrameHdr len ft ff sidWord).length = 9 := by
  simp [h2FrameHdr]

@[simp] theorem H2Continuation.length_header (f : H2Continuation) (sid : ℕ) :
    (f.header sid).length = 9 := length_h2FrameHdr _ _ _ _

/-! ### Reading a frame header -/

variable {b : Buffer}

theorem beFold_append (v : ℕ) (bs cs : List UInt8) :
    beFold v (bs ++ cs) = beFold (beFold v bs) cs :=
  List.foldl_append

theorem readvN64_content (h : b.Valid) {o : ℕ} (hfit : o + 8 ≤ b.data) :
    h2GetN64 b o = .ok (beFold 0 ((b.content.drop o).take 8)) := by
  have hhead := h.head_le
  have hdata := h.data_le
  have hsize : bSize b = b.area.length := rfl
  have hpeek := bPeekOfs_cases b
  have ho := hpeek o
  obtain ⟨n, hn⟩ : ∃ n, min (bSize b - bPeekOfs b o) 8 = n := ⟨_, rfl⟩
  have hleft : (b.area.drop (bPeekOfs b o)).take n = (b.content.drop o).take n :=
    content_block h (by omega) fun k hk => by have := hpeek (o + k); omega
  have hright : (b.area.drop 0).take (8 - n) = (b.content.drop (o + n)).take (8 - n) :=
    content_block h (by omega) fun k hk => by have := hpeek (o + n + k); omega
  have hsplit : (b.content.drop o).take n ++ (b.content.drop (o + n)).take (8 - n) =
      (b.content.drop o).take 8 := by
    rw [← List.drop_drop, ← List.take_add]
    congr 1
    omega
  rw [h2GetN64, readvN64, hn, memRead_eq (by omega), memRead_eq (by omega), hleft, hright]
  simp only [bind, Except.bind, hsplit]
  rfl

theorem h2PeekFrameHdr_content (h : b.Valid) {o : ℕ} (hfit : o + 9 ≤ b.data) :
    h2PeekFrameHdr b o = .ok (some (H2Fh.ofWord (beFold 0 ((b.content.drop o).take 1))
      (beFold 0 ((b.content.drop (o + 1)).take 8)))) := by
  have hhead := h.head_le
  have hdata := h.data_le
  have hsize : bSize b = b.area.length := rfl
  have ho := bPeekOfs_cases b o
  have hone : (b.area.drop (bPeekOfs b o)).take 1 = (b.content.drop o).take 1 := by
    apply content_block h (by omega)
    intro k hk
    obtain rfl : k = 0 := by omega
    rfl
  rw [h2PeekFrameHdr, if_neg (by omega), readvN64_content h (by omega), memRead_eq (by omega), hone]
  rfl

theorem ofWord_header {len sidWord : ℕ} (ft ff : UInt8) (hlen : len < 2 ^ 24)
    (hsid : sidWord < 2 ^ 32) :
    H2Fh.ofWord (beFold 0 ((h2FrameHdr len ft ff sidWord).take 1))
        (beFold 0 (((h2FrameHdr len ft ff sidWord).drop 1).take 8)) =
      ⟨len, sidWord % 2 ^ 31, ft, ff⟩ := by
  have hfirst : beFold 0 ((h2FrameHdr len ft ff sidWord).take 1) = len / 2 ^ 16 := by
    have hone : (h2FrameHdr len ft ff sidWord).take 1 = beBytes 1 (len / 2 ^ 16) := by
      rw [← Nat.shiftRight_eq_div_pow]
      rfl
    rw [hone, beFold_beBytes]
    omega
  have hword : beFold 0 (((h2FrameHdr len ft ff sidWord).drop 1).take 8) =
      ((len % 2 ^ 16 * 256 + ft.toNat) * 256 + ff.toNat) * 2 ^ 32 + sidWord := by
    have hrest : ((h2FrameHdr len ft ff sidWord).drop 1).take 8 =
        beBytes 2 len ++ ([ft, ff] ++ beBytes 4 sidWord) := rfl
    have htwo : ∀ v, beFold v [ft, ff] = (v * 256 + ft.toNat) * 256 + ff.toNat := by
      intro v
      rw [← shiftLeft_or_byte, ← shiftLeft_or_byte]
      rfl
    rw [hrest, beFold_append, beFold_append, beFold_beBytes, beFold_beBytes, htwo]
    omega
  have hft := ft.toNat_lt
  have hff := ff.toNat_lt
  have hbyte : ∀ (n : ℕ) (c : UInt8), n % 2 ^ 8 = c.toNat → UInt8.ofNat n = c := by
    intro n c hn
    apply UInt8.toNat_inj.mp
    rw [UInt8.toNat_ofNat', hn]
  rw [H2Fh.ofWord, hfirst, hword, H2Fh.mk.injEq]
  refine ⟨by omega, by omega, hbyte _ _ ?_, hbyte _ _ ?_⟩
  · omega
  · omega

theorem h2PeekFrameHdr_header (h : b.Valid) {o sid : ℕ} {f : H2Continuation} (hsid : sid < 2 ^ 31)
    (hfit : o + 9 ≤ b.data) (hbytes : (b.content.drop o).take 9 = f.header sid) :
    h2PeekFrameHdr b o =
      .ok (some ⟨f.fragment.length, sid, h2FtContinuation, f.ff⟩) := by
  have hone : (b.content.drop o).take 1 = (f.header sid).take 1 := by
    rw [← hbytes, List.take_take]
    rfl
  have hword : (b.content.drop (o + 1)).take 8 = ((f.header sid).drop 1).take 8 := by
    rw [← hbytes, List.drop_take, List.drop_drop, List.take_take]
    rfl
  have hlt : h2SidWord sid f.reserved < 2 ^ 32 := by
    rw [h2SidWord]
    split_ifs <;> omega
  have hmod : h2SidWord sid f.reserved % 2 ^ 31 = sid := by
    rw [h2SidWord]
    split_ifs <;> omega
  rw [h2PeekFrameHdr_content h hfit, hone, hword, H2Continuation.header,
    ofWord_header _ _ f.length_lt hlt, hmod]

end SmartHAProxy
