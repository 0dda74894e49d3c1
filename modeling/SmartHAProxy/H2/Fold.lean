/-
How CONTINUATION frames are folded.

A block of which some frames have been folded is again a block: the folded part is its first
fragment (`H2Remaining`).  `Folding` says that the demux buffer without its hole, together
with what is still to come, is what remains of the block and what follows it.  A turn of the
loop keeps this (`Folding.turn`), so that it does not matter where the function leaves and
resumes.

Main results:
* `Folding.peek`: `h2_peek_frame_hdr` reads the header of the next frame
* `Folding.turn`: one turn of the loop
* `Folding.incomplete`: where the loop leaves, bytes of the block are still to come
* `nextFrame_spec`: the loop
-/
import SmartHAProxy.Buf.Move
import SmartHAProxy.H2.Block
import SmartHAProxy.Lib.Hole

namespace SmartHAProxy

variable {f : H2Continuation} {fs : List H2Continuation}

/-! ### What remains of a block -/

/-- The folded part, the padding behind it, and the frames that are not folded yet. -/
structure H2Remaining where
  first : List UInt8
  padding : List UInt8
  conts : List H2Continuation

/-- The number of bytes that are held when `n` bytes of the rest of a block are there: each
frame whose header is complete loses it, and the first one takes the padding along.  The
lengths are those of the folded part, of the padding, and of the fragments. -/
def heldFrom : ℕ → ℕ → List ℕ → ℕ → ℕ
  | _, _, [], n => n
  | len, pad, l :: ls, n =>
    if len + pad + 9 ≤ n then heldFrom (len + l) 0 ls (n - (pad + 9)) else n

namespace H2Remaining

/-- The bytes of what remains. -/
def wire (R : H2Remaining) (sid : ℕ) : List UInt8 :=
  R.first ++ R.padding ++ H2Continuation.wire sid R.conts

/-- The rest of a block when all its frames are folded. -/
def folded (R : H2Remaining) : List UInt8 :=
  R.first ++ R.conts.flatMap H2Continuation.fragment

/-- What is held of `n` bytes. -/
def held (R : H2Remaining) (n : ℕ) : ℕ :=
  heldFrom R.first.length R.padding.length (R.conts.map fun f => f.fragment.length) n

/-- The next fragment is moved behind the folded part, over the padding. -/
def fold (R : H2Remaining) (f : H2Continuation) (fs : List H2Continuation) : H2Remaining :=
  ⟨R.first ++ f.fragment, [], fs⟩

end H2Remaining

namespace H2HeaderBlock

def remaining (B : H2HeaderBlock) : H2Remaining := ⟨B.first, B.padding, B.conts⟩

/-- **What the buffer holds** after a call when the first `k` bytes of the block and of what
follows it have been received. -/
def held (B : H2HeaderBlock) (k : ℕ) : ℕ := B.remaining.held k

end H2HeaderBlock

/-! ### Flags -/

theorem and_or_and_same (a b m : UInt8) : (a ||| (b &&& m)) &&& m = (a &&& m) ||| (b &&& m) := by
  apply UInt8.toBitVec_inj.mp
  show (a.toBitVec ||| (b.toBitVec &&& m.toBitVec)) &&& m.toBitVec = _
  rw [BitVec.and_or_distrib_right, BitVec.and_assoc, BitVec.and_self]
  rfl

theorem and_or_and_apart (a b : UInt8) {m m' : UInt8} (h : m &&& m' = 0) :
    (a ||| (b &&& m)) &&& m' = a &&& m' := by
  apply UInt8.toBitVec_inj.mp
  have h' : m.toBitVec &&& m'.toBitVec = 0#8 := UInt8.toBitVec_inj.mpr h
  show (a.toBitVec ||| (b.toBitVec &&& m.toBitVec)) &&& m'.toBitVec = _
  rw [BitVec.and_or_distrib_right, BitVec.and_assoc, h', BitVec.and_zero, BitVec.or_zero]
  rfl

/-! ### The state between two turns -/

variable {B : H2HeaderBlock} {rest later : List UInt8} {k : ℕ} {R : H2Remaining} {c : H2Demux}
  {hole : ℕ}

/-- What the demux buffer holds, without the hole. -/
def H2Demux.data (c : H2Demux) (hole : ℕ) : List UInt8 := closed c.dbuf.content c.dfl hole

/-- `R` remains of the block `B` when `k` bytes have been received and `later` are to come. -/
structure Folding (B : H2HeaderBlock) (rest later : List UInt8) (k : ℕ) (R : H2Remaining)
    (c : H2Demux) (hole : ℕ) : Prop where
  valid : c.dbuf.Valid
  hole_le : hole ≤ c.dbuf.data
  dsi : c.dsi = B.sid
  dfl : c.dfl = R.first.length + R.padding.length
  dpl : c.dpl = R.padding.length
  headers_iff : c.dff &&& h2FHeadersEndHeaders ≠ 0 ↔ R.conts = []
  priority : c.dff &&& h2FHeadersPriority = B.ff &&& h2FHeadersPriority
  ended : H2Continuation.Ended R.conts
  folded : R.folded = B.folded
  stream : c.data hole ++ later = R.wire B.sid ++ rest
  held : ∀ n, R.held ((c.data hole).length + n) = B.held (k + n)
  total : k + later.length = B.wire.length + rest.length

namespace Folding

/-- The demux buffer holds `hole` bytes that are no data. -/
theorem length_data (h : Folding B rest later k R c hole) :
    (c.data hole).length = c.dbuf.data - hole := by
  have hlen := h.valid.length_content
  rw [H2Demux.data, length_closed (by rw [hlen]; exact h.hole_le), hlen]

/-- The data begin with what the block begins with. -/
theorem exists_data (h : Folding B rest later k R c hole) {pre suf : List UInt8}
    (hwire : R.wire B.sid = pre ++ suf) (hle : pre.length ≤ (c.data hole).length) :
    ∃ t, c.data hole = pre ++ t ∧ t ++ later = suf ++ rest := by
  have hstream := h.stream
  rw [hwire, List.append_assoc] at hstream
  obtain ⟨t, ht⟩ : pre <+: c.data hole :=
    List.prefix_of_prefix_length_le ⟨_, rfl⟩ ⟨_, hstream⟩ hle
  refine ⟨t, ht.symm, ?_⟩
  rw [← ht, List.append_assoc] at hstream
  exact List.append_cancel_left hstream

/-- The next header is behind the folded part and its padding. -/
theorem exists_next (h : Folding B rest later k R c hole) (hconts : R.conts = f :: fs)
    (hfit : c.dfl + 9 ≤ (c.data hole).length) :
    ∃ t, c.data hole = R.first ++ R.padding ++ f.header B.sid ++ t ∧
      t ++ later = f.fragment ++ H2Continuation.wire B.sid fs ++ rest := by
  have hwire : R.wire B.sid = (R.first ++ R.padding ++ f.header B.sid) ++
      (f.fragment ++ H2Continuation.wire B.sid fs) := by
    simp [H2Remaining.wire, H2Continuation.wire, hconts]
  apply h.exists_data hwire
  rw [List.length_append, List.length_append, H2Continuation.length_header, ← h.dfl]
  exact hfit

/-- **The next header** is read across the hole. -/
theorem peek (h : Folding B rest later k R c hole) (hconts : R.conts = f :: fs)
    (hfit : c.dfl + hole + 9 ≤ c.dbuf.data) :
    h2PeekFrameHdr c.dbuf (c.dfl + hole) =
      .ok (some ⟨f.fragment.length, B.sid, h2FtContinuation, f.ff⟩) := by
  have hlen := h.length_data
  obtain ⟨t, ht, -⟩ := h.exists_next hconts (by omega)
  apply h2PeekFrameHdr_header h.valid B.sid_lt hfit
  have hin : c.dfl + hole ≤ c.dbuf.content.length := by
    rw [h.valid.length_content]
    omega
  have hdrop := drop_closed hin 0
  rw [Nat.add_zero, Nat.add_zero] at hdrop
  have hpre : (R.first ++ R.padding).length = c.dfl := by rw [List.length_append, h.dfl]
  rw [← hdrop]
  show ((c.data hole).drop c.dfl).take 9 = _
  rw [ht, List.append_assoc, List.drop_left' hpre,
    List.take_left' (H2Continuation.length_header f B.sid)]

/-- **One turn**: the payload of the next frame is moved to the folded part. -/
theorem turn (h : Folding B rest later k R c hole) (hconts : R.conts = f :: fs)
    (hfit : c.dfl + hole + 9 ≤ c.dbuf.data) (hopen : c.dff &&& h2FHeadersEndHeaders = 0) :
    ∃ dbuf, bMove c.dbuf (bPeekOfs c.dbuf (c.dfl + hole + 9))
        (min (c.dbuf.data - (c.dfl + hole + 9)) f.fragment.length)
        (-((c.dpl + hole + 9 : ℕ) : ℤ)) = .ok dbuf ∧
      bSize dbuf = bSize c.dbuf ∧ dbuf.data = c.dbuf.data ∧
      Folding B rest later k (R.fold f fs)
        { c with
          dbuf := dbuf
          dff := c.dff ||| (f.ff &&& h2FHeadersEndHeaders)
          dfl := c.dfl + f.fragment.length - c.dpl
          dpl := 0 }
        (hole + (c.dpl + 9)) := by
  have hcontent := h.valid.length_content
  have hlen := h.length_data
  have hdfl := h.dfl
  have hdpl := h.dpl
  obtain ⟨t, ht, hlater⟩ := h.exists_next hconts (by omega)
  -- the move, on the content
  obtain ⟨dbuf, hmove, hsize, -, hdata, hvalid, hbytes⟩ :=
    bMove_content h.valid (by omega : 0 < c.dpl + hole + 9)
      (by omega : c.dfl - c.dpl + (c.dpl + hole + 9) +
        min (c.dbuf.data - (c.dfl + hole + 9)) f.fragment.length ≤ c.dbuf.data)
  have hsrc : c.dfl - c.dpl + (c.dpl + hole + 9) = c.dfl + hole + 9 := by omega
  rw [hsrc] at hmove hbytes
  have htake : (c.dbuf.content.drop (c.dfl + hole + 9)).take
      (min (c.dbuf.data - (c.dfl + hole + 9)) f.fragment.length) =
        (c.dbuf.content.drop (c.dfl + hole + 9)).take f.fragment.length := by
    rw [List.take_eq_take_iff, List.length_drop, hcontent]
    omega
  rw [htake] at hbytes
  have hclosed : closed dbuf.content (c.dfl + f.fragment.length - c.dpl) (hole + (c.dpl + 9)) =
      R.first ++ t := by
    have hfirst : (R.first ++ R.padding ++ f.header B.sid).length = c.dfl + 9 := by
      rw [List.length_append, List.length_append, H2Continuation.length_header, hdfl]
    rw [hbytes, closed_fold (by omega) (by omega)]
    show (c.data hole).take _ ++ (c.data hole).drop _ = _
    rw [ht, List.drop_left' hfirst, List.append_assoc, List.append_assoc,
      List.take_left' (by omega)]
  have hgone : (c.data hole).length = (R.first ++ t).length + (c.dpl + 9) := by
    rw [ht]
    simp only [List.length_append, H2Continuation.length_header]
    omega
  have hended := h.ended
  rw [hconts] at hended
  refine ⟨dbuf, hmove, hsize, hdata, hvalid, ?_, h.dsi, ?_, rfl, ?_, ?_, hended.2, ?_, ?_, ?_,
    h.total⟩
  · show hole + (c.dpl + 9) ≤ dbuf.data
    omega
  · show c.dfl + f.fragment.length - c.dpl = (R.first ++ f.fragment).length + 0
    rw [List.length_append]
    omega
  · show (c.dff ||| (f.ff &&& h2FHeadersEndHeaders)) &&& h2FHeadersEndHeaders ≠ 0 ↔ fs = []
    rw [and_or_and_same, hopen, UInt8.zero_or]
    exact hended.1
  · show (c.dff ||| (f.ff &&& h2FHeadersEndHeaders)) &&& h2FHeadersPriority = _
    rw [and_or_and_apart _ _ (by decide)]
    exact h.priority
  · rw [← h.folded]
    simp [H2Remaining.folded, H2Remaining.fold, hconts]
  · show closed dbuf.content _ _ ++ later = _
    rw [hclosed, List.append_assoc, hlater]
    simp [H2Remaining.wire, H2Remaining.fold]
  · intro n
    show (R.fold f fs).held ((closed dbuf.content _ _).length + n) = _
    rw [hclosed, ← h.held n, hgone, H2Remaining.held, H2Remaining.held, hconts, List.map_cons,
      heldFrom, if_pos (by omega)]
    show heldFrom (R.first ++ f.fragment).length 0 _ _ = _
    have hfirst : (R.first ++ f.fragment).length = R.first.length + f.fragment.length :=
      List.length_append
    rw [hfirst]
    congr 1
    omega

/-- Some bytes of the folded part are still to come. -/
theorem incomplete (h : Folding B rest later k R c hole) (hlt : (c.data hole).length < c.dfl) :
    rest.length < later.length := by
  have hstream := congrArg List.length h.stream
  simp only [H2Remaining.wire, List.length_append] at hstream
  have := h.dfl
  omega

/-- Some bytes of the next header are still to come. -/
theorem incomplete_of_conts (h : Folding B rest later k R c hole) (hconts : R.conts = f :: fs)
    (hlt : (c.data hole).length < c.dfl + 9) : rest.length < later.length := by
  have hstream := congrArg List.length h.stream
  simp only [H2Remaining.wire, H2Continuation.wire, hconts, List.flatMap_cons, List.length_append,
    H2Continuation.length_header] at hstream
  have := h.dfl
  omega

end Folding

/-! ### The loop -/

/-- **The loop at `next_frame`** folds all that is there.  It leaves while the block is not
complete, and it meets no fault and no error. -/
theorem nextFrame_spec {bufsize fuel : ℕ} (hB : B.folded.length ≤ bufsize)
    (h : Folding B rest later k R c hole) (hfuel : c.dbuf.data - hole < fuel) :
    ∃ c' hole' next R', H2Demux.nextFrame bufsize fuel c hole = .ok (c', hole', next) ∧
      bSize c'.dbuf = bSize c.dbuf ∧ Folding B rest later k R' c' hole' ∧
      (c'.data hole').length = B.held k ∧
      (next = .leave ∧ rest.length < later.length ∨
        next = .whole ∧ R'.conts = [] ∧ c'.dfl ≤ (c'.data hole').length) := by
  induction fuel generalizing c hole R with
  | zero => omega
  | succ fuel ih =>
    have hlen := h.length_data
    have hheld := h.held 0
    rw [Nat.add_zero, Nat.add_zero] at hheld
    rw [H2Demux.nextFrame]
    by_cases hmissing : c.dbuf.data - hole < c.dfl
    · -- some bytes of the frame are missing
      rw [if_pos hmissing]
      refine ⟨c, hole, .leave, R, rfl, rfl, h, ?_, .inl ⟨rfl, h.incomplete (by omega)⟩⟩
      rw [← hheld, H2Remaining.held]
      have hdfl := h.dfl
      rcases R.conts with - | ⟨f, fs⟩
      · rfl
      · rw [List.map_cons, heldFrom, if_neg (by omega)]
    · rw [if_neg hmissing]
      by_cases hopen : c.dff &&& h2FHeadersEndHeaders = 0
      · rw [if_neg (not_not.mpr hopen)]
        obtain ⟨f, fs, hconts⟩ : ∃ f fs, R.conts = f :: fs :=
          List.exists_cons_of_ne_nil fun hnil => h.headers_iff.mpr hnil hopen
        by_cases hhdr : c.dbuf.data < c.dfl + hole + 9
        · -- the header of the next frame is not complete
          rw [h2PeekFrameHdr, if_pos hhdr]
          refine ⟨c, hole, .leave, R, rfl, rfl, h, ?_,
            .inl ⟨rfl, h.incomplete_of_conts hconts (by omega)⟩⟩
          have hdfl := h.dfl
          rw [← hheld, H2Remaining.held, hconts, List.map_cons, heldFrom, if_neg (by omega)]
        · obtain ⟨dbuf, hmove, hsize, hdata, hnext⟩ := h.turn hconts (by omega) hopen
          have hle : ¬ bufsize < f.fragment.length := by
            have hfolded := congrArg List.length h.folded
            simp only [H2Remaining.folded, hconts, List.flatMap_cons, List.length_append]
              at hfolded
            omega
          obtain ⟨c', hole', next, R', hrun, hsize', hspec⟩ := ih hnext (by
            show dbuf.data - (hole + (c.dpl + 9)) < fuel
            omega)
          refine ⟨c', hole', next, R', ?_, hsize'.trans hsize, hspec⟩
          rw [h.peek hconts (by omega)]
          simp only [bind, Except.bind, ne_eq, not_true_eq_false, if_false, h.dsi, if_neg hle,
            hmove]
          rw [← h.dsi]
          exact hrun
      · rw [if_pos hopen]
        have hnil := h.headers_iff.mp hopen
        refine ⟨c, hole, .whole, R, rfl, rfl, h, ?_, .inr ⟨rfl, hnil, by omega⟩⟩
        rw [← hheld, H2Remaining.held, hnil]
        rfl

end SmartHAProxy
