/-
Header blocks reach `hpack_decode_frame` in one piece.

A block may be cut into frames in any way, and the bytes may come in any pieces, with a call
after each.  While the block is not complete, a call only folds what is there; once it is
complete, the fragments are decoded as one, and the buffer is left with what follows the
block (`headers_reassembled`).

The buffer must be large enough: `H2HeaderBlock.Fits` says that each piece fits in the room
that is left, and that a call that has to wait does not leave the buffer full, which the
function takes for a frame that is too large.
-/
import SmartHAProxy.H2.Fold

namespace SmartHAProxy

variable {B : H2HeaderBlock} {rest later : List UInt8} {k : ℕ} {R : H2Remaining} {c : H2Demux}
  {hole : ℕ} {ans : H2Answers}

/-! ### Leaving -/

theorem content_setData (b : Buffer) {n : ℕ} (hn : n ≤ b.data) :
    ({ b with data := n } : Buffer).content = b.content.take n := by
  rw [Buffer.content, Buffer.content, List.take_take, Nat.min_eq_left hn]

theorem closeHole_spec {b : Buffer} (h : b.Valid) (dfl : ℕ) (hhole : hole ≤ b.data) :
    ∃ b', H2Demux.closeHole b dfl hole = .ok b' ∧ bSize b' = bSize b ∧ b'.Valid ∧
      b'.content = closed b.content dfl hole := by
  have hlen := h.length_content
  rw [H2Demux.closeHole]
  by_cases hzero : hole = 0
  · rw [if_pos hzero, hzero]
    exact ⟨b, rfl, rfl, h, (closed_zero _ _).symm⟩
  · rw [if_neg hzero]
    by_cases hmore : dfl + hole < b.data
    · obtain ⟨b₁, hmove, hsize, hhead, hdata, hvalid, hbytes⟩ :=
        bMove_content h (by omega : 0 < hole)
          (by omega : dfl + hole + (b.data - (dfl + hole)) ≤ b.data)
      have hall : (b.content.drop (dfl + hole)).take (b.data - (dfl + hole)) =
          b.content.drop (dfl + hole) := by
        apply List.take_of_length_le
        rw [List.length_drop, hlen]
      refine ⟨{ b₁ with data := b₁.data - hole }, ?_, hsize, ⟨hvalid.head_le, ?_⟩, ?_⟩
      · rw [if_pos hmore, hmove]
        rfl
      · exact Nat.le_trans (Nat.sub_le _ _) hvalid.data_le
      · have htake : (b.content.take dfl).length = dfl := List.length_take_of_le (by omega)
        rw [content_setData b₁ (Nat.sub_le _ _), hbytes, hall, hdata, overwrite,
          closed_of_le (by omega), List.take_left']
        rw [List.length_append, htake, List.length_drop]
        omega
    · rw [if_neg hmore]
      refine ⟨{ b with data := b.data - hole }, rfl, rfl, ⟨h.head_le, ?_⟩, ?_⟩
      · exact Nat.le_trans (Nat.sub_le _ _) h.data_le
      · rw [content_setData b (Nat.sub_le _ _), closed_of_ge (by omega), hlen]

theorem leave_returns (h : c.dbuf.Valid) (hhole : hole ≤ c.dbuf.data) (r : H2Decoded) :
    ∃ c' r', c.leave hole r = .ok (c', r') ∧ bSize c'.dbuf = bSize c.dbuf ∧ r'.fed = r.fed ∧
      (r'.ret = r.ret ∨ r'.ret = -1) := by
  obtain ⟨b', hclose, hsize, -, -⟩ := closeHole_spec h c.dfl hhole
  rw [H2Demux.leave, hclose]
  by_cases hfull : bRoom b' = 0 ∧ c.dfl ≠ 0
  · exact ⟨_, _, if_pos hfull, hsize, rfl, .inr rfl⟩
  · exact ⟨_, _, if_neg hfull, hsize, rfl, .inl rfl⟩

theorem Folding.leave (h : Folding B rest later k R c hole)
    (hroom : (c.data hole).length < bSize c.dbuf) (r : H2Decoded) :
    ∃ c', c.leave hole r = .ok (c', r) ∧ bSize c'.dbuf = bSize c.dbuf ∧
      c'.dbuf.data = (c.data hole).length ∧ Folding B rest later k R c' 0 := by
  obtain ⟨b', hclose, hsize, hvalid, hbytes⟩ := closeHole_spec h.valid c.dfl h.hole_le
  have hdata : H2Demux.data { c with dbuf := b' } 0 = c.data hole := by
    rw [H2Demux.data, closed_zero]
    exact hbytes
  have hlen : b'.data = (c.data hole).length := by
    rw [← hvalid.length_content, hbytes]
    rfl
  have hnot : ¬ (bRoom b' = 0 ∧ c.dfl ≠ 0) := by
    rintro ⟨hfull, -⟩
    rw [bRoom] at hfull
    omega
  refine ⟨{ c with dbuf := b' }, ?_, hsize, hlen, hvalid, Nat.zero_le _, h.dsi, h.dfl, h.dpl,
    h.headers_iff, h.priority, h.ended, h.folded, ?_, ?_, h.total⟩
  · rw [H2Demux.leave, hclose]
    exact if_neg hnot
  · rw [hdata]
    exact h.stream
  · rw [hdata]
    exact h.held

/-! ### A whole block -/

/-- The first bytes of the buffer, in the area or in the copy. -/
theorem hdrs_spec (h : c.dbuf.Valid) (hdfl : c.dfl ≤ c.dbuf.data) {chunk : Option (List UInt8)}
    (hchunk : ∀ t ∈ chunk, bSize c.dbuf ≤ t.length) :
    chunk = none ∧ c.hdrs chunk = .ok none ∨
      ∃ mem, c.hdrs chunk = .ok (some mem) ∧ c.dfl ≤ mem.length ∧
        mem.take c.dfl = c.dbuf.content.take c.dfl := by
  have hhead := h.head_le
  have hdata := h.data_le
  have hsize : bSize c.dbuf = c.dbuf.area.length := rfl
  have hpeek := bPeekOfs_cases c.dbuf
  simp only [H2Demux.hdrs]
  by_cases hwrap : bSize c.dbuf - c.dbuf.head < c.dfl
  · rw [if_pos hwrap]
    rcases chunk with - | t
    · exact .inl ⟨rfl, rfl⟩
    · right
      have ht : bSize c.dbuf ≤ t.length := hchunk t rfl
      obtain ⟨m₁, hrun₁, hlen₁, hbytes₁⟩ := memcpy_spec t 0 c.dbuf.area c.dbuf.head
        (bSize c.dbuf - c.dbuf.head) (by omega)
      obtain ⟨m₂, hrun₂, hlen₂, hbytes₂⟩ := memcpy_spec m₁ (bSize c.dbuf - c.dbuf.head) c.dbuf.area
        0 (c.dfl - (bSize c.dbuf - c.dbuf.head)) (by omega)
      refine ⟨m₂, ?_, by omega, ?_⟩
      · simp only [hrun₁, hrun₂, bind, Except.bind]
        rfl
      · apply List.ext_getElem?
        intro i
        rw [List.getElem?_take, List.getElem?_take]
        split_ifs with hi
        · have := hpeek i
          rw [getElem?_content h, if_pos (by omega), hbytes₂, hbytes₁]
          split_ifs <;> first | omega | (congr 1; omega)
        · rfl
  · rw [if_neg hwrap]
    refine .inr ⟨c.dbuf.area.drop c.dbuf.head, rfl, ?_, ?_⟩
    · rw [List.length_drop]
      omega
    · have hblock : (c.dbuf.area.drop c.dbuf.head).take c.dfl =
          (c.dbuf.content.drop 0).take c.dfl :=
        content_block h (by omega) fun i hi => by have := hpeek (0 + i); omega
      exact hblock

theorem memRead_of_take {mem xs : List UInt8} {n ofs len : ℕ} (hn : n ≤ mem.length)
    (htake : mem.take n = xs) (hfit : ofs + len ≤ n) :
    memRead mem ofs len = .ok ((xs.drop ofs).take len) := by
  rw [memRead_eq (.inr (Nat.le_trans hfit hn)), ← htake, List.drop_take, List.take_take,
    Nat.min_eq_left (by omega)]

theorem skipPriority_spec {mem : List UInt8} (hdsi : c.dsi = B.sid)
    (hprio : c.dff &&& h2FHeadersPriority = B.ff &&& h2FHeadersPriority)
    (hmem : ∃ n ≤ mem.length, ∃ P, mem.take n = B.folded ++ P) :
    c.skipPriority mem B.folded.length = .ok (.ok B.priorityBytes.length) ∧
      memRead mem B.priorityBytes.length (B.folded.length - B.priorityBytes.length) =
        .ok B.headers := by
  obtain ⟨n, hn, P, htake⟩ := hmem
  have hlen := congrArg List.length htake
  have hfolded : B.folded.length = B.priorityBytes.length + B.headers.length := by
    rw [H2HeaderBlock.folded, List.length_append]
  rw [List.length_take, List.length_append] at hlen
  constructor
  · rw [H2Demux.skipPriority, hprio]
    rcases hp : B.priority with - | ⟨dep, weight⟩
    · have hno : B.ff &&& h2FHeadersPriority = 0 := by
        by_contra hne
        have := B.priority_iff.mp hne
        rw [hp] at this
        cases this
      have hbytes : B.priorityBytes = [] := by rw [H2HeaderBlock.priorityBytes, hp]
      rw [if_pos hno, hbytes]
      rfl
    · have hyes : ¬ B.ff &&& h2FHeadersPriority = 0 := by
        apply B.priority_iff.mpr
        rw [hp]
        rfl
      have hbytes : B.priorityBytes = beBytes 4 dep.toNat ++ [weight] := by
        rw [H2HeaderBlock.priorityBytes, hp]
      have hfive : B.priorityBytes.length = 5 := by rw [hbytes]; simp
      have hdep : (((B.folded ++ P).drop 0).take 4) = beBytes 4 dep.toNat := by
        rw [H2HeaderBlock.folded, hbytes]
        rfl
      have hne : dep.toNat ≠ B.sid := B.priority_ne _ hp
      have hlt := dep.toNat_lt
      have hfold : beFold 0 (beBytes 4 dep.toNat) = dep.toNat := by
        rw [beFold_beBytes]
        omega
      rw [if_neg hyes, memRead_of_take hn htake (by omega), hdep]
      simp only [bind, Except.bind, hfold, hdsi, if_neg hne]
      rw [if_neg (by omega), hfive]
      rfl
  · rw [memRead_of_take hn htake (by omega), H2HeaderBlock.folded, List.append_assoc,
      List.drop_left, List.take_left']
    rw [List.length_append]
    omega

/-- A whole block is decoded, unless the copy fails or the stream has no room. -/
theorem Folding.decodeWhole (h : Folding B rest later k R c hole) (hnil : R.conts = [])
    (hle : c.dfl ≤ (c.data hole).length) (hchunk : ∀ t ∈ ans.chunk, bSize c.dbuf ≤ t.length) :
    ans.chunk = none ∧ H2Demux.decodeWhole ans c hole = .ok (c.error .internal, hole, ⟨-1, none⟩) ∨
      ¬ (ans.rxbuf = true ∧ ans.rxEmpty = true) ∧ (∃ salloc sfull,
        H2Demux.decodeWhole ans c hole =
          .ok ({ c with demSalloc := salloc, demSfull := sfull }, hole, ⟨0, none⟩)) ∨
      ans.hpack B.headers = false ∧ H2Demux.decodeWhole ans c hole =
        .ok (c.error .compression, hole, ⟨-1, some B.headers⟩) ∨
      ans.hpack B.headers = true ∧ H2Demux.decodeWhole ans c hole =
        .ok ({ c with dbuf := bDel c.dbuf (c.dfl + hole), dfl := 0, st0 := .frameH }, 0,
          ⟨if ans.message then 1 else -1, some B.headers⟩) := by
  have hcontent := h.valid.length_content
  have hlen := h.length_data
  have hhole := h.hole_le
  have hfirst : R.first = B.folded := by
    have hfolded := h.folded
    rw [H2Remaining.folded, hnil, List.flatMap_nil, List.append_nil] at hfolded
    exact hfolded
  have hflen : c.dfl - c.dpl = B.folded.length := by
    rw [h.dfl, h.dpl, hfirst, Nat.add_sub_cancel]
  -- without a CONTINUATION left, the frame holds the whole block
  have hbytes : c.dbuf.content.take c.dfl = B.folded ++ R.padding := by
    have hwire : R.wire B.sid = (R.first ++ R.padding) ++ [] := by
      rw [H2Remaining.wire, hnil]
      rfl
    have hpre : (R.first ++ R.padding).length = c.dfl := by rw [List.length_append, h.dfl]
    obtain ⟨t, ht, -⟩ := h.exists_data hwire (by rw [hpre]; exact hle)
    have hin : c.dfl + hole ≤ c.dbuf.content.length := by omega
    rw [← take_closed hin (Nat.le_refl c.dfl), ← hfirst]
    show (c.data hole).take c.dfl = _
    rw [ht, List.take_left' hpre]
  rw [H2Demux.decodeWhole, hflen]
  rcases hdrs_spec h.valid (by omega : c.dfl ≤ c.dbuf.data) hchunk with ⟨hnone, hrun⟩ | hmem
  · rw [hrun]
    exact .inl ⟨hnone, rfl⟩
  · obtain ⟨mem, hrun, hmlen, hmtake⟩ := hmem
    obtain ⟨hskip, hread⟩ := skipPriority_spec h.dsi h.priority
      ⟨c.dfl, hmlen, R.padding, hmtake.trans hbytes⟩
    rw [hrun]
    simp only [bind, Except.bind, hskip]
    by_cases hbuf : ans.rxbuf = false
    · rw [if_pos hbuf]
      refine .inr (.inl ⟨?_, true, c.demSfull, rfl⟩)
      rintro ⟨htrue, -⟩
      rw [hbuf] at htrue
      cases htrue
    · by_cases hempty : ans.rxEmpty = false
      · rw [if_neg hbuf, if_pos hempty]
        refine .inr (.inl ⟨?_, c.demSalloc, true, rfl⟩)
        rintro ⟨-, htrue⟩
        rw [hempty] at htrue
        cases htrue
      · rw [if_neg hbuf, if_neg hempty, hread]
        by_cases hpack : ans.hpack B.headers = false
        · exact .inr (.inr (.inl ⟨hpack, if_pos hpack⟩))
        · exact .inr (.inr (.inr ⟨eq_true_of_ne_false hpack, if_neg hpack⟩))

/-! ### One call -/

/-- The stream has room, and the copy can be made. -/
def H2Answers.Ready (ans : H2Answers) : Prop :=
  ans.chunk ≠ none ∧ ans.rxbuf = true ∧ ans.rxEmpty = true

def H2Answers.Accepts (ans : H2Answers) (headers : List UInt8) : Prop :=
  ans.Ready ∧ ans.hpack headers = true ∧ ans.message = true

/-- **One call**: it waits, the copy fails, or the block is decoded. -/
theorem Folding.decodeHeaders {bufsize : ℕ} (hB : B.folded.length ≤ bufsize)
    (h : Folding B rest later k R c 0) (hchunk : ∀ t ∈ ans.chunk, bSize c.dbuf ≤ t.length)
    (hroom : later.length ≤ rest.length ∧ ans.Ready ∨ B.held k < bSize c.dbuf) :
    ∃ c' r, H2Demux.decodeHeaders bufsize ans c = .ok (c', r) ∧ bSize c'.dbuf = bSize c.dbuf ∧
      (r = ⟨0, none⟩ ∧ ¬ (later.length ≤ rest.length ∧ ans.Ready) ∧
          c'.dbuf.data = B.held k ∧ (∃ R', Folding B rest later k R' c' 0) ∨
        r.ret = -1 ∧ r.fed = none ∧ ans.chunk = none ∨
        r.ret ≠ 0 ∧ r.fed = some B.headers ∧
          (r.ret = 1 → c'.dbuf.content ++ later = rest) ∧ (ans.Accepts B.headers → r.ret = 1)) := by
  obtain ⟨c₁, hole, next, R₁, hloop, hsize, h₁, hheld, hnext⟩ :=
    nextFrame_spec hB h (Nat.lt_succ_of_le (Nat.sub_le c.dbuf.data 0))
  rw [H2Demux.decodeHeaders, hloop]
  rw [← hsize] at hchunk hroom ⊢
  rcases hnext with ⟨rfl, hlt⟩ | ⟨rfl, hnil, hle⟩
  · -- bytes are missing
    have hnot : ¬ (later.length ≤ rest.length ∧ ans.Ready) := fun hdone => by omega
    obtain ⟨c₂, hleave, hsize₂, hdata, h₂⟩ := h₁.leave (by
      rw [hheld]
      exact hroom.resolve_left hnot) ⟨0, none⟩
    exact ⟨c₂, _, hleave, hsize₂, .inl ⟨rfl, hnot, hdata.trans hheld, R₁, h₂⟩⟩
  · have hhole := h₁.hole_le
    -- the rest of the buffer follows the block
    have hrest : (c₁.data hole).drop c₁.dfl ++ later = rest := by
      have hwire : R₁.wire B.sid = (R₁.first ++ R₁.padding) ++ [] := by
        rw [H2Remaining.wire, hnil]
        rfl
      have hpre : (R₁.first ++ R₁.padding).length = c₁.dfl := by rw [List.length_append, h₁.dfl]
      obtain ⟨t, ht, hlater⟩ := h₁.exists_data hwire (by rw [hpre]; exact hle)
      rw [ht, List.drop_left' hpre]
      exact hlater
    rcases h₁.decodeWhole hnil hle hchunk with ⟨hnone, hrun⟩ | ⟨hnot, salloc, sfull, hrun⟩ |
      ⟨hpack, hrun⟩ | ⟨-, hrun⟩
    · obtain ⟨c₂, r, hleave, hsize₂, hfed, hret⟩ :=
        leave_returns (c := c₁.error .internal) h₁.valid hhole ⟨-1, none⟩
      refine ⟨c₂, r, ?_, hsize₂, .inr (.inl ⟨hret.elim id id, hfed, hnone⟩)⟩
      simp only [bind, Except.bind, hrun]
      exact hleave
    · have hnot : ¬ (later.length ≤ rest.length ∧ ans.Ready) := fun hdone => hnot hdone.2.2
      have hwait : Folding B rest later k R₁
          { c₁ with demSalloc := salloc, demSfull := sfull } hole :=
        ⟨h₁.valid, hhole, h₁.dsi, h₁.dfl, h₁.dpl, h₁.headers_iff, h₁.priority, h₁.ended, h₁.folded,
          h₁.stream, h₁.held, h₁.total⟩
      obtain ⟨c₂, hleave, hsize₂, hdata, h₂⟩ := hwait.leave
        (lt_of_eq_of_lt hheld (hroom.resolve_left hnot)) ⟨0, none⟩
      refine ⟨c₂, _, ?_, hsize₂, .inl ⟨rfl, hnot, hdata.trans hheld, R₁, h₂⟩⟩
      simp only [bind, Except.bind, hrun]
      exact hleave
    · obtain ⟨c₂, r, hleave, hsize₂, hfed, hret⟩ :=
        leave_returns (c := c₁.error .compression) h₁.valid hhole ⟨-1, some B.headers⟩
      have hret : r.ret = -1 := hret.elim id id
      refine ⟨c₂, r, ?_, hsize₂, .inr (.inr ⟨?_, hfed, ?_, ?_⟩)⟩
      · simp only [bind, Except.bind, hrun]
        exact hleave
      · rw [hret]
        decide
      · intro hone
        rw [hret] at hone
        exact absurd hone (by decide)
      · rintro ⟨-, htrue, -⟩
        rw [hpack] at htrue
        cases htrue
    · obtain ⟨hdsize, -, hdel⟩ := bDel_content (n := c₁.dfl + hole) h₁.valid (by
        have := h₁.length_data
        omega)
      have hcontent : (bDel c₁.dbuf (c₁.dfl + hole)).content = (c₁.data hole).drop c₁.dfl := by
        have hin : c₁.dfl + hole ≤ c₁.dbuf.content.length := by
          have := h₁.length_data
          have := h₁.valid.length_content
          omega
        have hdrop := drop_closed hin 0
        rw [Nat.add_zero, Nat.add_zero] at hdrop
        rw [hdel, ← hdrop]
        rfl
      refine ⟨{ c₁ with dbuf := bDel c₁.dbuf (c₁.dfl + hole), dfl := 0, st0 := .frameH },
        ⟨if ans.message then 1 else -1, some B.headers⟩, ?_, hdsize,
        .inr (.inr ⟨?_, rfl, ?_, ?_⟩)⟩
      · simp only [bind, Except.bind, hrun]
        exact if_neg fun hfull => hfull.2 rfl
      · show (if ans.message then (1 : ℤ) else -1) ≠ 0
        split_ifs <;> decide
      · intro _
        show (bDel c₁.dbuf (c₁.dfl + hole)).content ++ later = rest
        rw [hcontent, hrest]
      · rintro ⟨-, -, hmessage⟩
        exact if_pos hmessage

/-! ### Runs -/

/-- The buffer is large enough from here on, `k` bytes of the block and of what follows it
having been received: each piece fits in the room that is left, and the buffer is not full
after a call that has to wait. -/
def H2HeaderBlock.FitsFrom (B : H2HeaderBlock) (size : ℕ) : ℕ → List H2Demux.Call → Prop
  | _, [] => True
  | k, (piece, ans) :: calls =>
    B.held k + piece.length ≤ size ∧
      (B.wire.length ≤ k + piece.length ∧ ans.Ready ∨
        B.held (k + piece.length) < size ∧ FitsFrom B size (k + piece.length) calls)

/-- **The folded block always fits** in a buffer of `size` bytes. -/
def H2HeaderBlock.Fits (B : H2HeaderBlock) (size : ℕ) (calls : List H2Demux.Call) : Prop :=
  B.folded.length ≤ size ∧ B.FitsFrom size 0 calls

/-- The demultiplexer has read the header of the HEADERS frame, and the buffer is empty. -/
structure H2Demux.Starts (c : H2Demux) (B : H2HeaderBlock) : Prop where
  valid : c.dbuf.Valid
  data : c.dbuf.data = 0
  dsi : c.dsi = B.sid
  dfl : c.dfl = B.first.length + B.padding.length
  dpl : c.dpl = B.padding.length
  dff : c.dff = B.ff

theorem H2Demux.Starts.folding (h : c.Starts B) (hlater : later = B.wire ++ rest) :
    Folding B rest later 0 B.remaining c 0 := by
  have hnil : c.data 0 = [] := by
    rw [H2Demux.data, closed_zero]
    apply List.length_eq_zero_iff.mp
    rw [h.valid.length_content, h.data]
  refine ⟨h.valid, Nat.zero_le _, h.dsi, h.dfl, h.dpl, ?_, ?_, B.ended, ?_, ?_, ?_, ?_⟩
  · rw [h.dff]
    exact B.headers_iff
  · rw [h.dff]
  · exact B.folded_eq.symm
  · rw [hnil, hlater]
    rfl
  · intro n
    rw [hnil]
    rfl
  · rw [hlater, List.length_append, Nat.zero_add]

theorem Folding.append {piece : List UInt8} (h : Folding B rest (piece ++ later) k R c 0)
    (hfit : B.held k + piece.length ≤ bSize c.dbuf) (hheld : c.dbuf.data = B.held k) :
    ∃ dbuf n, bPutblk c.dbuf piece = .ok (dbuf, n) ∧ bSize dbuf = bSize c.dbuf ∧
      Folding B rest later (k + piece.length) R { c with dbuf := dbuf } 0 := by
  obtain ⟨dbuf, hput, hsize, hvalid, hcontent⟩ := bPutblk_content h.valid piece
  have hall : piece.take (bRoom c.dbuf) = piece := by
    apply List.take_of_length_le
    rw [bRoom]
    omega
  rw [hall] at hcontent
  have hdata : H2Demux.data { c with dbuf := dbuf } 0 = c.data 0 ++ piece := by
    rw [H2Demux.data, H2Demux.data, closed_zero, closed_zero]
    exact hcontent
  refine ⟨dbuf, _, hput, hsize, hvalid, Nat.zero_le _, h.dsi, h.dfl, h.dpl, h.headers_iff,
    h.priority, h.ended, h.folded, ?_, ?_, ?_⟩
  · rw [hdata, List.append_assoc]
    exact h.stream
  · intro n
    rw [hdata, List.length_append, Nat.add_assoc, h.held, Nat.add_assoc]
  · rw [← h.total, List.length_append, Nat.add_assoc]

/-- **Reassembly, from any state on the way.** -/
theorem run_spec {size : ℕ} {calls : List H2Demux.Call} (hB : B.folded.length ≤ size)
    (h : Folding B rest (calls.flatMap Prod.fst) k R c 0) (hsize : bSize c.dbuf = size)
    (hheld : c.dbuf.data = B.held k)
    (hchunk : ∀ call ∈ calls, ∀ t ∈ call.2.chunk, size ≤ t.length)
    (hfits : B.FitsFrom size k calls) :
    ∃ c' r left, c.run size calls = .ok (c', r, left) ∧
      (∀ fed ∈ r.fed, fed = B.headers) ∧
      (r.ret = 1 → r.fed = some B.headers ∧ c'.dbuf.content ++ left.flatMap Prod.fst = rest) ∧
      ((∀ call ∈ calls, call.2.chunk ≠ none) → (∃ call ∈ calls.getLast?, call.2.Ready) →
        r.fed = some B.headers) ∧
      (calls ≠ [] → (∀ call ∈ calls, call.2.Accepts B.headers) → r.ret = 1) := by
  induction calls generalizing c k R with
  | nil =>
    refine ⟨c, ⟨0, none⟩, [], rfl, ?_, ?_, ?_, ?_⟩
    · rintro fed hfed
      cases hfed
    · intro hone
      exact absurd hone (by decide)
    · rintro - ⟨call, hcall, -⟩
      cases hcall
    · intro hne
      exact absurd rfl hne
  | cons call calls ih =>
    obtain ⟨piece, ans⟩ := call
    obtain ⟨hfit, hwait⟩ := hfits
    rw [List.flatMap_cons] at h
    obtain ⟨dbuf, n, hput, hdsize, hnext⟩ := h.append (by rw [hsize]; exact hfit) hheld
    have hchunk' : ∀ t ∈ ans.chunk, bSize dbuf ≤ t.length := by
      rw [hdsize, hsize]
      exact hchunk (piece, ans) List.mem_cons_self
    have htotal : k + piece.length + (calls.flatMap Prod.fst).length =
        B.wire.length + rest.length := hnext.total
    have hroom : (calls.flatMap Prod.fst).length ≤ rest.length ∧ ans.Ready ∨
        B.held (k + piece.length) < bSize dbuf := by
      rw [hdsize, hsize]
      rcases hwait with ⟨hle, hready⟩ | ⟨hlt, -⟩
      · exact .inl ⟨by omega, hready⟩
      · exact .inr hlt
    obtain ⟨c', r, hcall, hsize', hcases⟩ := hnext.decodeHeaders hB hchunk' hroom
    have hrun : c.run size ((piece, ans) :: calls) =
        if r.ret = 0 then c'.run size calls else .ok (c', r, calls) := by
      rw [H2Demux.run, H2Demux.receive, hput]
      simp only [bind, Except.bind, hcall]
      rfl
    rw [hrun]
    rcases hcases with ⟨rfl, hnot, hdata, R', h'⟩ | ⟨hret, hfed, hnone⟩ |
      ⟨hret, hfed, hcontent, haccepts⟩
    · -- it waits for more
      have hfits' : B.FitsFrom size (k + piece.length) calls := by
        rcases hwait with ⟨hle, hready⟩ | ⟨-, hfits'⟩
        · exact absurd ⟨by omega, hready⟩ hnot
        · exact hfits'
      obtain ⟨c'', r'', left, hrun', hsafe, hone, hready, haccept⟩ :=
        ih h' (hsize'.trans (hdsize.trans hsize)) hdata
          (fun call hc => hchunk call (List.mem_cons_of_mem _ hc)) hfits'
      refine ⟨c'', r'', left, (if_pos rfl).trans hrun', hsafe, hone, ?_, ?_⟩
      · intro hall hlast
        rcases calls with - | ⟨call', calls⟩
        · obtain ⟨call, hcall', hr⟩ := hlast
          obtain rfl := Option.some.inj hcall'
          exact absurd ⟨Nat.zero_le _, hr⟩ hnot
        · rw [List.getLast?_cons_cons] at hlast
          exact hready (fun call hc => hall call (List.mem_cons_of_mem _ hc)) hlast
      · rintro - hall
        rcases calls with - | ⟨call', calls⟩
        · exact absurd ⟨Nat.zero_le _, (hall (piece, ans) List.mem_cons_self).1⟩ hnot
        · exact haccept (List.cons_ne_nil _ _)
            fun call hc => hall call (List.mem_cons_of_mem _ hc)
    · -- the copy of the block could not be made
      have hne : r.ret ≠ 0 := by
        rw [hret]
        decide
      refine ⟨c', r, calls, if_neg hne, ?_, ?_, ?_, ?_⟩
      · rw [hfed]
        rintro fed hf
        cases hf
      · intro hone
        rw [hret] at hone
        exact absurd hone (by decide)
      · intro hall
        exact absurd hnone (hall (piece, ans) List.mem_cons_self)
      · rintro - hall
        exact absurd hnone (hall (piece, ans) List.mem_cons_self).1.1
    · refine ⟨c', r, calls, if_neg hret, ?_, ?_, ?_, ?_⟩
      · rw [hfed]
        rintro fed hf
        exact (Option.some.inj hf).symm
      · intro hone
        exact ⟨hfed, hcontent hone⟩
      · rintro - -
        exact hfed
      · rintro - hall
        exact haccepts (hall (piece, ans) List.mem_cons_self)

/-- **Header blocks are reassembled.**  The pieces that are received make up a block and what
follows it.  Then what is given to `hpack_decode_frame` are the fragments of the block; after
success the buffer has the bytes that follow, as far as they have been received; and the
headers are decoded if no copy fails and the last call finds the stream ready. -/
theorem headers_reassembled {calls : List H2Demux.Call} (hstart : c.Starts B)
    (hcalls : calls.flatMap Prod.fst = B.wire ++ rest)
    (hchunk : ∀ call ∈ calls, ∀ t ∈ call.2.chunk, bSize c.dbuf ≤ t.length)
    (hfits : B.Fits (bSize c.dbuf) calls) :
    ∃ c' r left, c.run (bSize c.dbuf) calls = .ok (c', r, left) ∧
      (∀ fed ∈ r.fed, fed = B.headers) ∧
      (r.ret = 1 → r.fed = some B.headers ∧ c'.dbuf.content ++ left.flatMap Prod.fst = rest) ∧
      ((∀ call ∈ calls, call.2.chunk ≠ none) → (∃ call ∈ calls.getLast?, call.2.Ready) →
        r.fed = some B.headers) ∧
      (calls ≠ [] → (∀ call ∈ calls, call.2.Accepts B.headers) → r.ret = 1) := by
  apply run_spec hfits.1 (hstart.folding hcalls) rfl _ hchunk hfits.2
  rw [hstart.data, H2HeaderBlock.held, H2Remaining.held]
  rcases B.remaining.conts with - | ⟨f, fs⟩
  · rfl
  · rw [List.map_cons, heldFrom, if_neg (by omega)]

/-! A block of three frames, with priority fields and padding, in a buffer of 40 bytes that
wraps after five, received in five pieces. -/

theorem contFlags_more : (0x00 : UInt8) &&& h2FHeadersEndHeaders = 0 := by decide

theorem contFlags_last : (0x04 : UInt8) &&& h2FHeadersEndHeaders ≠ 0 := by decide

theorem contLength_more : ([0x84] : List UInt8).length < 2 ^ 24 := by decide

theorem contLength_last : ([0x41, 0x8c] : List UInt8).length < 2 ^ 24 := by decide

theorem firstFlags_priority : (0x29 : UInt8) &&& h2FHeadersPriority ≠ 0 := by decide

theorem firstFlags_headers : (0x29 : UInt8) &&& h2FHeadersEndHeaders = 0 := by decide

def threeFramesConts : List H2Continuation :=
  [⟨[0x84], 0x00, true, contLength_more⟩, ⟨[0x41, 0x8c], 0x04, false, contLength_last⟩]

theorem threeFramesConts_ended : H2Continuation.Ended threeFramesConts :=
  ⟨iff_of_false (not_not.mpr contFlags_more) (List.cons_ne_nil _ _), iff_of_true contFlags_last rfl,
    trivial⟩

theorem threeFrames_priority : ∀ p ∈ some ((3 : UInt32), (16 : UInt8)), p.1.toNat ≠ 1 := by
  rintro p hp
  obtain rfl := Option.some.inj hp
  decide

def threeFrames : H2HeaderBlock where
  sid := 1
  ff := 0x29
  priority := some (3, 16)
  fragment := [0x82, 0x86]
  padding := [0, 0, 0]
  conts := threeFramesConts
  sid_lt := Nat.one_lt_two_pow (Nat.succ_ne_zero 30)
  priority_iff := iff_of_true firstFlags_priority rfl
  priority_ne := threeFrames_priority
  headers_iff := iff_of_false (not_not.mpr firstFlags_headers) (List.cons_ne_nil _ _)
  ended := threeFramesConts_ended

def granting : H2Answers := ⟨some (List.replicate 40 0), true, true, fun _ => true, true⟩

def threeFramesCalls : List H2Demux.Call :=
  [([0, 0, 0, 3, 16, 0x82, 0x86, 0], granting), ([0, 0, 0, 0], granting),
    ([1, 9, 0, 0x80, 0, 0, 1, 0x84, 0], granting), ([0, 2, 9, 4, 0, 0, 0], granting),
    ([1, 0x41, 0x8c, 7, 7], granting)]

def threeFramesStart : H2Demux where
  dbuf := ⟨List.replicate 40 0xff, 35, 0⟩
  dsi := 1
  dfl := 10
  dpl := 3
  dff := 0x29
  st0 := .frameP
  demSalloc := false
  demSfull := false

theorem granting_of_mem {call : H2Demux.Call} (h : call ∈ threeFramesCalls) :
    call.2 = granting := by
  have hall : ∀ call ∈ threeFramesCalls, call.2 = granting := by simp [threeFramesCalls]
  exact hall call h

theorem granting_ready : granting.Ready := ⟨Option.some_ne_none _, rfl, rfl⟩

theorem headers_reassembled_threeFrames :
    ∃ c' r left, threeFramesStart.run 40 threeFramesCalls = .ok (c', r, left) ∧ r.ret = 1 ∧
      r.fed = some [0x82, 0x86, 0x84, 0x41, 0x8c] ∧
      c'.dbuf.content ++ left.flatMap Prod.fst = [7, 7] := by
  have hstart : threeFramesStart.Starts threeFrames :=
    ⟨⟨by decide, by decide⟩, rfl, rfl, by decide, by decide, rfl⟩
  have hfits : threeFrames.Fits (bSize threeFramesStart.dbuf) threeFramesCalls :=
    ⟨by decide, by decide, .inr ⟨by decide, by decide, .inr ⟨by decide, by decide,
      .inr ⟨by decide, by decide, .inr ⟨by decide, by decide, .inl ⟨by decide, granting_ready⟩⟩⟩⟩⟩⟩
  have hcalls : threeFramesCalls.flatMap Prod.fst = threeFrames.wire ++ [7, 7] := by decide
  have hchunk : ∀ call ∈ threeFramesCalls, ∀ t ∈ call.2.chunk,
      bSize threeFramesStart.dbuf ≤ t.length := by
    intro call hcall t ht
    rw [granting_of_mem hcall] at ht
    obtain rfl := Option.some.inj ht
    decide
  obtain ⟨c', r, left, hrun, -, hone, -, haccept⟩ :=
    headers_reassembled hstart hcalls hchunk hfits
  have hret : r.ret = 1 := haccept (List.cons_ne_nil _ _) fun call hcall => by
    rw [granting_of_mem hcall]
    exact ⟨granting_ready, rfl, rfl⟩
  obtain ⟨hfed, hcontent⟩ := hone hret
  exact ⟨c', r, left, hrun, hret, hfed, hcontent⟩

end SmartHAProxy
