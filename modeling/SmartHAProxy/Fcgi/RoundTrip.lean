/-
Parameters that are encoded, sent and decoded.

The encoder appends the bytes of a parameter to a chunk (`fcgiEncodeParam_eq`).
Wherever these bytes stand in a buffer, a decoder finds the lengths again, up to
31 bits, and returns pointers to the name and to the value; both are read
without wrapping.
-/
import SmartHAProxy.Fcgi.Param

namespace SmartHAProxy

variable {out out' : Buffer} {rest : List UInt8}

/-! ### What the encoder writes -/

def chunkData (out : Buffer) : List UInt8 := out.area.take out.data

def fcgiParamBytes (p : FcgiParam) : List UInt8 :=
  fcgiLenBytes p.n.length ++ (fcgiLenBytes p.v.length ++ (p.n.map fcgiNameChar ++ p.v))

def fcgiParamSize (p : FcgiParam) : ℕ :=
  fcgiLenSize p.n.length + fcgiLenSize p.v.length + (p.n.length + p.v.length)

theorem length_fcgiParamBytes (p : FcgiParam) : (fcgiParamBytes p).length = fcgiParamSize p := by
  simp only [fcgiParamBytes, fcgiParamSize, List.length_append, List.length_map,
    length_fcgiLenBytes]
  omega

theorem chunkPut_eq {blk : List UInt8} (h : out.data + blk.length ≤ bSize out) :
    ∃ out', chunkPut out blk = .ok out' ∧ bSize out' = bSize out ∧
      out'.data = out.data + blk.length ∧ chunkData out' = chunkData out ++ blk := by
  refine ⟨_, memWrite_bind h _, length_overwrite (.inr h), rfl, ?_⟩
  show (overwrite out.area out.data blk).take (out.data + blk.length) = _
  have hlen : (out.area.take out.data ++ blk).length = out.data + blk.length := by
    rw [bSize] at h
    rw [List.length_append, List.length_take, Nat.min_eq_left (by omega)]
  rw [overwrite, ← hlen]
  exact List.take_left

/-- **The encoder appends the bytes of the parameter.** -/
theorem fcgiEncodeParam_eq {p : FcgiParam} (h : fcgiEncodeParam out p = .ok (some out')) :
    out'.data = out.data + fcgiParamSize p ∧
      chunkData out' = chunkData out ++ fcgiParamBytes p := by
  rw [fcgiEncodeParam] at h
  by_cases hroom : out.data + fcgiLenSize p.n.length + p.n.length + fcgiLenSize p.v.length
      + p.v.length ≥ bSize out
  · rw [if_pos hroom] at h
    exact nomatch h
  rw [if_neg hroom] at h
  have hname : (p.n.map fcgiNameChar).length = p.n.length := List.length_map _
  have hnl := length_fcgiLenBytes p.n.length
  have hvl := length_fcgiLenBytes p.v.length
  obtain ⟨out₁, h₁, hs₁, hd₁, hc₁⟩ :=
    chunkPut_eq (by omega : out.data + (fcgiLenBytes p.n.length).length ≤ bSize out)
  obtain ⟨out₂, h₂, hs₂, hd₂, hc₂⟩ :=
    chunkPut_eq (by omega : out₁.data + (fcgiLenBytes p.v.length).length ≤ bSize out₁)
  obtain ⟨out₃, h₃, hs₃, hd₃, hc₃⟩ :=
    chunkPut_eq (by omega : out₂.data + (p.n.map fcgiNameChar).length ≤ bSize out₂)
  obtain ⟨out₄, h₄, hs₄, hd₄, hc₄⟩ :=
    chunkPut_eq (by omega : out₃.data + (p.v).length ≤ bSize out₃)
  simp only [h₁, h₂, h₃, h₄, bind, Except.bind] at h
  obtain rfl : out₄ = out' := Option.some.inj (Except.ok.inj h)
  constructor
  · rw [fcgiParamSize]
    omega
  · rw [hc₄, hc₃, hc₂, hc₁, fcgiParamBytes]
    simp only [List.append_assoc]

/-- A list of parameters is encoded one after the other. -/
def fcgiEncodeParams : Buffer → List FcgiParam → Except Fault (Option Buffer)
  | out, [] => .ok (some out)
  | out, p :: ps => do
    match ← fcgiEncodeParam out p with
    | none => pure none
    | some out => fcgiEncodeParams out ps

theorem fcgiEncodeParams_eq {ps : List FcgiParam} (h : fcgiEncodeParams out ps = .ok (some out')) :
    chunkData out' = chunkData out ++ (ps.map fcgiParamBytes).flatten := by
  induction ps generalizing out with
  | nil =>
    obtain rfl : out = out' := Option.some.inj (Except.ok.inj h)
    rw [List.map_nil, List.flatten_nil, List.append_nil]
  | cons p ps ih =>
    rw [fcgiEncodeParams] at h
    rcases hrun : fcgiEncodeParam out p with e | - | out₁
    · rw [hrun] at h
      exact nomatch h
    · rw [hrun] at h
      exact nomatch h
    · rw [hrun] at h
      rw [ih h, (fcgiEncodeParam_eq hrun).2, List.map_cons, List.flatten_cons, List.append_assoc]

/-! ### Decoding them -/

/-- The parameter as it is transmitted: its name in capitals, other characters replaced. -/
def FcgiParam.sent (p : FcgiParam) : FcgiParam := { p with n := p.n.map fcgiNameChar }

/-- So many parameters are decoded from the offset on, and read at their pointers. -/
def fcgiDecodeParams (dec : ℕ → Except Fault (Option FcgiDecoded)) (b : Buffer) :
    ℕ → ℕ → Except Fault (Option (List FcgiParam))
  | 0, _ => .ok (some [])
  | count + 1, o => do
    match ← dec o with
    | none => pure none
    | some d =>
      let n ← fcgiRead b d.n
      let v ← fcgiRead b d.v
      match ← fcgiDecodeParams dec b count (o + d.ret) with
      | none => pure none
      | some ps => pure (some (⟨n, v⟩ :: ps))

theorem fcgiDecodeParams_succ_iff {dec : ℕ → Except Fault (Option FcgiDecoded)} {b : Buffer}
    {count o : ℕ} {qs : List FcgiParam} :
    fcgiDecodeParams dec b (count + 1) o = .ok (some qs) ↔ ∃ d n v qs', dec o = .ok (some d) ∧
      fcgiRead b d.n = .ok n ∧ fcgiRead b d.v = .ok v ∧
        fcgiDecodeParams dec b count (o + d.ret) = .ok (some qs') ∧ qs = ⟨n, v⟩ :: qs' := by
  rw [fcgiDecodeParams]
  constructor
  · intro h
    rcases hdec : dec o with e | - | d
    · rw [hdec] at h
      exact nomatch h
    · rw [hdec] at h
      exact nomatch h
    rcases hn : fcgiRead b d.n with e | n
    · simp only [hdec, bind, Except.bind, hn] at h
      exact nomatch h
    rcases hv : fcgiRead b d.v with e | v
    · simp only [hdec, bind, Except.bind, hn, hv] at h
      exact nomatch h
    rcases hmore : fcgiDecodeParams dec b count (o + d.ret) with e | - | qs'
    all_goals simp only [hdec, bind, Except.bind, hn, hv, hmore] at h
    · exact nomatch h
    · exact nomatch h
    · exact ⟨d, n, v, qs', rfl, hn, hv, hmore, (Option.some.inj (Except.ok.inj h)).symm⟩
  · rintro ⟨d, n, v, qs', hdec, hn, hv, hmore, rfl⟩
    simp only [hdec, bind, Except.bind, hn, hv, hmore]
    rfl

/-- A block of `len` bytes from the position `pos` on stays within the area. -/
def InArea (b : Buffer) (pos len : ℕ) : Prop := len = 0 ∨ pos + len ≤ bSize b

/-- The parameters that start at the offset `o` have lengths of 31 bits, and no name or value
crosses the end of the area. -/
def Readable (addr : ℕ → ℕ) (b : Buffer) : ℕ → List FcgiParam → Prop
  | _, [] => True
  | o, p :: ps =>
    let o' := o + fcgiLenSize p.n.length + fcgiLenSize p.v.length
    (p.n.length < 2 ^ 31 ∧ p.v.length < 2 ^ 31) ∧
      (InArea b (addr o') p.n.length ∧ InArea b (addr (o' + p.n.length)) p.v.length) ∧
      Readable addr b (o + fcgiParamSize p) ps

section RoundTrip

variable {addr : ℕ → ℕ} {b : Buffer} {c : List UInt8}

theorem Presents.fcgiRead_eq (h : Presents addr b c) {o : ℕ} {blk : List UInt8}
    (hdrop : c.drop o = blk ++ rest) (hin : InArea b (addr o) blk.length) :
    fcgiRead b ⟨addr o, blk.length⟩ = .ok blk := by
  rw [fcgiRead, memRead_eq hin]
  refine congrArg Except.ok (List.ext_getElem? fun i => ?_)
  rw [getElem?_drop_take]
  split_ifs with hi
  · have hlen := congrArg List.length hdrop
    rw [List.length_drop, List.length_append] at hlen
    have hc : (c)[o + i]? = blk[i]? := by
      rw [← List.getElem?_drop, hdrop, List.getElem?_append_left hi]
    have hpos : addr (o + i) = addr o + i := by
      apply h.linear
      rcases hin with hz | hle
      · omega
      · omega
    rw [← hc, ← h.peek _ (by have := h.length; omega), hpos]
  · exact (List.getElem?_eq_none (by omega)).symm

theorem fcgiRead_inv {s : AreaIst} {blk : CStr} (h : fcgiRead b s = .ok blk) :
    blk.length = s.len ∧ InArea b s.ptr s.len := by
  rw [fcgiRead, memRead] at h
  split_ifs at h with hin
  obtain rfl := Except.ok.inj h
  refine ⟨?_, hin⟩
  rw [List.length_take, List.length_drop]
  rcases hin with hz | hle
  · rw [hz, Nat.zero_min]
  · omega

theorem Presents.fcgiDecode_sent (h : Presents addr b c) {o : ℕ} {p : FcgiParam}
    (hdrop : c.drop o = fcgiParamBytes p ++ rest) :
    fcgiDecode addr b o =
      .ok (some ⟨⟨addr (o + fcgiLenSize p.n.length + fcgiLenSize p.v.length), p.n.length % 2 ^ 31⟩,
        ⟨addr (o + fcgiLenSize p.n.length + fcgiLenSize p.v.length + p.n.length % 2 ^ 31),
          p.v.length % 2 ^ 31⟩,
        fcgiLenSize p.n.length + fcgiLenSize p.v.length
          + (p.n.length % 2 ^ 31 + p.v.length % 2 ^ 31)⟩) := by
  refine (h.fcgiDecode_iff o _).mpr ⟨fcgiLenBytes p.n.length, fcgiLenBytes p.v.length,
    p.n.length % 2 ^ 31, p.v.length % 2 ^ 31, p.n.map fcgiNameChar ++ p.v ++ rest,
    lenForm_fcgiLenBytes _, lenForm_fcgiLenBytes _, ?_, ?_, ?_⟩
  · rw [hdrop, fcgiParamBytes]
    simp only [List.append_assoc]
  · have hlen := congrArg List.length hdrop
    rw [List.length_drop, List.length_append, length_fcgiParamBytes, fcgiParamSize,
      h.length] at hlen
    have hn := Nat.mod_le p.n.length (2 ^ 31)
    have hv := Nat.mod_le p.v.length (2 ^ 31)
    omega
  · rw [length_fcgiLenBytes, length_fcgiLenBytes]

/-- **Parameters are given back** exactly when their lengths fit and none crosses the end of the
area. -/
theorem Presents.fcgiDecodeParams_iff (h : Presents addr b c) (ps : List FcgiParam) (o : ℕ)
    (rest : List UInt8) (hdrop : c.drop o = (ps.map fcgiParamBytes).flatten ++ rest) :
    fcgiDecodeParams (fcgiDecode addr b) b ps.length o = .ok (some (ps.map FcgiParam.sent)) ↔
      Readable addr b o ps := by
  induction ps generalizing o with
  | nil => exact iff_of_true rfl trivial
  | cons p ps ih =>
    rw [List.map_cons, List.flatten_cons, List.append_assoc] at hdrop
    have hrun := h.fcgiDecode_sent hdrop
    have hnext : c.drop (o + fcgiParamSize p) = (ps.map fcgiParamBytes).flatten ++ rest := by
      rw [← List.drop_drop, hdrop, ← length_fcgiParamBytes, List.drop_left]
    have hname : (p.n.map fcgiNameChar).length = p.n.length := List.length_map _
    -- where the name and the value stand
    have hdropn : c.drop (o + fcgiLenSize p.n.length + fcgiLenSize p.v.length)
        = p.n.map fcgiNameChar ++ (p.v ++ ((ps.map fcgiParamBytes).flatten ++ rest)) := by
      rw [fcgiParamBytes] at hdrop
      rw [← List.drop_drop, ← List.drop_drop, hdrop, List.append_assoc,
        ← length_fcgiLenBytes p.n.length, List.drop_left, List.append_assoc,
        ← length_fcgiLenBytes p.v.length, List.drop_left, List.append_assoc]
    have hdropv : c.drop (o + fcgiLenSize p.n.length + fcgiLenSize p.v.length + p.n.length)
        = p.v ++ ((ps.map fcgiParamBytes).flatten ++ rest) := by
      rw [← List.drop_drop, hdropn, ← hname, List.drop_left]
    rw [List.length_cons, fcgiDecodeParams_succ_iff, Readable]
    constructor
    · -- the lengths of what was read are those of the parameter
      rintro ⟨d, n, v, qs', hdec, hn, hv, hmore, heq⟩
      obtain rfl := Option.some.inj (Except.ok.inj (hrun.symm.trans hdec))
      obtain ⟨hp, rfl⟩ := List.cons.inj heq
      obtain ⟨rfl, rfl⟩ := FcgiParam.mk.inj hp
      obtain ⟨hnlen, hnin⟩ := fcgiRead_inv hn
      obtain ⟨hvlen, hvin⟩ := fcgiRead_inv hv
      have hnmod : p.n.length = p.n.length % 2 ^ 31 := hname.symm.trans hnlen
      have hvmod : p.v.length = p.v.length % 2 ^ 31 := hvlen
      simp only [← hnmod, ← hvmod] at hnin hvin hmore
      exact ⟨⟨by omega, by omega⟩, ⟨hnin, hvin⟩, (ih _ hnext).mp hmore⟩
    · rintro ⟨⟨hn31, hv31⟩, ⟨hnin, hvin⟩, hmore⟩
      rw [Nat.mod_eq_of_lt hn31, Nat.mod_eq_of_lt hv31] at hrun
      refine ⟨_, _, _, _, hrun, ?_, h.fcgiRead_eq hdropv hvin, (ih _ hnext).mpr hmore, rfl⟩
      have hread := h.fcgiRead_eq hdropn (hname.symm ▸ hnin)
      rwa [hname] at hread

end RoundTrip

/-! ### Both decoders -/

theorem drop_chunkData {ps : List FcgiParam} (h : fcgiEncodeParams out ps = .ok (some out')) :
    (chunkData out').drop out.data = (ps.map fcgiParamBytes).flatten := by
  have heq := fcgiEncodeParams_eq h
  rcases Nat.lt_or_ge (bSize out) out.data with hbig | hle
  · -- a chunk that holds more than its size takes no parameter
    cases ps with
    | nil =>
      rw [heq, List.map_nil, List.flatten_nil, List.append_nil, chunkData]
      apply List.drop_of_length_le
      rw [List.length_take]
      exact Nat.min_le_left _ _
    | cons p ps =>
      rw [fcgiEncodeParams, fcgiEncodeParam, if_pos (by omega)] at h
      exact nomatch h
  · have hlen : (chunkData out).length = out.data := by
      rw [chunkData, List.length_take]
      exact Nat.min_eq_left hle
    rw [heq, ← hlen, List.drop_left]

theorem readable_id_iff {b : Buffer} (hb : b.data ≤ bSize b) {c : List UInt8}
    (hc : c.length = b.data) (ps : List FcgiParam) (o : ℕ)
    (hdrop : c.drop o = (ps.map fcgiParamBytes).flatten ++ rest) :
    Readable id b o ps ↔ ∀ p ∈ ps, p.n.length < 2 ^ 31 ∧ p.v.length < 2 ^ 31 := by
  induction ps generalizing o with
  | nil => exact iff_of_true trivial fun p hp => absurd hp List.not_mem_nil
  | cons p ps ih =>
    rw [List.map_cons, List.flatten_cons, List.append_assoc] at hdrop
    have hnext : c.drop (o + fcgiParamSize p) = (ps.map fcgiParamBytes).flatten ++ rest := by
      rw [← List.drop_drop, hdrop, ← length_fcgiParamBytes, List.drop_left]
    have hlen := congrArg List.length hdrop
    rw [List.length_drop, List.length_append, length_fcgiParamBytes, fcgiParamSize] at hlen
    have hsize : 0 < fcgiLenSize p.n.length := by
      rw [fcgiLenSize]
      split_ifs
      · exact Nat.zero_lt_one
      · exact Nat.zero_lt_succ 3
    rw [List.forall_mem_cons, Readable, ih _ hnext]
    refine and_congr_right fun _ => and_iff_right ⟨.inr ?_, .inr ?_⟩
    · show o + fcgiLenSize p.n.length + fcgiLenSize p.v.length + p.n.length ≤ _
      omega
    · show o + fcgiLenSize p.n.length + fcgiLenSize p.v.length + p.n.length + p.v.length ≤ _
      omega

/-- A decoder gives back the parameters that stand at the offset `o`. -/
def GivesBack (dec : ℕ → Except Fault (Option FcgiDecoded)) (b : Buffer) (o : ℕ)
    (ps : List FcgiParam) : Prop :=
  fcgiDecodeParams dec b ps.length o = .ok (some (ps.map FcgiParam.sent))

/-- **Parameters are given back** by the first decoder exactly when their lengths have 31 bits and
no name or value crosses the end of the area, and by the second one, in a buffer that starts with
its area, exactly when the lengths have 31 bits.  **The returned length stays within the data**
exactly when no parameter is announced that overruns the data without being longer than it. -/
theorem fcgi_param_iff (b : Buffer) (hb : b.Valid) (o : ℕ) :
    (∀ out out' ps, fcgiEncodeParams out ps = .ok (some out') →
        (chunkData out').drop out.data <+: b.content.drop o →
      (GivesBack (fcgiDecodeParam b) b o ps ↔ Readable (bPeekOfs b) b o ps) ∧
        (b.head = 0 → (GivesBack (fcgiAlignedDecodeParam b) b o ps ↔
          ∀ p ∈ ps, p.n.length < 2 ^ 31 ∧ p.v.length < 2 ^ 31))) ∧
      (DecodesInside (fcgiDecodeParam b) b o ↔ ¬ Overruns b.content o) ∧
      (b.head = 0 → (DecodesInside (fcgiAlignedDecodeParam b) b o ↔ ¬ Overruns b.content o)) := by
  have hwrap := presents_bPeekOfs hb
  have halign (h0 : b.head = 0) : Presents id b b.content := by
    have hcontent : b.content = b.area.take b.data := by
      rw [Buffer.content, h0, List.drop_zero, List.take_zero, List.append_nil]
    rw [hcontent]
    exact presents_id hb.data_le
  refine ⟨fun out out' ps henc hpre => ?_, hwrap.decodesInside_iff o,
    fun h0 => (halign h0).decodesInside_iff o⟩
  rw [drop_chunkData henc] at hpre
  obtain ⟨rest, hrest⟩ := hpre
  refine ⟨hwrap.fcgiDecodeParams_iff ps o rest hrest.symm, fun h0 => ?_⟩
  exact ((halign h0).fcgiDecodeParams_iff ps o rest hrest.symm).trans
    (readable_id_iff hb.data_le hb.length_content ps o hrest.symm)

theorem fcgi_param_iff_wrapped :
    GivesBack (fcgiDecodeParam ⟨[66, 67, 0, 0, 0, 1, 2, 65], 5, 5⟩)
        ⟨[66, 67, 0, 0, 0, 1, 2, 65], 5, 5⟩ 0 [⟨[97], [66, 67]⟩] ∧
      ∀ o, DecodesInside (fcgiDecodeParam ⟨[66, 67, 0, 0, 0, 1, 2, 65], 5, 5⟩)
          ⟨[66, 67, 0, 0, 0, 1, 2, 65], 5, 5⟩ o ↔
        ¬ Overruns (Buffer.content ⟨[66, 67, 0, 0, 0, 1, 2, 65], 5, 5⟩) o :=
  ⟨((fcgi_param_iff _ ⟨by decide, by decide⟩ 0).1 ⟨[0, 0, 0, 0, 0, 0], 0, 0⟩
      ⟨[1, 2, 65, 66, 67, 0], 0, 5⟩ [⟨[97], [66, 67]⟩] rfl (by decide)).1.mpr
      ⟨⟨by decide, by decide⟩, ⟨.inr (by decide), .inr (by decide)⟩, trivial⟩,
    fun o => (fcgi_param_iff _ ⟨by decide, by decide⟩ o).2.1⟩

/-- The value of `A=BC` crosses the end of the area; and of two bytes that announce a name and a
value of one byte each, four are said to be read. -/
theorem not_fcgi_param :
    ¬ (∀ b : Buffer, b.Valid → ∀ o out out' ps, fcgiEncodeParams out ps = .ok (some out') →
        (chunkData out').drop out.data <+: b.content.drop o →
          GivesBack (fcgiDecodeParam b) b o ps) ∧
      ¬ (∀ b : Buffer, b.Valid → ∀ o, DecodesInside (fcgiDecodeParam b) b o) := by
  constructor
  · intro h
    have := h ⟨[67, 0, 0, 0, 1, 2, 65, 66], 4, 5⟩ ⟨by decide, by decide⟩ 0
      ⟨[0, 0, 0, 0, 0, 0], 0, 0⟩ ⟨[1, 2, 65, 66, 67, 0], 0, 5⟩ [⟨[97], [66, 67]⟩] rfl (by decide)
    exact nomatch this
  · intro h
    have := h ⟨[1, 1], 0, 2⟩ ⟨by decide, by decide⟩ 0 ⟨⟨0, 1⟩, ⟨1, 1⟩, 4⟩ rfl
    exact absurd this (by decide)

end SmartHAProxy
