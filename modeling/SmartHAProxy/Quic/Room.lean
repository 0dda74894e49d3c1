/-
How much data of a CRYPTO frame fits in the room of a packet (xprt_quic.h, xprt_quic.c).

The data is prefixed by its length, and the packet by a Length field that counts this prefix
too; both prefixes have 1, 2, 4 or 8 bytes.  `maxStreamDataSize_eq` gives the result in terms
of the room behind the Length field.  When a byte that the shorter prefix leaves free is
given to the data, the data may need the longer prefix again (`Overshoots`).
-/
import SmartHAProxy.Quic.Int

namespace SmartHAProxy

variable {sz a : ℕ} {p : ℕ × ℕ}

namespace Quic

/-! ### The source -/

def quicMaxInt (sz : ℕ) : ℕ :=
  if sz = 1 then varint1ByteMax
  else if sz = 2 then varint2ByteMax
  else if sz = 4 then varint4ByteMax
  else if sz = 8 then varint8ByteMax
  else 2 ^ 64 - 1

/-- `max_available_room`: the room, and the size of its length. -/
def maxAvailableRoom (sz : ℕ) : ℕ × ℕ :=
  let szSz := quicIntGetsize sz
  if sz ≤ szSz then (0, 0)
  else
    let ret := sz - szSz
    let lenSz := quicIntGetsize ret
    let diff := szSz - lenSz
    (if diff > 0 then ret + diff else ret, lenSz)

/-- The loop of `max_stream_data_size` over the sizes of the Length field. -/
def maxStreamDataLoop (sz ilen dlen : ℕ) : ℕ → ℕ → ℕ
  | 0, _ => 0
  | fuel + 1, lenSz =>
    if sz < lenSz + ilen then 0
    else
      let (ret, dlenSz) := maxAvailableRoom (sz - lenSz - ilen)
      if ret = 0 then 0
      else if lenSz + ilen + dlenSz + ret ≤ quicMaxInt lenSz then min ret dlen
      else maxStreamDataLoop sz ilen dlen fuel (lenSz * 2)

/-- `max_stream_data_size`.  There are four sizes. -/
def maxStreamDataSize (sz ilen dlen : ℕ) : ℕ :=
  maxStreamDataLoop sz ilen dlen 4 (quicIntGetsize ilen)

/-- The CRYPTO frames that wait for a packet. -/
structure QuicCrypto where
  offset : ℕ
  len : ℕ

/-- What `qc_build_cfrms` changes. -/
structure CfrmsBuild where
  room : ℕ
  len : ℕ
  cdataLen : ℕ
  frms : List QuicCrypto
  waiting : List QuicCrypto
  ret : Bool

/-- The loop of `qc_build_cfrms`.  The room is a `size_t`; `alloc` tells whether the
allocations succeed. -/
def qcBuildCfrmsLoop (alloc : ℕ → Bool) : ℕ → CfrmsBuild → List QuicCrypto → CfrmsBuild
  | _, s, [] => s
  | n, s, cf :: cfs =>
    if s.room = 0 then { s with waiting := s.waiting ++ cf :: cfs }
    else
      let hlen := 1 + quicIntGetsize cf.offset
      let dlen := maxStreamDataSize s.room (s.len + hlen) cf.len
      if dlen = 0 then { s with waiting := s.waiting ++ cf :: cfs }
      else
        let cflen := hlen + quicIntGetsize dlen + dlen
        let s := { s with
          cdataLen := s.cdataLen + dlen
          len := s.len + cflen
          room := (s.room + (2 ^ 64 - cflen)) % 2 ^ 64 }
        if dlen = cf.len then
          qcBuildCfrmsLoop alloc n { s with frms := s.frms ++ [cf], ret := true } cfs
        else if alloc n then
          qcBuildCfrmsLoop alloc (n + 1)
            { s with
              frms := s.frms ++ [⟨cf.offset, dlen⟩]
              waiting := s.waiting ++ [⟨cf.offset + dlen, cf.len - dlen⟩]
              ret := true } cfs
        else { s with waiting := s.waiting ++ cf :: cfs, ret := false }

/-- The room that `qc_build_cfrms` starts with.  `window` is `quic_path_prep_data`, and `pto`
tells whether datagrams are sent to probe. -/
def cfrmsRoom (pto : Bool) (window room headlen : ℕ) : ℕ :=
  if pto then room else min room ((window + (2 ^ 64 - headlen)) % 2 ^ 64)

def qcBuildCfrms (alloc : ℕ → Bool) (pto : Bool) (window room len headlen : ℕ)
    (cfs : List QuicCrypto) : CfrmsBuild :=
  qcBuildCfrmsLoop alloc 0 ⟨cfrmsRoom pto window room headlen, len, 0, [], [], false⟩ cfs

/-! ### Sizes -/

theorem le_quicMaxInt_iff {n j : ℕ} (hj : j < 4) (hn : n < 2 ^ 62) :
    n ≤ quicMaxInt (2 ^ j) ↔ quicIntGetsize n ≤ 2 ^ j := by
  have hspec := quicIntGetsize_spec n
  rcases j with - | - | - | - | j
  · show n ≤ 2 ^ 6 - 1 ↔ _ ≤ 1
    omega
  · show n ≤ 2 ^ 14 - 1 ↔ _ ≤ 2
    omega
  · show n ≤ 2 ^ 30 - 1 ↔ _ ≤ 4
    omega
  · show n ≤ 2 ^ 62 - 1 ↔ _ ≤ 8
    omega
  · omega

def quicMinInt (sz : ℕ) : ℕ :=
  if sz = 1 then 0
  else if sz = 2 then varint1ByteMax + 1
  else if sz = 4 then varint2ByteMax + 1
  else varint4ByteMax + 1

theorem quicMinInt_le_iff {m n : ℕ} (hle : m ≤ n) (hn : n < 2 ^ 62) :
    quicMinInt (quicIntGetsize n) ≤ m ↔ quicIntGetsize m = quicIntGetsize n := by
  have hm := quicIntGetsize_spec m
  rcases quicIntGetsize_spec n with h | h | h | h | h
  · rw [h.2]
    show 0 ≤ m ↔ _
    omega
  · rw [h.2.2]
    show 64 ≤ m ↔ _
    omega
  · rw [h.2.2]
    show 16384 ≤ m ↔ _
    omega
  · rw [h.2.2]
    show 2 ^ 30 ≤ m ↔ _
    omega
  · omega

/-! ### max_available_room -/

theorem maxAvailableRoom_eq (h : 2 ≤ sz) (hsz : sz < 2 ^ 62) :
    maxAvailableRoom sz = (sz - quicIntGetsize (sz - quicIntGetsize sz),
      quicIntGetsize (sz - quicIntGetsize sz)) := by
  have hspec := quicIntGetsize_spec sz
  have hmono := quicIntGetsize_mono (Nat.sub_le sz (quicIntGetsize sz)) hsz
  rw [maxAvailableRoom]
  dsimp only
  rw [if_neg (by omega)]
  generalize quicIntGetsize (sz - quicIntGetsize sz) = lenSz at hmono ⊢
  congr 1
  split_ifs <;> omega

theorem maxAvailableRoom_sum (h : 2 ≤ sz) (hsz : sz < 2 ^ 62) :
    (maxAvailableRoom sz).1 ≠ 0 ∧ (maxAvailableRoom sz).2 + (maxAvailableRoom sz).1 = sz := by
  have hspec := quicIntGetsize_spec sz
  have hlen := quicIntGetsize_spec (sz - quicIntGetsize sz)
  rw [maxAvailableRoom_eq h hsz]
  dsimp only
  omega

theorem maxAvailableRoom_eq_zero (h : sz < 2) : (maxAvailableRoom sz).1 = 0 := by
  have hspec := quicIntGetsize_spec sz
  rw [maxAvailableRoom]
  dsimp only
  rw [if_pos (by omega)]

/-- The first number of each size but the smallest, and half of this size. -/
def prefixEdges : List (ℕ × ℕ) := [(64, 1), (16384, 2), (2 ^ 30, 4)]

theorem room_cases (h : 2 ≤ a) (ha : a < 2 ^ 62) : let s := quicIntGetsize (a - quicIntGetsize a)
    0 < s ∧ s < a ∧ (quicIntGetsize (a - s) = s ∨
      ∃ p ∈ prefixEdges, p.1 + p.2 ≤ a ∧ a < p.1 + 2 * p.2 ∧ s = p.2) := by
  have hspec := quicIntGetsize_spec a
  have hlen := quicIntGetsize_spec (a - quicIntGetsize a)
  have hroom := quicIntGetsize_spec (a - quicIntGetsize (a - quicIntGetsize a))
  dsimp only
  generalize quicIntGetsize (a - quicIntGetsize a) = s at hlen hroom ⊢
  refine ⟨by omega, by omega, ?_⟩
  by_cases hsame : quicIntGetsize (a - s) = s
  · exact .inl hsame
  · right
    rcases hlen with ⟨hl, rfl⟩ | ⟨hl, hl', rfl⟩ | ⟨hl, hl', rfl⟩ | ⟨hl, hl', rfl⟩ | ⟨hl, rfl⟩
    · exact ⟨(64, 1), by simp [prefixEdges], by omega, by omega, rfl⟩
    · exact ⟨(16384, 2), by simp [prefixEdges], by omega, by omega, rfl⟩
    · exact ⟨(2 ^ 30, 4), by simp [prefixEdges], by omega, by omega, rfl⟩
    · omega
    · omega

theorem room_edge (hp : p ∈ prefixEdges) (hle : p.1 + p.2 ≤ a) (hlt : a < p.1 + 2 * p.2) :
    quicIntGetsize (a - quicIntGetsize a) = p.2 ∧
      ∀ r, p.1 ≤ r → r ≤ a → quicIntGetsize r = 2 * p.2 := by
  have hspec := quicIntGetsize_spec a
  have hlen := quicIntGetsize_spec (a - quicIntGetsize a)
  simp only [prefixEdges, List.mem_cons, List.not_mem_nil, or_false] at hp
  rcases hp with rfl | rfl | rfl
  all_goals
    dsimp only at hle hlt ⊢
    refine ⟨by omega, fun r h1 h2 => ?_⟩
    have hr := quicIntGetsize_spec r
    omega

/-! ### max_stream_data_size -/

/-- The loop stops at the size of the Length field that counts the whole buffer. -/
theorem maxStreamDataLoop_eq {ilen dlen : ℕ} (hsz : sz < 2 ^ 62) {fuel j : ℕ} (hj : 4 ≤ j + fuel)
    (hle : 2 ^ j ≤ quicIntGetsize sz) :
    maxStreamDataLoop sz ilen dlen fuel (2 ^ j) =
      if sz < ilen + quicIntGetsize sz + 2 then 0
      else min (maxAvailableRoom (sz - quicIntGetsize sz - ilen)).1 dlen := by
  have hj4 : j < 4 := by
    by_contra h
    have hpow : 2 ^ 4 ≤ 2 ^ j := Nat.pow_le_pow_right (by omega) (Nat.le_of_not_lt h)
    have hle8 := quicIntGetsize_le sz
    omega
  induction fuel generalizing j with
  | zero => omega
  | succ fuel ih =>
    rw [maxStreamDataLoop]
    by_cases hroom : sz < 2 ^ j + ilen
    · rw [if_pos hroom, if_pos (by omega)]
    · rw [if_neg hroom]
      by_cases htwo : sz - 2 ^ j - ilen < 2
      · dsimp only
        rw [if_pos (maxAvailableRoom_eq_zero htwo), if_pos (by omega)]
      · -- the room and its length make up the rest of the buffer
        have hpos := Nat.two_pow_pos j
        obtain ⟨hne, hsum⟩ := maxAvailableRoom_sum (Nat.le_of_not_lt htwo)
          (show sz - 2 ^ j - ilen < 2 ^ 62 by omega)
        have hmax := le_quicMaxInt_iff hj4 hsz
        rcases hrun : maxAvailableRoom (sz - 2 ^ j - ilen) with ⟨ret, dlenSz⟩
        rw [hrun] at hne hsum
        dsimp only at hne hsum ⊢
        rw [if_neg hne, show 2 ^ j + ilen + dlenSz + ret = sz by omega]
        by_cases hfit : sz ≤ quicMaxInt (2 ^ j)
        · have hL : quicIntGetsize sz = 2 ^ j := Nat.le_antisymm (hmax.mp hfit) hle
          rw [if_pos hfit, hL, if_neg (by omega), hrun]
        · rw [if_neg hfit]
          obtain ⟨k, hk, hsize, -⟩ := quicIntGetsize_cases hsz
          rw [hmax, hsize, Nat.pow_le_pow_iff_right (by omega)] at hfit
          have hnext : 2 ^ (j + 1) ≤ quicIntGetsize sz := by
            rw [hsize]
            exact Nat.pow_le_pow_right (by omega) (by omega)
          have hrest := ih (by omega) hnext (by omega)
          rw [Nat.pow_succ] at hrest
          exact hrest

/-- **The result**: the room behind a Length field that counts the whole buffer. -/
theorem maxStreamDataSize_eq (hsz : sz < 2 ^ 62) (ilen dlen : ℕ) :
    maxStreamDataSize sz ilen dlen =
      if sz < ilen + quicIntGetsize sz + 2 then 0
      else min (maxAvailableRoom (sz - quicIntGetsize sz - ilen)).1 dlen := by
  rw [maxStreamDataSize]
  by_cases hilen : ilen ≤ sz
  · obtain ⟨j, hj, hsize, -⟩ := quicIntGetsize_cases (Nat.lt_of_le_of_lt hilen hsz)
    have hle := quicIntGetsize_mono hilen hsz
    rw [hsize] at hle ⊢
    exact maxStreamDataLoop_eq hsz (by omega) hle
  · rw [maxStreamDataLoop, if_pos (by omega), if_pos (by omega)]

/-! ### The exact condition -/

/-- What `max_stream_data_size` returns fits in the buffer, with all its prefixes. -/
def StreamDataFits (sz ilen dlen : ℕ) : Prop :=
  let r := maxStreamDataSize sz ilen dlen
  0 < r → r ≤ dlen ∧
    ilen + quicIntGetsize r + r + quicIntGetsize (ilen + quicIntGetsize r + r) ≤ sz

/-- The room behind the Length field is `p.2` to `2 * p.2 - 1` bytes more than the number
`p.1`, there is as much data, and the Length field needs the size of that of the buffer. -/
def Overshoots (sz ilen dlen : ℕ) : Prop :=
  ∃ p ∈ prefixEdges, p.1 ≤ dlen ∧ ilen + quicIntGetsize sz + p.1 + p.2 ≤ sz ∧
    sz < ilen + quicIntGetsize sz + p.1 + 2 * p.2 ∧
    quicMinInt (quicIntGetsize sz) + quicIntGetsize sz ≤ sz + p.2 ∧
    quicMinInt (quicIntGetsize sz) ≤ ilen + 2 * p.2 + dlen

theorem fits_of_le {total : ℕ} (hsz : sz < 2 ^ 62) (h : total + quicIntGetsize sz ≤ sz) :
    total + quicIntGetsize total ≤ sz := by
  have hmono := quicIntGetsize_mono (show total ≤ sz by omega) hsz
  omega

theorem edge_unique {q : ℕ × ℕ} (hp : p ∈ prefixEdges) (hq : q ∈ prefixEdges) (hp1 : p.1 + p.2 ≤ a)
    (hp2 : a < p.1 + 2 * p.2) (hq1 : q.1 + q.2 ≤ a) (hq2 : a < q.1 + 2 * q.2) : p = q := by
  simp only [prefixEdges, List.mem_cons, List.not_mem_nil, or_false] at hp hq
  rcases hp with rfl | rfl | rfl <;> rcases hq with rfl | rfl | rfl <;>
    first | rfl | (dsimp only at hp1 hp2 hq1 hq2; omega)

theorem quicIntGetsize_lt_edge (hp : p ∈ prefixEdges) {r : ℕ} (hr : r < p.1) :
    quicIntGetsize r ≤ p.2 ∧ 0 < p.1 ∧ 0 < p.2 := by
  have hspec := quicIntGetsize_spec r
  simp only [prefixEdges, List.mem_cons, List.not_mem_nil, or_false] at hp
  rcases hp with rfl | rfl | rfl <;> (dsimp only at hr ⊢; omega)

theorem two_mul_quicIntGetsize_le {m n : ℕ} (hle : m ≤ n) (hn : n < 2 ^ 62)
    (hne : quicIntGetsize m ≠ quicIntGetsize n) : 2 * quicIntGetsize m ≤ quicIntGetsize n := by
  have hm := quicIntGetsize_spec m
  have hn := quicIntGetsize_spec n
  omega

theorem overshoots_iff {ilen dlen : ℕ} (hp : p ∈ prefixEdges)
    (ha : sz = quicIntGetsize sz + ilen + a) (hle : p.1 + p.2 ≤ a) (hlt : a < p.1 + 2 * p.2) :
    Overshoots sz ilen dlen ↔ p.1 ≤ dlen ∧
      quicMinInt (quicIntGetsize sz) ≤ ilen + 2 * p.2 + min (a - p.2) dlen := by
  constructor
  · rintro ⟨q, hq, hd, h1, h2, h3, h4⟩
    obtain rfl := edge_unique hp hq hle hlt (by omega) (by omega)
    exact ⟨hd, by omega⟩
  · rintro ⟨hd, hmin⟩
    exact ⟨p, hp, hd, by omega, by omega, by omega, by omega⟩

/-- **The data fits** if and only if it does not overshoot. -/
theorem streamDataFits_iff (hsz : sz < 2 ^ 62) (ilen dlen : ℕ) :
    StreamDataFits sz ilen dlen ↔ ¬ Overshoots sz ilen dlen := by
  rw [StreamDataFits, maxStreamDataSize_eq hsz]
  split_ifs with hroom
  · -- no room at all
    refine iff_of_true (fun h => absurd h (Nat.lt_irrefl 0)) ?_
    rintro ⟨p, hp, -, hle, -⟩
    simp only [prefixEdges, List.mem_cons, List.not_mem_nil, or_false] at hp
    rcases hp with rfl | rfl | rfl <;> (dsimp only at hle; omega)
  · obtain ⟨a, ha⟩ : ∃ a, a = sz - quicIntGetsize sz - ilen := ⟨_, rfl⟩
    have ha2 : 2 ≤ a := by omega
    have ha62 : a < 2 ^ 62 := by omega
    have hsum : sz = quicIntGetsize sz + ilen + a := by omega
    rw [← ha, maxAvailableRoom_eq ha2 ha62]
    obtain ⟨hs, hsa, hcases⟩ := room_cases ha2 ha62
    dsimp only
    rcases hcases with hsame | ⟨p, hp, hle, hlt, hsp⟩
    · -- away from the edges the prefix is as long as it was taken for
      have hnot : ¬ Overshoots sz ilen dlen := by
        rintro ⟨q, hq, -, h1, h2, -⟩
        obtain ⟨hsq, hsize⟩ := room_edge hq (show q.1 + q.2 ≤ a by omega) (by omega)
        rw [hsq] at hsame hs
        rw [hsize (a - q.2) (by omega) (by omega)] at hsame
        omega
      refine iff_of_true (fun hr => ⟨Nat.min_le_right _ _, ?_⟩) hnot
      apply fits_of_le hsz
      have hmono := quicIntGetsize_mono (Nat.min_le_left
        (a - quicIntGetsize (a - quicIntGetsize a)) dlen) (by omega)
      omega
    · rw [hsp, overshoots_iff hp hsum hle hlt]
      by_cases hd : p.1 ≤ dlen
      · -- the prefix is longer than it was taken for
        obtain ⟨-, hsize⟩ := room_edge hp hle hlt
        have hr := hsize (min (a - p.2) dlen) (by omega) (by omega)
        have hL : 2 * p.2 ≤ quicIntGetsize sz := by
          rw [← hsize a (by omega) (Nat.le_refl a)]
          exact quicIntGetsize_mono (by omega) hsz
        have htotal : ilen + 2 * p.2 + min (a - p.2) dlen ≤ sz := by omega
        have hmin : p.1 ≤ min (a - p.2) dlen := by omega
        have hmax : min (a - p.2) dlen ≤ a - p.2 := Nat.min_le_left _ _
        have hpos : 0 < p.1 := by
          rcases Nat.eq_zero_or_pos p.1 with h0 | hpos
          · have := hsize 0 (by omega) (Nat.zero_le a)
            have hone : quicIntGetsize 0 = 1 := rfl
            omega
          · exact hpos
        have hhalf := two_mul_quicIntGetsize_le htotal hsz
        rw [hr, quicMinInt_le_iff htotal hsz]
        have hrd : min (a - p.2) dlen ≤ dlen := Nat.min_le_right _ _
        generalize min (a - p.2) dlen = r at *
        constructor
        · rintro hfits ⟨-, hsame⟩
          have := (hfits (by omega)).2
          omega
        · intro hnot _
          have hne := hhalf fun h => hnot ⟨hd, h⟩
          exact ⟨hrd, by omega⟩
      · have hr : min (a - p.2) dlen < p.1 := by omega
        obtain ⟨hsize, -⟩ := quicIntGetsize_lt_edge hp hr
        refine iff_of_true (fun hr => ⟨Nat.min_le_right _ _, ?_⟩) fun h => hd h.1
        apply fits_of_le hsz
        omega

/-! ### qc_build_cfrms -/

theorem maxStreamDataSize_le (hsz : sz < 2 ^ 62) (ilen dlen : ℕ) {r : ℕ}
    (hr : maxStreamDataSize sz ilen dlen = r) (hpos : 0 < r) :
    ilen + quicIntGetsize r + r ≤ sz := by
  rw [maxStreamDataSize_eq hsz] at hr
  split_ifs at hr with hroom
  · omega
  · obtain ⟨a, ha⟩ : ∃ a, a = sz - quicIntGetsize sz - ilen := ⟨_, rfl⟩
    have ha2 : 2 ≤ a := by omega
    have ha62 : a < 2 ^ 62 := by omega
    rw [← ha, maxAvailableRoom_eq ha2 ha62] at hr
    obtain ⟨hs, hsa, hcases⟩ := room_cases ha2 ha62
    dsimp only at hr
    have hmono := quicIntGetsize_mono (Nat.min_le_left
      (a - quicIntGetsize (a - quicIntGetsize a)) dlen) (by omega)
    have hL := quicIntGetsize_mono (show a ≤ sz by omega) hsz
    rw [hr] at hmono
    rcases hcases with hsame | ⟨p, hp, hle, hlt, hsp⟩
    · omega
    · obtain ⟨-, hsize⟩ := room_edge hp hle hlt
      have ha := hsize a (by omega) (Nat.le_refl a)
      rw [hsp] at hr hmono
      rw [hsize (a - p.2) (by omega) (by omega)] at hmono
      omega

theorem sub_room {room cflen : ℕ} (h : cflen ≤ room) (hroom : room < 2 ^ 62) :
    (room + (2 ^ 64 - cflen)) % 2 ^ 64 = room - cflen := by
  omega

theorem qcBuildCfrmsLoop_room (alloc : ℕ → Bool) (n : ℕ) {s : CfrmsBuild}
    (hroom : s.room < 2 ^ 62) (cfs : List QuicCrypto) :
    (qcBuildCfrmsLoop alloc n s cfs).room + (qcBuildCfrmsLoop alloc n s cfs).len =
      s.room + s.len := by
  induction cfs generalizing n s with
  | nil => rfl
  | cons cf cfs ih =>
    rw [qcBuildCfrmsLoop]
    by_cases h0 : s.room = 0
    · rw [if_pos h0]
    rw [if_neg h0]
    dsimp only
    by_cases hdlen : maxStreamDataSize s.room (s.len + (1 + quicIntGetsize cf.offset)) cf.len = 0
    · rw [if_pos hdlen]
    rw [if_neg hdlen]
    have hle := maxStreamDataSize_le hroom (s.len + (1 + quicIntGetsize cf.offset)) cf.len rfl
      (Nat.pos_of_ne_zero hdlen)
    generalize maxStreamDataSize s.room (s.len + (1 + quicIntGetsize cf.offset)) cf.len = dlen
      at hle ⊢
    -- the frame is not longer than the room
    have hcflen : 1 + quicIntGetsize cf.offset + quicIntGetsize dlen + dlen ≤ s.room := by omega
    rw [sub_room hcflen hroom]
    have hlt : s.room - (1 + quicIntGetsize cf.offset + quicIntGetsize dlen + dlen) < 2 ^ 62 :=
      Nat.lt_of_le_of_lt (Nat.sub_le _ _) hroom
    have hsum : s.room - (1 + quicIntGetsize cf.offset + quicIntGetsize dlen + dlen) +
        (s.len + (1 + quicIntGetsize cf.offset + quicIntGetsize dlen + dlen)) =
        s.room + s.len := by omega
    split_ifs
    · exact (ih n hlt).trans hsum
    · exact (ih (n + 1) hlt).trans hsum
    · exact hsum

/-- **CRYPTO frames fit** the room if and only if their data does not overshoot, and the room
of `qc_build_cfrms` never wraps: it loses what the packet gains. -/
theorem cryptoFits_iff (hsz : sz < 2 ^ 62) (ilen dlen : ℕ) :
    (StreamDataFits sz ilen dlen ↔ ¬ Overshoots sz ilen dlen) ∧
      ∀ alloc pto window len headlen cfs,
        (qcBuildCfrms alloc pto window sz len headlen cfs).room +
            (qcBuildCfrms alloc pto window sz len headlen cfs).len =
          cfrmsRoom pto window sz headlen + len := by
  refine ⟨streamDataFits_iff hsz ilen dlen, ?_⟩
  intro alloc pto window len headlen cfs
  apply qcBuildCfrmsLoop_room
  show cfrmsRoom pto window sz headlen < 2 ^ 62
  rw [cfrmsRoom]
  split_ifs
  · exact hsz
  · exact Nat.lt_of_le_of_lt (Nat.min_le_left _ _) hsz

/-- **CRYPTO frames fit**: 64 bytes in a buffer of 68 bytes. -/
theorem cryptoFits_small :
    StreamDataFits 68 0 64 ∧ ∀ alloc pto window len headlen cfs,
      (qcBuildCfrms alloc pto window 68 len headlen cfs).room +
          (qcBuildCfrms alloc pto window 68 len headlen cfs).len =
        cfrmsRoom pto window 68 headlen + len := by
  obtain ⟨hfits, hroom⟩ := cryptoFits_iff (show 68 < 2 ^ 62 by decide) 0 64
  have hnot : ¬ Overshoots 68 0 64 := by
    rw [Overshoots]
    decide
  exact ⟨hfits.mpr hnot, hroom⟩

/-- **CRYPTO frames fit**: 64 bytes with their two prefixes of 2 bytes are too many for a
buffer of 67 bytes. -/
theorem not_cryptoFits : ¬ StreamDataFits 67 0 64 := by
  intro h
  have hfits := h (by decide)
  exact absurd hfits.2 (by decide)

end Quic

end SmartHAProxy
