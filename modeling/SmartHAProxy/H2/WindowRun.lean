/-
When send windows are those of RFC 7540 (mux_h2.c).

`H2Flow.Windows` says that no sum of the connection has wrapped around; frames and DATA
keep it, frames as long as they are `Regular`.  A stream that is blocked while frames are
processed is followed through them by `H2c.Track`: `h2_process_demux` unblocks streams at
the end only, and only if the initial window is another one then.

`h2_windows_exact` is about all runs of a connection.
-/
import Mathlib.Data.List.Nodup
import SmartHAProxy.H2.Window

namespace SmartHAProxy

/-! ### Signed numbers -/

theorem s32_small {x : ℤ} (hlo : -2 ^ 31 ≤ x) (hhi : x < 2 ^ 31) : s32 x = x := by
  rw [s32, Int.bmod]
  split <;> omega

theorem s32_large {x : ℤ} (hlo : 2 ^ 31 ≤ x) (hhi : x < 2 ^ 31 + 2 ^ 32) : s32 x = x - 2 ^ 32 := by
  rw [s32, Int.bmod]
  split <;> omega

/-! ### Statements -/

/-- **H2 send windows are exact**: the window of the connection and those of the open streams
are the integers of the RFC, these are below 2^31, and no stream with a positive window is
blocked. -/
structure H2Flow.Exact (x : H2Flow) : Prop where
  conn : x.conn.mws = x.rfc.conn
  connMax : x.rfc.conn ≤ 2 ^ 31 - 1
  stream : ∀ s ∈ x.conn.streams, s.closed = false → x.conn.h2sMws s = x.rfc.stream s.id
  streamMax : ∀ s ∈ x.conn.streams, s.closed = false → x.rfc.stream s.id ≤ 2 ^ 31 - 1
  unblocked : ∀ s ∈ x.conn.streams, 0 < x.conn.h2sMws s → s.blkSfctl = false

/-- The initial window after the entries of a SETTINGS frame. -/
def settingsIws (iws : ℤ) (payload : List (UInt16 × UInt32)) : ℤ :=
  payload.foldl (fun iws entry => if entry.1 = 4 then entry.2.toNat else iws) iws

namespace H2Frame

def iws (iws : ℤ) : H2Frame → ℤ
  | .settings _ payload => settingsIws iws payload
  | .windowUpdate _ _ => iws

/-- What a frame adds to the window of a stream. -/
def inc (id : ℕ) : H2Frame → ℤ
  | .settings _ _ => 0
  | .windowUpdate dsi payload =>
    if dsi ≠ 0 ∧ dsi = id then ((payload.toNat % 2 ^ 31 : ℕ) : ℤ) else 0

/-- It is a WINDOW_UPDATE frame of the stream. -/
def IsUpdate (id : ℕ) : H2Frame → Prop
  | .settings _ _ => False
  | .windowUpdate dsi _ => dsi ≠ 0 ∧ dsi = id

theorem inc_of_not {id : ℕ} {f : H2Frame} (h : ¬ f.IsUpdate id) : f.inc id = 0 := by
  cases f with
  | settings ack payload => rfl
  | windowUpdate dsi payload =>
    rw [inc]
    exact if_neg h

end H2Frame

namespace H2c

/-- A SETTINGS frame brings no open stream above 2^31 - 1; a WINDOW_UPDATE frame has its
reserved bit clear, or is refused because of it. -/
def Regular (c : H2c) : H2Frame → Prop
  | .settings _ payload =>
    ∀ s ∈ c.streams, s.closed = false → s.sws + settingsIws c.miw payload ≤ 2 ^ 31 - 1
  | .windowUpdate dsi payload =>
    if dsi = 0 then payload.toNat < 2 ^ 31 ∨ c.mws + payload.toNat < 2 ^ 32
    else ∀ s ∈ c.streams, s.id = dsi → s.closed = false → payload.toNat < 2 ^ 31 ∨
      (0 ≤ s.sws + c.miw ∧ s.sws + c.miw + payload.toNat < 2 ^ 32)

/-- When the frames lead back to the initial window from the beginning: a blocked stream
whose window they make positive was positive at one of its WINDOW_UPDATE frames. -/
def Unstuck (c : H2c) (frames : List H2Frame) : Prop :=
  frames.foldl H2Frame.iws c.miw = c.miw →
    ∀ s ∈ c.streams, s.closed = false → s.blkSfctl = true →
      0 < s.sws + (frames.map (H2Frame.inc s.id)).sum + c.miw →
      ∃ pre f, pre ++ [f] <+: frames ∧ f.IsUpdate s.id ∧
        0 < s.sws + ((pre ++ [f]).map (H2Frame.inc s.id)).sum + pre.foldl H2Frame.iws c.miw

end H2c

def H2FlowOp.Regular (maxStreams : UInt32) (x : H2Flow) : H2FlowOp → Prop
  | .demux frames =>
    StepsMeet (H2c.frame maxStreams) H2c.Regular x.conn frames ∧ x.conn.Unstuck frames
  | _ => True

/-! ### Windows without wrapping -/

structure H2Flow.Windows (x : H2Flow) : Prop where
  ids : (x.conn.streams.map H2s.id).Nodup
  conn : x.conn.mws = x.rfc.conn
  connMin : 0 ≤ x.conn.mws
  connMax : x.conn.mws < 2 ^ 31
  initial : x.conn.miw = x.rfc.initial
  initialMin : 0 ≤ x.conn.miw
  initialMax : x.conn.miw < 2 ^ 31
  stream : ∀ s ∈ x.conn.streams, s.closed = false →
    s.sws + x.conn.miw = x.rfc.stream s.id ∧ -2 ^ 31 < s.sws ∧ s.sws + x.conn.miw < 2 ^ 31

/-- No stream with a positive window is blocked. -/
def H2c.Unblocked (c : H2c) : Prop := ∀ s ∈ c.streams, 0 < c.h2sMws s → s.blkSfctl = false

namespace H2Flow.Windows

variable {x : H2Flow} {s : H2s}

theorem h2sMws (h : x.Windows) (hs : s ∈ x.conn.streams) (hopen : s.closed = false) :
    x.conn.h2sMws s = s.sws + x.conn.miw := by
  obtain ⟨-, hlo, hhi⟩ := h.stream s hs hopen
  have := h.initialMin
  exact s32_small (by omega) hhi

theorem exact (h : x.Windows) (hun : x.conn.Unblocked) : x.Exact where
  conn := h.conn
  connMax := by
    have := h.connMax
    rw [← h.conn]
    omega
  stream s hs hopen := by rw [h.h2sMws hs hopen, (h.stream s hs hopen).1]
  streamMax s hs hopen := by
    obtain ⟨heq, -, hhi⟩ := h.stream s hs hopen
    omega
  unblocked := hun

theorem eq_of_id (h : x.Windows) {t : H2s} (hs : s ∈ x.conn.streams) (ht : t ∈ x.conn.streams)
    (hid : s.id = t.id) : s = t :=
  List.inj_on_of_nodup_map h.ids hs ht hid

end H2Flow.Windows

namespace H2c

variable {c c' : H2c} {s t : H2s}

theorem mem_setStream (h : t ∈ (c.setStream s).streams) :
    t = s ∨ t ∈ c.streams ∧ t.id ≠ s.id := by
  obtain ⟨u, hu, rfl⟩ := List.mem_map.mp h
  split_ifs with hid
  · exact .inl rfl
  · exact .inr ⟨hu, hid⟩

theorem ids_setStream : (c.setStream s).streams.map H2s.id = c.streams.map H2s.id := by
  rw [setStream, List.map_map]
  apply List.map_congr_left
  intro u _
  show (if u.id = s.id then s else u).id = u.id
  split_ifs with hid
  · exact hid.symm
  · rfl

/-! ### SETTINGS -/

theorem settingsEntry_eq_ok {maxStreams : UInt32} {entry : UInt16 × UInt32}
    (h : c.settingsEntry maxStreams entry = .ok c') :
    c'.streams = c.streams ∧ c'.mws = c.mws ∧
      c'.miw = (if entry.1 = 4 then (entry.2.toNat : ℤ) else c.miw) ∧
      (entry.1 = 4 → entry.2.toNat < 2 ^ 31) := by
  rw [settingsEntry] at h
  have hlt := UInt32.toNat_lt entry.2
  by_cases h4 : entry.1 = 4
  · rw [if_pos h4] at h ⊢
    split_ifs at h with harg
    obtain rfl := Except.ok.inj h
    have hsmall : entry.2.toNat < 2 ^ 31 := by
      by_contra hge
      apply harg
      rw [s32_large (by omega) (by omega)]
      omega
    have hs32 : s32 entry.2.toNat = entry.2.toNat := s32_small (by omega) (by omega)
    refine ⟨rfl, rfl, ?_, fun _ => hsmall⟩
    dsimp only
    exact hs32
  · rw [if_neg h4] at h ⊢
    refine (fun hsame : c'.streams = c.streams ∧ c'.mws = c.mws ∧ c'.miw = c.miw =>
      ⟨hsame.1, hsame.2.1, hsame.2.2, fun h => absurd h h4⟩) ?_
    split_ifs at h <;> obtain rfl := Except.ok.inj h <;> exact ⟨rfl, rfl, rfl⟩

theorem foldlM_settingsEntry {maxStreams : UInt32} {payload : List (UInt16 × UInt32)}
    (hmin : 0 ≤ c.miw) (hmax : c.miw < 2 ^ 31)
    (h : payload.foldlM (settingsEntry maxStreams) c = .ok c') :
    c'.streams = c.streams ∧ c'.mws = c.mws ∧ c'.miw = settingsIws c.miw payload ∧
      0 ≤ c'.miw ∧ c'.miw < 2 ^ 31 := by
  refine foldlM_invariant
    (P := fun payload c' => c'.streams = c.streams ∧ c'.mws = c.mws ∧
      c'.miw = settingsIws c.miw payload ∧ 0 ≤ c'.miw ∧ c'.miw < 2 ^ 31)
    ⟨rfl, rfl, rfl, hmin, hmax⟩ ?_ h
  rintro payload c₁ entry c₂ ⟨hstreams, hmws, hmiw, hlo, hhi⟩ hentry
  obtain ⟨hstreams', hmws', hmiw', hsmall⟩ := settingsEntry_eq_ok hentry
  refine ⟨hstreams'.trans hstreams, hmws'.trans hmws, ?_, ?_⟩
  · rw [hmiw', settingsIws, List.foldl_concat, hmiw]
    rfl
  · rw [hmiw']
    split_ifs with h4
    · have := hsmall h4
      omega
    · exact ⟨hlo, hhi⟩

end H2c

theorem H2Windows.foldl_setInitial (w : H2Windows) (payload : List (UInt16 × UInt32)) :
    payload.foldl (fun w entry => if entry.1 = 4 then w.setInitial entry.2.toNat else w) w =
      w.setInitial (settingsIws w.initial payload) := by
  induction payload generalizing w with
  | nil =>
    show w = ⟨w.conn, w.initial, fun id => w.stream id + (w.initial - w.initial)⟩
    simp
  | cons entry payload ih =>
    have hcons : settingsIws w.initial (entry :: payload) =
      settingsIws (if entry.1 = 4 then (entry.2.toNat : ℤ) else w.initial) payload := rfl
    rw [List.foldl_cons, ih, hcons]
    split_ifs with h4
    · -- the differences add up
      show (⟨_, _, _⟩ : H2Windows) = ⟨_, _, _⟩
      congr 1
      funext id
      show w.stream id + (entry.2.toNat - w.initial) +
        (settingsIws entry.2.toNat payload - entry.2.toNat) = _
      omega
    · rfl

/-! ### Frames -/

section Frames

variable {c : H2c} {w : H2Windows} {s : H2s}

/-- A SETTINGS frame keeps the windows. -/
theorem H2Flow.Windows.settings {maxStreams : UInt32} {c' : H2c} {ack : Bool}
    {payload : List (UInt16 × UInt32)} (h : H2Flow.Windows ⟨c, w⟩)
    (hreg : c.Regular (.settings ack payload))
    (hrun : c.handleSettings maxStreams ack payload = .ok c') :
    H2Flow.Windows ⟨c', w.frame (.settings ack payload)⟩ ∧ c'.streams = c.streams ∧
      c'.miw = settingsIws c.miw payload := by
  have hframe : w.frame (.settings ack payload) = w.setInitial (settingsIws w.initial payload) :=
    H2Windows.foldl_setInitial w payload
  have hkeep : c'.streams = c.streams ∧ c'.mws = c.mws ∧ c'.miw = settingsIws c.miw payload ∧
      0 ≤ c'.miw ∧ c'.miw < 2 ^ 31 := by
    rw [H2c.handleSettings] at hrun
    split_ifs at hrun with hack hnil
    · obtain rfl := Except.ok.inj hrun
      rw [hnil]
      exact ⟨rfl, rfl, rfl, h.initialMin, h.initialMax⟩
    · exact H2c.foldlM_settingsEntry h.initialMin h.initialMax hrun
  obtain ⟨hstreams, hmws, hmiw, hmin, hmax⟩ := hkeep
  refine ⟨?_, hstreams, hmiw⟩
  rw [hframe]
  constructor
  · show (c'.streams.map H2s.id).Nodup
    rw [hstreams]
    exact h.ids
  · show c'.mws = w.conn
    rw [hmws]
    exact h.conn
  · show 0 ≤ c'.mws
    rw [hmws]
    exact h.connMin
  · show c'.mws < 2 ^ 31
    rw [hmws]
    exact h.connMax
  · show c'.miw = settingsIws w.initial payload
    rw [hmiw, show c.miw = w.initial from h.initial]
  · exact hmin
  · exact hmax
  · intro s hs hopen
    replace hs : s ∈ c.streams := hstreams ▸ hs
    obtain ⟨heq, hlo, -⟩ := h.stream s hs hopen
    have hbound := hreg s hs hopen
    have hinitial : c.miw = w.initial := h.initial
    show s.sws + c'.miw = w.stream s.id + (settingsIws w.initial payload - w.initial) ∧ _ ∧
      s.sws + c'.miw < 2 ^ 31
    dsimp only at heq
    rw [hmiw, ← hinitial, ← heq]
    refine ⟨?_, hlo, ?_⟩ <;> omega

/-- A WINDOW_UPDATE frame of the connection. -/
theorem H2Flow.Windows.connUpdate {c' : H2c} {payload : UInt32} (h : H2Flow.Windows ⟨c, w⟩)
    (hreg : c.Regular (.windowUpdate 0 payload))
    (hrun : c.handleWindowUpdate 0 payload = .ok c') :
    H2Flow.Windows ⟨c', w.frame (.windowUpdate 0 payload)⟩ ∧ c'.streams = c.streams ∧
      c'.miw = c.miw := by
  have hlo : 0 ≤ c.mws := h.connMin
  have hhi : c.mws < 2 ^ 31 := h.connMax
  have hpay := UInt32.toNat_lt payload
  replace hreg : payload.toNat < 2 ^ 31 ∨ c.mws + payload.toNat < 2 ^ 32 := hreg
  rw [H2c.handleWindowUpdate] at hrun
  dsimp only at hrun
  rw [if_neg (by simp)] at hrun
  split_ifs at hrun with hzero hover
  obtain rfl := Except.ok.inj hrun
  refine ⟨?_, rfl, rfl⟩
  -- the reserved bit is clear, or the frame would be refused
  have hsmall : payload.toNat < 2 ^ 31 := by
    by_contra hge
    apply hover
    have hs32 : s32 payload.toNat = payload.toNat - 2 ^ 32 := s32_large (by omega) (by omega)
    refine ⟨hlo, ?_⟩
    rw [hs32, s32_small (by omega) (by omega)]
    omega
  have hinc : s32 payload.toNat = payload.toNat := s32_small (by omega) (by omega)
  rw [hinc] at hover ⊢
  have hsum : c.mws + payload.toNat < 2 ^ 31 := by
    by_contra hge
    apply hover
    refine ⟨hlo, ?_⟩
    rw [s32_large (by omega) (by omega)]
    omega
  have hmod : payload.toNat % 2 ^ 31 = payload.toNat := Nat.mod_eq_of_lt hsmall
  have hconn : c.mws = w.conn := h.conn
  rw [s32_small (by omega) (by omega)]
  refine ⟨h.ids, ?_, ?_, hsum, h.initial, h.initialMin, h.initialMax, h.stream⟩
  · show c.mws + payload.toNat = w.conn + (payload.toNat % 2 ^ 31 : ℕ)
    rw [hmod, hconn]
  · show 0 ≤ c.mws + payload.toNat
    omega

/-- What a frame does to the streams: the increment, and a stream whose window is positive
at one of its WINDOW_UPDATE frames is not blocked. -/
def H2c.Advance (c : H2c) (f : H2Frame) (c' : H2c) : Prop :=
  ∀ t ∈ c'.streams, ∃ s ∈ c.streams, s.id = t.id ∧ s.closed = t.closed ∧
    t.sws = s.sws + (if s.closed then 0 else f.inc s.id) ∧
    (t.blkSfctl = true → s.blkSfctl = true ∧
      (t.closed = false → f.IsUpdate t.id → t.sws + c.miw ≤ 0))

theorem H2c.advance_same {f : H2Frame} {c' : H2c} (hstreams : c'.streams = c.streams)
    (hother : ∀ s ∈ c.streams, s.closed = false → ¬ f.IsUpdate s.id) : c.Advance f c' := by
  intro t ht
  rw [hstreams] at ht
  refine ⟨t, ht, rfl, rfl, ?_, fun hblk => ⟨hblk, fun hopen hup => absurd hup (hother t ht hopen)⟩⟩
  split_ifs with hclosed
  · simp
  · rw [H2Frame.inc_of_not (hother t ht (by simpa using hclosed)), Int.add_zero]

theorem H2c.unblock_if (c : H2c) (s : H2s) :
    ∃ s', (if 0 < c.h2sMws s ∧ s.blkSfctl = true then unblock s else s) = s' ∧ s'.id = s.id ∧
      s'.closed = s.closed ∧ s'.sws = s.sws ∧
      (s'.blkSfctl = true → s.blkSfctl = true ∧ c.h2sMws s ≤ 0) := by
  refine ⟨_, rfl, ?_⟩
  split_ifs with hblk
  · exact ⟨rfl, rfl, rfl, nofun⟩
  · refine ⟨rfl, rfl, rfl, fun hflag => ⟨hflag, ?_⟩⟩
    by_contra hpos
    exact hblk ⟨by omega, hflag⟩

theorem H2Flow.Windows.setStream {s' : H2s} {stream : ℕ → ℤ} (h : H2Flow.Windows ⟨c, w⟩)
    (hid : s'.id = s.id)
    (hw : s'.closed = false → s'.sws + c.miw = stream s'.id ∧ -2 ^ 31 < s'.sws ∧
      s'.sws + c.miw < 2 ^ 31)
    (hstream : ∀ id, id ≠ s.id → stream id = w.stream id) :
    H2Flow.Windows ⟨c.setStream s', { w with stream := stream }⟩ := by
  refine ⟨?_, h.conn, h.connMin, h.connMax, h.initial, h.initialMin, h.initialMax, ?_⟩
  · show ((c.setStream s').streams.map H2s.id).Nodup
    rw [H2c.ids_setStream]
    exact h.ids
  · intro t ht hopen
    rcases H2c.mem_setStream ht with rfl | ⟨ht, hne⟩
    · exact hw hopen
    · show t.sws + c.miw = stream t.id ∧ _
      rw [hstream t.id (hid ▸ hne)]
      exact h.stream t ht hopen

/-- A WINDOW_UPDATE frame of a stream. -/
theorem H2Flow.Windows.streamUpdate {c' : H2c} {dsi : ℕ} {payload : UInt32} (hdsi : dsi ≠ 0)
    (h : H2Flow.Windows ⟨c, w⟩) (hreg : c.Regular (.windowUpdate dsi payload))
    (hrun : c.handleWindowUpdate dsi payload = .ok c') :
    H2Flow.Windows ⟨c', w.frame (.windowUpdate dsi payload)⟩ ∧ c'.miw = c.miw ∧
      c.Advance (.windowUpdate dsi payload) c' := by
  have hframe : w.frame (.windowUpdate dsi payload) = ⟨w.conn, w.initial, fun id =>
      if id = dsi then w.stream id + (payload.toNat % 2 ^ 31 : ℕ) else w.stream id⟩ := by
    rw [H2Windows.frame, if_neg hdsi]
  rw [H2c.Regular, if_neg hdsi] at hreg
  rw [hframe]
  -- a frame of a stream that is closed, or not there, changes nothing
  have hignored : (∀ s ∈ c.streams, s.closed = false → s.id ≠ dsi) →
      H2Flow.Windows ⟨c, ⟨w.conn, w.initial, fun id =>
        if id = dsi then w.stream id + (payload.toNat % 2 ^ 31 : ℕ) else w.stream id⟩⟩ ∧
      c.miw = c.miw ∧ c.Advance (.windowUpdate dsi payload) c := by
    intro hother
    refine ⟨⟨h.ids, h.conn, h.connMin, h.connMax, h.initial, h.initialMin, h.initialMax, ?_⟩,
      rfl, ?_⟩
    · intro s hs hopen
      show s.sws + c.miw = (if s.id = dsi then _ else w.stream s.id) ∧ _
      rw [if_neg (hother s hs hopen)]
      exact h.stream s hs hopen
    · apply H2c.advance_same rfl
      exact fun s hs hopen heq => hother s hs hopen heq.2.symm
  rw [H2c.handleWindowUpdate] at hrun
  dsimp only at hrun
  rw [if_pos hdsi] at hrun
  rcases hfind : c.streams.find? (·.id = dsi) with - | s
  · rw [hfind] at hrun
    obtain rfl := Except.ok.inj hrun
    apply hignored
    intro s hs _ hid
    exact absurd (decide_eq_true hid) (List.find?_eq_none.mp hfind s hs)
  · have hs := List.mem_of_find?_eq_some hfind
    have hid : s.id = dsi := by simpa using List.find?_some hfind
    rw [hfind] at hrun
    dsimp only at hrun
    rcases hclosed : s.closed with - | -
    · have hwin : c.h2sMws s = s.sws + c.miw := h.h2sMws hs hclosed
      obtain ⟨heq, hlo, hhi⟩ := h.stream s hs hclosed
      dsimp only at heq hhi
      have hmin : 0 ≤ c.miw := h.initialMin
      have hpay := UInt32.toNat_lt payload
      have hopen : ¬ s.closed = true := by simp [hclosed]
      rw [if_neg hopen, hwin] at hrun
      by_cases hzero : s32 payload.toNat = 0
      · rw [if_pos hzero] at hrun
        cases hrun
      rw [if_neg hzero] at hrun
      by_cases hover : 0 ≤ s.sws + c.miw ∧ s32 (s.sws + c.miw + s32 payload.toNat) < 0
      · rw [if_pos hover] at hrun
        cases hrun
      rw [if_neg hover] at hrun
      have hsmall : payload.toNat < 2 ^ 31 := by
        by_contra hge
        rcases hreg s hs hid hclosed with hclear | ⟨hpos, hrefused⟩
        · exact hge hclear
        · apply hover
          have hs32 : s32 payload.toNat = payload.toNat - 2 ^ 32 :=
            s32_large (by omega) (by omega)
          refine ⟨hpos, ?_⟩
          rw [hs32, s32_small (by omega) (by omega)]
          omega
      have hinc : s32 payload.toNat = payload.toNat := s32_small (by omega) (by omega)
      rw [hinc] at hover hrun
      have hsum : s.sws + c.miw + payload.toNat < 2 ^ 31 := by
        by_contra hge
        apply hover
        refine ⟨by omega, ?_⟩
        rw [s32_large (by omega) (by omega)]
        omega
      have hsws : s32 (s.sws + payload.toNat) = s.sws + payload.toNat :=
        s32_small (by omega) (by omega)
      rw [hsws] at hrun
      have hmod : payload.toNat % 2 ^ 31 = payload.toNat := Nat.mod_eq_of_lt hsmall
      -- the stream afterwards
      obtain ⟨s₂, hs₂, hid₂, hclosed₂, hsws₂, hflag₂⟩ :=
        c.unblock_if { s with sws := s.sws + payload.toNat }
      rw [hs₂] at hrun
      obtain rfl := Except.ok.inj hrun
      have hblk₂ : s₂.blkSfctl = true → s.blkSfctl = true ∧ s.sws + payload.toNat + c.miw ≤ 0 := by
        intro hflag
        obtain ⟨hblk, hneg⟩ := hflag₂ hflag
        have hw : s32 (s.sws + payload.toNat + c.miw) = s.sws + payload.toNat + c.miw :=
          s32_small (by omega) (by omega)
        exact ⟨hblk, hw ▸ hneg⟩
      dsimp only at hid₂ hclosed₂ hsws₂
      refine ⟨h.setStream hid₂ (fun _ => ?_) fun id hne => if_neg (hid ▸ hne), rfl, ?_⟩
      · rw [hid₂, hsws₂, if_pos hid, hmod, ← heq]
        refine ⟨?_, ?_, ?_⟩ <;> omega
      · intro t ht
        rcases H2c.mem_setStream ht with rfl | ⟨ht, hne⟩
        · refine ⟨s, hs, hid₂.symm, hclosed₂.symm, ?_, fun hflag => ⟨(hblk₂ hflag).1, fun _ _ => ?_⟩⟩
          · rw [hclosed, hsws₂, if_neg (by simp)]
            show _ = s.sws + (if dsi ≠ 0 ∧ dsi = s.id then ((payload.toNat % 2 ^ 31 : ℕ) : ℤ) else 0)
            rw [if_pos ⟨hdsi, hid.symm⟩, hmod]
          · rw [hsws₂]
            exact (hblk₂ hflag).2
        · have hother : ¬ H2Frame.IsUpdate t.id (.windowUpdate dsi payload) := by
            rintro ⟨-, heq⟩
            apply hne
            rw [hid₂, hid, heq]
          refine ⟨t, ht, rfl, rfl, ?_, fun hflag => ⟨hflag, fun _ hup => absurd hup hother⟩⟩
          rw [H2Frame.inc_of_not hother, ite_self, Int.add_zero]
    · rw [hclosed, if_pos rfl] at hrun
      obtain rfl := Except.ok.inj hrun
      apply hignored
      intro t ht hopen hid'
      obtain rfl := h.eq_of_id hs ht (hid.trans hid'.symm)
      rw [hclosed] at hopen
      cases hopen

/-- **A frame** keeps the windows. -/
theorem H2Flow.Windows.frame {maxStreams : UInt32} {c' : H2c} {f : H2Frame}
    (h : H2Flow.Windows ⟨c, w⟩) (hreg : c.Regular f) (hrun : c.frame maxStreams f = .ok c') :
    H2Flow.Windows ⟨c', w.frame f⟩ ∧ c'.miw = f.iws c.miw ∧ c.Advance f c' := by
  cases f with
  | settings ack payload =>
    obtain ⟨hw, hstreams, hmiw⟩ := h.settings hreg hrun
    exact ⟨hw, hmiw, H2c.advance_same hstreams fun s _ _ => id⟩
  | windowUpdate dsi payload =>
    by_cases hdsi : dsi = 0
    · subst hdsi
      obtain ⟨hw, hstreams, hmiw⟩ := h.connUpdate hreg hrun
      exact ⟨hw, hmiw, H2c.advance_same hstreams fun s _ _ heq => heq.1 rfl⟩
    · exact h.streamUpdate hdsi hreg hrun

end Frames

/-! ### h2_process_demux -/

/-- How a stream came through the frames `pre`, from the connection `c` on. -/
structure H2c.Track (c : H2c) (pre : List H2Frame) (s t : H2s) : Prop where
  id : s.id = t.id
  closed : s.closed = t.closed
  sws : t.sws = s.sws + (if s.closed then 0 else (pre.map (H2Frame.inc s.id)).sum)
  blocked : t.blkSfctl = true → s.blkSfctl = true ∧ (s.closed = false →
    ∀ p f, p ++ [f] <+: pre → f.IsUpdate s.id →
      s.sws + ((p ++ [f]).map (H2Frame.inc s.id)).sum + p.foldl H2Frame.iws c.miw ≤ 0)

section Demux

variable {maxStreams : UInt32} {c c' : H2c} {w : H2Windows} {frames : List H2Frame}

theorem H2c.Track.concat {pre : List H2Frame} {f : H2Frame} {m : H2c} {s t u : H2s}
    (h : c.Track pre s t) (hmiw : m.miw = pre.foldl H2Frame.iws c.miw) (hid : t.id = u.id)
    (hclosed : t.closed = u.closed) (hsws : u.sws = t.sws + (if t.closed then 0 else f.inc t.id))
    (hblk : u.blkSfctl = true → t.blkSfctl = true ∧
      (u.closed = false → f.IsUpdate u.id → u.sws + m.miw ≤ 0)) :
    c.Track (pre ++ [f]) s u := by
  have hsum : u.sws =
      s.sws + (if s.closed then 0 else ((pre ++ [f]).map (H2Frame.inc s.id)).sum) := by
    rw [hsws, h.sws, ← h.closed, ← h.id, List.map_append, List.sum_append]
    split_ifs
    · omega
    · rw [List.map_singleton, List.sum_singleton]
      omega
  refine ⟨h.id.trans hid, h.closed.trans hclosed, hsum, fun hflag => ?_⟩
  obtain ⟨hflag', hnow⟩ := hblk hflag
  obtain ⟨hflag'', hbefore⟩ := h.blocked hflag'
  refine ⟨hflag'', fun hopen p g hpre hup => ?_⟩
  rcases List.prefix_concat_iff.mp hpre with heq | hpre
  · -- the frame is the last one
    obtain ⟨rfl, hfg⟩ := List.append_inj' heq rfl
    obtain rfl : g = f := by simpa using hfg
    have hle := hnow (hclosed ▸ h.closed ▸ hopen) (hid ▸ h.id ▸ hup)
    rw [hsum, hopen, hmiw] at hle
    exact hle
  · exact hbefore hopen p g hpre hup

theorem H2Flow.Windows.foldlM_frame (h : H2Flow.Windows ⟨c, w⟩)
    (hmeet : StepsMeet (H2c.frame maxStreams) H2c.Regular c frames)
    (hrun : frames.foldlM (H2c.frame maxStreams) c = .ok c') :
    H2Flow.Windows ⟨c', frames.foldl H2Windows.frame w⟩ ∧
      c'.miw = frames.foldl H2Frame.iws c.miw ∧
      ∀ t ∈ c'.streams, ∃ s ∈ c.streams, c.Track frames s t := by
  refine foldlM_invariant_of_meet
    (P := fun pre m => H2Flow.Windows ⟨m, pre.foldl H2Windows.frame w⟩ ∧
      m.miw = pre.foldl H2Frame.iws c.miw ∧ ∀ t ∈ m.streams, ∃ s ∈ c.streams, c.Track pre s t)
    ⟨h, rfl, fun t ht => ⟨t, ht, rfl, rfl, by simp, fun hflag => ⟨hflag, fun _ p f hpre => ?_⟩⟩⟩
    ?_ hmeet hrun
  · exact absurd (List.prefix_nil.mp hpre) (by simp)
  · rintro pre m f m' ⟨hw, hmiw, htrack⟩ hreg hstep
    obtain ⟨hw', hmiw', hadvance⟩ := hw.frame hreg hstep
    refine ⟨?_, ?_, ?_⟩
    · rw [List.foldl_concat]
      exact hw'
    · rw [List.foldl_concat, hmiw', hmiw]
    · intro u hu
      obtain ⟨t, ht, hid, hclosed, hsws, hblk⟩ := hadvance u hu
      obtain ⟨s, hs, hst⟩ := htrack t ht
      exact ⟨s, hs, hst.concat hmiw hid hclosed hsws hblk⟩

theorem H2c.unblocked_unblockSfctl (c : H2c) : c.unblockSfctl.Unblocked := by
  intro t ht hpos
  obtain ⟨s, -, rfl⟩ := List.mem_map.mp ht
  split_ifs with hblk
  · rfl
  · rw [if_neg hblk] at hpos
    by_contra hflag
    exact hblk ⟨by simpa using hflag, hpos⟩

theorem H2Flow.Windows.unblockSfctl (h : H2Flow.Windows ⟨c, w⟩) :
    H2Flow.Windows ⟨c.unblockSfctl, w⟩ := by
  have hkeep : ∀ t ∈ c.unblockSfctl.streams, ∃ s ∈ c.streams, s.id = t.id ∧
      s.closed = t.closed ∧ s.sws = t.sws := by
    intro t ht
    obtain ⟨s, hs, rfl⟩ := List.mem_map.mp ht
    refine ⟨s, hs, ?_⟩
    split_ifs <;> exact ⟨rfl, rfl, rfl⟩
  refine ⟨?_, h.conn, h.connMin, h.connMax, h.initial, h.initialMin, h.initialMax, ?_⟩
  · have hids : c.unblockSfctl.streams.map H2s.id = c.streams.map H2s.id := by
      rw [H2c.unblockSfctl, List.map_map]
      apply List.map_congr_left
      intro s _
      show (if s.blkSfctl = true ∧ 0 < c.h2sMws s then H2c.unblock s else s).id = s.id
      split_ifs <;> rfl
    show (c.unblockSfctl.streams.map H2s.id).Nodup
    rw [hids]
    exact h.ids
  · intro t ht hopen
    obtain ⟨s, hs, hid, hclosed, hsws⟩ := hkeep t ht
    rw [← hclosed] at hopen
    rw [← hid, ← hsws]
    exact h.stream s hs hopen

/-- **A call of** `h2_process_demux` keeps the windows and leaves no stream blocked. -/
theorem H2Flow.Windows.processDemux (h : H2Flow.Windows ⟨c, w⟩) (hun : c.Unblocked)
    (hmeet : StepsMeet (H2c.frame maxStreams) H2c.Regular c frames) (hstuck : c.Unstuck frames)
    (hrun : c.processDemux maxStreams frames = .ok c') :
    H2Flow.Windows ⟨c', frames.foldl H2Windows.frame w⟩ ∧ c'.Unblocked := by
  rw [H2c.processDemux] at hrun
  rcases hfold : frames.foldlM (H2c.frame maxStreams) c with e | m
  · rw [hfold] at hrun
    cases hrun
  · rw [hfold] at hrun
    obtain rfl := Except.ok.inj hrun
    obtain ⟨hw, hmiw, htrack⟩ := h.foldlM_frame hmeet hfold
    by_cases hsame : c.miw = m.miw
    · rw [if_neg (not_not.mpr hsame)]
      refine ⟨hw, fun t ht hpos => ?_⟩
      by_contra hflag
      obtain ⟨s, hs, hst⟩ := htrack t ht
      obtain ⟨hflag', hbefore⟩ := hst.blocked (by simpa using hflag)
      rcases hclosed : s.closed with - | -
      · -- its window is the sum of the increments, and one of the frames made it positive
        have hwin : m.h2sMws t = t.sws + m.miw := hw.h2sMws ht (hst.closed ▸ hclosed)
        have hsws := hst.sws
        rw [hclosed] at hsws
        rw [hwin, hsws, ← hsame] at hpos
        obtain ⟨p, f, hpre, hup, hlt⟩ :=
          hstuck (hmiw.symm.trans hsame.symm) s hs hclosed hflag' hpos
        exact absurd hlt (Int.not_lt.mpr (hbefore hclosed p f hpre hup))
      · -- the window of a closed stream is as it was
        have hsws := hst.sws
        rw [hclosed, if_pos rfl, Int.add_zero] at hsws
        have hwin : c.h2sMws s = m.h2sMws t := by rw [H2c.h2sMws, H2c.h2sMws, hsws, hsame]
        have hnot := hun s hs (hwin ▸ hpos)
        rw [hflag'] at hnot
        cases hnot
    · rw [if_pos hsame]
      exact ⟨hw.unblockSfctl, m.unblocked_unblockSfctl⟩

end Demux

/-! ### DATA -/

section Data

variable {c : H2c} {w : H2Windows} {s : H2s}

/-- What `h2s_make_data` does to the windows: nothing, or the stream is blocked, or some bytes
are sent, no more than both windows. -/
theorem H2c.makeData_cases (c : H2c) (s : H2s) (swap : Bool) {fsize : ℤ} (count room : ℤ)
    (hfsize : 0 ≤ fsize) :
    c.makeData s swap fsize count room = (c, 0) ∨
    (c.h2sMws s ≤ 0 ∧ c.makeData s swap fsize count room =
      (c.setStream { s with
        blkSfctl := true
        list := .blocked }, 0)) ∨
    ∃ n, 0 ≤ n ∧ n ≤ c.h2sMws s ∧ n ≤ c.mws ∧ c.makeData s swap fsize count room =
      ({ c.setStream { s with sws := s32 (s.sws - n) } with mws := s32 (c.mws - n) }, n) := by
  rw [H2c.makeData]
  by_cases hcount : count = 0
  · rw [if_pos hcount]
    exact .inl rfl
  rw [if_neg hcount]
  by_cases hswap : swap ∧ fsize = count ∧ fsize ≤ c.h2sMws s ∧ fsize ≤ c.mws ∧ fsize ≤ c.mfs
  · rw [if_pos hswap]
    exact .inr (.inr ⟨fsize, hfsize, hswap.2.2.1, hswap.2.2.2.1, rfl⟩)
  rw [if_neg hswap]
  by_cases hzero : fsize = 0
  · rw [if_pos hzero]
    exact .inl rfl
  rw [if_neg hzero]
  by_cases hwin : c.h2sMws s ≤ 0
  · rw [if_pos hwin]
    exact .inr (.inl ⟨hwin, rfl⟩)
  rw [if_neg hwin]
  dsimp only
  -- the size of the frame, no more than the window of the stream
  obtain ⟨n, hn⟩ : ∃ n, n = (if room < (if c.mfs ≠ 0 then
      min (min (min fsize count) (c.h2sMws s)) c.mfs else min (min fsize count) (c.h2sMws s)) + 9
    then room - 9 else if c.mfs ≠ 0 then min (min (min fsize count) (c.h2sMws s)) c.mfs
      else min (min fsize count) (c.h2sMws s)) := ⟨_, rfl⟩
  have hle : n ≤ c.h2sMws s := by
    rw [hn]
    split_ifs <;> omega
  rw [← hn]
  by_cases hsmall : n ≤ 0
  · rw [if_pos hsmall]
    exact .inl rfl
  rw [if_neg hsmall]
  by_cases hmws : c.mws ≤ 0
  · rw [if_pos hmws]
    exact .inl rfl
  rw [if_neg hmws]
  exact .inr (.inr ⟨min n c.mws, by omega, by omega, by omega, rfl⟩)

/-- DATA of a stream keep the windows and leave no stream blocked that has a window. -/
theorem H2Flow.Windows.makeData (h : H2Flow.Windows ⟨c, w⟩) (hun : c.Unblocked)
    (hs : s ∈ c.streams) (hopen : s.closed = false) (swap : Bool) (fsize count room : ℕ) :
    H2Flow.Windows ⟨(c.makeData s swap fsize count room).1,
      w.send s.id (c.makeData s swap fsize count room).2⟩ ∧
      (c.makeData s swap fsize count room).1.Unblocked := by
  have hsend : w.send s.id 0 = w := by
    rw [H2Windows.send]
    simp
  have hwin : c.h2sMws s = s.sws + c.miw := h.h2sMws hs hopen
  obtain ⟨heq, hlo, hhi⟩ := h.stream s hs hopen
  dsimp only at heq hhi
  rcases c.makeData_cases s swap count room (Int.natCast_nonneg fsize) with
    hr | ⟨hneg, hr⟩ | ⟨n, hmin, hle, hmws, hr⟩
  · rw [hr, hsend]
    exact ⟨h, hun⟩
  · rw [hr, hsend]
    constructor
    · exact h.setStream rfl (fun _ => ⟨heq, hlo, hhi⟩) fun _ _ => rfl
    · intro t ht hpos
      rcases H2c.mem_setStream ht with rfl | ⟨ht, -⟩
      · exact absurd hpos (Int.not_lt.mpr hneg)
      · exact hun t ht hpos
  · have hmiw : 0 ≤ c.miw := h.initialMin
    have hmiw' : c.miw < 2 ^ 31 := h.initialMax
    have hconn : c.mws < 2 ^ 31 := h.connMax
    rw [hwin] at hle
    have hsws : s32 (s.sws - n) = s.sws - n := s32_small (by omega) (by omega)
    have hmws' : s32 (c.mws - n) = c.mws - n := s32_small (by omega) (by omega)
    rw [hr, hsws, hmws']
    constructor
    · have hset : H2Flow.Windows ⟨c.setStream { s with sws := s.sws - n },
          ⟨w.conn, w.initial, fun id => if id = s.id then w.stream id - n else w.stream id⟩⟩ := by
        refine h.setStream rfl (fun _ => ?_) fun id hne => if_neg hne
        show s.sws - n + c.miw = (if s.id = s.id then w.stream s.id - n else w.stream s.id) ∧
          -2 ^ 31 < s.sws - n ∧ s.sws - n + c.miw < 2 ^ 31
        rw [if_pos rfl]
        refine ⟨?_, ?_, ?_⟩ <;> omega
      refine ⟨hset.ids, ?_, ?_, ?_, hset.initial, hset.initialMin, hset.initialMax, hset.stream⟩
      · show c.mws - n = w.conn - n
        rw [show c.mws = w.conn from h.conn]
      · show 0 ≤ c.mws - n
        omega
      · show c.mws - n < 2 ^ 31
        omega
    · intro t ht hpos
      rcases H2c.mem_setStream ht with rfl | ⟨ht, -⟩
      · -- its window was positive before
        apply hun s hs
        rw [hwin]
        replace hpos : 0 < s32 (s.sws - n + c.miw) := hpos
        rw [s32_small (by omega) (by omega)] at hpos
        omega
      · exact hun t ht hpos

end Data

/-! ### Runs -/

namespace H2Flow

def Good (x : H2Flow) : Prop := x.Windows ∧ x.conn.Unblocked

theorem init_good (isBack : Bool) (streamsLimit : UInt32) : (init isBack streamsLimit).Good := by
  refine ⟨⟨List.nodup_nil, rfl, ?_, ?_, rfl, ?_, ?_, nofun⟩, nofun⟩ <;>
    simp [init]

theorem Good.openStream {x : H2Flow} (h : x.Good) {id : ℕ} (wantSend : Bool)
    (hnew : x.conn.streams.any (·.id = id) = false) :
    Good ⟨{ x.conn with streams := x.conn.streams ++ [⟨id, 0, false, false, wantSend, .none⟩] },
      x.rfc.openStream id⟩ := by
  obtain ⟨hw, hun⟩ := h
  have hne : ∀ s ∈ x.conn.streams, s.id ≠ id := by simpa using hnew
  constructor
  · refine ⟨?_, hw.conn, hw.connMin, hw.connMax, hw.initial, hw.initialMin, hw.initialMax, ?_⟩
    · show (List.map H2s.id (x.conn.streams ++ [_])).Nodup
      rw [List.map_append, List.nodup_append]
      refine ⟨hw.ids, List.nodup_singleton _, ?_⟩
      intro a ha b hb
      obtain ⟨s, hs, rfl⟩ := List.mem_map.mp ha
      obtain rfl : b = id := by simpa using hb
      exact hne s hs
    · intro s hs hopen
      rcases List.mem_append.mp hs with hs | hs
      · show s.sws + x.conn.miw = (if s.id = id then x.rfc.initial else x.rfc.stream s.id) ∧ _
        rw [if_neg (hne s hs)]
        exact hw.stream s hs hopen
      · obtain rfl := List.mem_singleton.mp hs
        have hmax := hw.initialMax
        show 0 + x.conn.miw = (if id = id then x.rfc.initial else x.rfc.stream id) ∧
          -2 ^ 31 < (0 : ℤ) ∧ 0 + x.conn.miw < 2 ^ 31
        rw [if_pos rfl, ← hw.initial]
        refine ⟨?_, ?_, ?_⟩ <;> omega
  · intro s hs hpos
    rcases List.mem_append.mp hs with hs | hs
    · exact hun s hs hpos
    · obtain rfl := List.mem_singleton.mp hs
      rfl

theorem Good.onStream {x : H2Flow} (h : x.Good) (id : ℕ) {f : H2s → H2Flow}
    (hf : ∀ s ∈ x.conn.streams, s.id = id → s.closed = false → (f s).Good) :
    (x.onStream id f).Good := by
  rw [H2Flow.onStream]
  rcases hfind : x.conn.streams.find? (·.id = id) with - | s
  · rw [hfind]
    exact h
  · rw [hfind]
    have hid : s.id = id := by simpa using List.find?_some hfind
    dsimp only
    rcases hclosed : s.closed with - | -
    · exact hf s (List.mem_of_find?_eq_some hfind) hid hclosed
    · exact h

theorem Good.setStream {x : H2Flow} (h : x.Good) {s s' : H2s} (hs : s ∈ x.conn.streams)
    (hopen : s.closed = false) (hid : s'.id = s.id) (hsws : s'.sws = s.sws)
    (hblk : s'.blkSfctl = s.blkSfctl) : Good { x with conn := x.conn.setStream s' } := by
  obtain ⟨hw, hun⟩ := h
  constructor
  · refine hw.setStream hid (fun _ => ?_) fun _ _ => rfl
    rw [hid, hsws]
    exact hw.stream s hs hopen
  · intro t ht hpos
    rcases H2c.mem_setStream ht with rfl | ⟨ht, -⟩
    · rw [hblk]
      apply hun s hs
      replace hpos : 0 < s32 (t.sws + x.conn.miw) := hpos
      rw [hsws] at hpos
      exact hpos
    · exact hun t ht hpos

theorem Good.step {maxStreams : UInt32} {x x' : H2Flow} {op : H2FlowOp} (h : x.Good)
    (hreg : op.Regular maxStreams x) (hrun : x.step maxStreams op = .ok x') : x'.Good := by
  cases op with
  | demux frames =>
    rw [H2Flow.step] at hrun
    rcases hdemux : x.conn.processDemux maxStreams frames with e | c
    · rw [hdemux] at hrun
      cases hrun
    · rw [hdemux] at hrun
      obtain rfl := Except.ok.inj hrun
      exact h.1.processDemux h.2 hreg.1 hreg.2 hdemux
  | openStream id wantSend =>
    rw [H2Flow.step] at hrun
    split_ifs at hrun with hany
    · obtain rfl := Except.ok.inj hrun
      exact h
    · obtain rfl := Except.ok.inj hrun
      exact h.openStream wantSend (by simpa using hany)
  | closeStream id =>
    obtain rfl := Except.ok.inj hrun
    exact h.onStream id fun s hs _ hopen => h.setStream hs hopen rfl rfl rfl
  | subscribe id wantSend =>
    obtain rfl := Except.ok.inj hrun
    exact h.onStream id fun s hs _ hopen => h.setStream hs hopen rfl rfl rfl
  | send id swap fsize count room =>
    obtain rfl := Except.ok.inj hrun
    refine h.onStream id fun s hs hid hopen => ?_
    rw [← hid]
    exact h.1.makeData h.2 hs hopen swap fsize count room

end H2Flow

/-- **H2 send windows**: in every run that reports no error, the windows are those of RFC 7540
and no stream with a positive window is blocked, as long as no SETTINGS frame brings a
window above 2^31 - 1, no WINDOW_UPDATE frame has its reserved bit set, and the initial
window does not come back to where it was within one call. -/
theorem h2_windows_exact {maxStreams : UInt32} {isBack : Bool} {streamsLimit : UInt32}
    {ops : List H2FlowOp} {x : H2Flow}
    (hmeet : StepsMeet (H2Flow.step maxStreams) (fun x op => op.Regular maxStreams x)
      (H2Flow.init isBack streamsLimit) ops)
    (hrun : ops.foldlM (H2Flow.step maxStreams) (H2Flow.init isBack streamsLimit) = .ok x) :
    x.Exact := by
  have hgood : x.Good := foldlM_invariant_of_meet (P := fun _ x => H2Flow.Good x)
    (H2Flow.init_good isBack streamsLimit) (fun _ _ _ _ h hreg hstep => h.step hreg hstep)
    hmeet hrun
  exact hgood.1.exact hgood.2

/-- A stream, a smaller initial window, and an increment. -/
def smallerWindow : List H2FlowOp :=
  [.openStream 1 true, .demux [.settings false [(4, 100)], .windowUpdate 1 5]]

theorem h2_windows_exact_smaller :
    ∃ x, smallerWindow.foldlM (H2Flow.step 100) (H2Flow.init false 100) = .ok x ∧ x.Exact := by
  have hok : (smallerWindow.foldlM (H2Flow.step 100) (H2Flow.init false 100)).isOk = true := by
    decide +kernel
  rcases hrun : smallerWindow.foldlM (H2Flow.step 100) (H2Flow.init false 100) with e | x
  · rw [hrun] at hok
    cases hok
  refine ⟨x, rfl, h2_windows_exact ?_ hrun⟩
  refine stepsMeet_cons trivial fun x hx => stepsMeet_cons ?_ fun _ _ => stepsMeet_nil _ _ _
  obtain rfl := Except.ok.inj hx
  refine ⟨stepsMeet_cons ?_ fun c hc => stepsMeet_cons ?_ fun _ _ => stepsMeet_nil _ _ _, ?_⟩
  · intro s hs _
    obtain rfl := List.mem_singleton.mp hs
    decide
  · intro s _ _ _
    exact .inl (by decide)
  · intro hsame
    exact absurd hsame (by decide)

/-! ### Windows that are not exact -/

/-- A window below zero, and an increment with the reserved bit set. -/
def reservedBit : List H2FlowOp :=
  [.openStream 1 true, .send 1 false 10 10 1000, .demux [.settings false [(4, 0)]],
    .demux [.windowUpdate 1 0x8000000f]]

/-- An initial window that is too large for a stream with an increment. -/
def largerWindow : List H2FlowOp :=
  [.openStream 1 true, .demux [.windowUpdate 1 1], .demux [.settings false [(4, 0x7fffffff)]]]

/-- A blocked stream, and the initial window away and back. -/
def awayAndBack : List H2FlowOp :=
  [.demux [.settings false [(4, 10)]], .openStream 1 true, .send 1 false 10 10 1000,
    .send 1 false 10 10 1000,
    .demux [.settings false [(4, 0)], .windowUpdate 1 5, .settings false [(4, 10)]]]

/-- **H2 send windows**: the reserved bit is not ignored, a SETTINGS frame makes a window wrap
around, and a stream with a positive window is left blocked. -/
theorem not_h2_windows_exact :
    (∃ x, reservedBit.foldlM (H2Flow.step 100) (H2Flow.init false 100) = .ok x ∧
      ¬ x.Exact) ∧
    (∃ x, largerWindow.foldlM (H2Flow.step 100) (H2Flow.init false 100) = .ok x ∧
      ¬ x.Exact) ∧
    ∃ x, awayAndBack.foldlM (H2Flow.step 100) (H2Flow.init false 100) = .ok x ∧ ¬ x.Exact := by
  refine ⟨⟨_, rfl, fun h => ?_⟩, ⟨_, rfl, fun h => ?_⟩, ⟨_, rfl, fun h => ?_⟩⟩
  · exact absurd (h.stream _ (List.mem_singleton.mpr rfl) rfl) (by decide)
  · exact absurd (h.streamMax _ (List.mem_singleton.mpr rfl) rfl) (by decide)
  · exact absurd (h.unblocked _ (List.mem_singleton.mpr rfl) (by decide)) (by decide)

end SmartHAProxy
