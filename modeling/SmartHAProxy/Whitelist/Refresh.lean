/-
When the whitelist is refreshed.

Three routines dispatch requests (`get_server_rnd`, `fwrr_get_next_server`,
`fwlc_get_next_server`), and each starts, under `check.lock`, by counting the
request in the global `reqCount` and by calling `updateWhitelist` when the
counter is *equal* to a limit or the last update is too old.  The limits
differ: 1000 requests or 5 seconds for random, 10000 requests or 2 seconds for
the other two.

Because the test is an equality, the counter passes the limit when the request
that brings it to 10000 is a random one.  `fresh_iff` says that this is the
only way: the counter stays within 10000 exactly when no random request that
is followed by another one finds the counter at 9999 with its own time test
silent.
-/
import Mathlib.Algebra.Order.Ring.Rat
import Mathlib.Data.List.Infix

namespace SmartHAProxy

/-! ### The counter -/

/-- `ReqCount`: requests since the last update, and its date in clock ticks. -/
structure ReqCount where
  count : ℤ
  time : ℤ
  deriving DecidableEq, Repr

def clocksPerSec : ℤ := 1000000

/-- Seconds between two dates.  The code rounds the quotient to a double, which
does not matter to a comparison with a small integer. -/
def howLong (start stop : ℤ) : ℚ := (stop - start : ℤ) / (clocksPerSec : ℚ)

/-- The common prologue of the three routines: count the request, update the
whitelist if the counter is at `limit` or the last update is `age` seconds
old.  `t2` is the date of the request, `now` the date after the update.  The
boolean says whether `updateWhitelist` was called. -/
def refresh (limit : ℤ) (age : ℚ) (rc : ReqCount) (t2 now : ℤ) : ReqCount × Bool :=
  let count := rc.count + 1
  if count = limit ∨ age ≤ howLong rc.time t2 then ({ count := 0, time := now }, true)
  else ({ rc with count := count }, false)

/-- The prologue of `get_server_rnd`. -/
def getServerRndRefresh := refresh 1000 5

/-- The prologue of `fwrr_get_next_server`. -/
def fwrrGetNextServerRefresh := refresh 10000 2

/-- The prologue of `fwlc_get_next_server`. -/
def fwlcGetNextServerRefresh := refresh 10000 2

/-- The balancing algorithms that consult the whitelist. -/
inductive Balance
  | random
  | roundrobin
  | leastconn
  deriving DecidableEq, Repr

/-- A request: the algorithm of its backend, and the two dates its prologue
reads. -/
structure Dispatch where
  balance : Balance
  t2 : ℤ
  now : ℤ
  deriving DecidableEq, Repr

def dispatch (rc : ReqCount) (r : Dispatch) : ReqCount × Bool :=
  match r.balance with
  | .random => getServerRndRefresh rc r.t2 r.now
  | .roundrobin => fwrrGetNextServerRefresh rc r.t2 r.now
  | .leastconn => fwlcGetNextServerRefresh rc r.t2 r.now

/-- The counter after a run of requests, served one after the other under
`check.lock`.  It is 0 when the process starts. -/
def reqCount (start : ℤ) (rs : List Dispatch) : ReqCount :=
  rs.foldl (fun rc r => (dispatch rc r).1) { count := 0, time := start }

/-! ### Freshness -/

variable (start : ℤ)

/-- Over the whole run the counter never exceeds 10000, also not between its
increment and the test, and no more than 10000 requests in a row are
dispatched without an update. -/
def Fresh (rs : List Dispatch) : Prop :=
  (∀ pre r, pre ++ [r] <+: rs → (reqCount start pre).count + 1 ≤ 10000) ∧
  ∀ pre blk, pre ++ blk <+: rs →
    (∀ blk' r, blk' ++ [r] <+: blk → (dispatch (reqCount start (pre ++ blk')) r).2 = false) →
    blk.length ≤ 10000

/-- A random request that brings the counter to 10000 without an update. -/
def Misses (rc : ReqCount) (r : Dispatch) : Prop :=
  r.balance = .random ∧ rc.count = 9999 ∧ howLong rc.time r.t2 < 5

theorem reqCount_concat (rs : List Dispatch) (r : Dispatch) :
    reqCount start (rs ++ [r]) = (dispatch (reqCount start rs) r).1 := by
  simp [reqCount]

theorem dispatch_cases (rc : ReqCount) (r : Dispatch) :
    ((dispatch rc r).2 = true ∧ (dispatch rc r).1.count = 0) ∨
      ((dispatch rc r).2 = false ∧ (dispatch rc r).1.count = rc.count + 1) := by
  have key : ∀ limit age t2 now,
      ((refresh limit age rc t2 now).2 = true ∧ (refresh limit age rc t2 now).1.count = 0) ∨
        ((refresh limit age rc t2 now).2 = false ∧
          (refresh limit age rc t2 now).1.count = rc.count + 1) := by
    intro limit age t2 now
    unfold refresh
    simp only
    split_ifs
    · exact .inl ⟨rfl, rfl⟩
    · exact .inr ⟨rfl, rfl⟩
  unfold dispatch
  cases r.balance with
  | random => exact key _ _ _ _
  | roundrobin => exact key _ _ _ _
  | leastconn => exact key _ _ _ _

theorem misses_of_dispatch {rc : ReqCount} {r : Dispatch}
    (h : (dispatch rc r).1.count = 10000) : Misses rc r := by
  unfold dispatch at h
  rcases hb : r.balance with - | - | -
  · simp only [hb, getServerRndRefresh, refresh] at h
    split_ifs at h with hlim
    · simp at h
    · obtain ⟨-, hage⟩ := not_or.mp hlim
      simp only at h
      exact ⟨hb, by omega, not_le.mp hage⟩
  all_goals
    simp only [hb, fwrrGetNextServerRefresh, fwlcGetNextServerRefresh, refresh] at h
    split_ifs at h with hlim
    · simp at h
    · exact absurd h (not_or.mp hlim).1

theorem refresh_silent {limit : ℤ} {age : ℚ} (rc : ReqCount) (t2 now : ℤ)
    (hcount : rc.count + 1 ≠ limit) (hage : howLong rc.time t2 < age) :
    refresh limit age rc t2 now = ({ rc with count := rc.count + 1 }, false) :=
  if_neg (not_or.mpr ⟨hcount, not_le.mpr hage⟩)

theorem Misses.dispatch_eq {rc : ReqCount} {r : Dispatch} (h : Misses rc r) :
    (dispatch rc r).1.count = 10000 := by
  obtain ⟨hb, hcount, hage⟩ := h
  simp only [dispatch, hb, getServerRndRefresh]
  rw [refresh_silent rc r.t2 r.now (by omega) hage]
  simp only
  omega

theorem reqCount_nonneg (rs : List Dispatch) : 0 ≤ (reqCount start rs).count := by
  induction rs using List.reverseRecOn with
  | nil => exact le_rfl
  | append_singleton rs r ih =>
    rw [reqCount_concat]
    rcases dispatch_cases (reqCount start rs) r with ⟨-, h⟩ | ⟨-, h⟩ <;> omega

theorem reqCount_lt {rs : List Dispatch}
    (h : ∀ pre r, pre ++ [r] <+: rs → ¬ Misses (reqCount start pre) r) :
    (reqCount start rs).count < 10000 := by
  induction rs using List.reverseRecOn with
  | nil => simp [reqCount]
  | append_singleton rs r ih =>
    have hlt := ih fun pre q hq => h pre q (hq.trans (List.prefix_append _ _))
    have hr := h rs r (List.prefix_refl _)
    rw [reqCount_concat]
    have hne : (dispatch (reqCount start rs) r).1.count ≠ 10000 :=
      fun heq => hr (misses_of_dispatch heq)
    rcases dispatch_cases (reqCount start rs) r with ⟨-, h0⟩ | ⟨-, h1⟩ <;> omega

theorem reqCount_quiet {pre blk : List Dispatch}
    (h : ∀ blk' r, blk' ++ [r] <+: blk →
      (dispatch (reqCount start (pre ++ blk')) r).2 = false) :
    (reqCount start (pre ++ blk)).count = (reqCount start pre).count + blk.length := by
  induction blk using List.reverseRecOn with
  | nil => simp
  | append_singleton blk r ih =>
    have hblk := ih fun blk' q hq => h blk' q (hq.trans (List.prefix_append _ _))
    have hr := h blk r (List.prefix_refl _)
    rw [← List.append_assoc, reqCount_concat]
    rcases dispatch_cases (reqCount start (pre ++ blk)) r with ⟨ht, -⟩ | ⟨-, h1⟩
    · rw [ht] at hr; cases hr
    · rw [h1, hblk, List.length_append, List.length_singleton]
      push_cast
      omega

/-- **Freshness.**  Over every run of requests, whatever the algorithms of
their backends and the dates, the counter stays within 10000 exactly when no
request but the last one misses its turn. -/
theorem fresh_iff (rs : List Dispatch) :
    Fresh start rs ↔
      ∀ pre r q, pre ++ [r, q] <+: rs → ¬ Misses (reqCount start pre) r := by
  constructor
  · rintro ⟨hpeak, -⟩ pre r q hpre hmiss
    have hq := hpeak (pre ++ [r]) q (by simpa using hpre)
    rw [reqCount_concat, hmiss.dispatch_eq] at hq
    exact absurd hq (by decide)
  · intro h
    have hpeak : ∀ pre r, pre ++ [r] <+: rs → (reqCount start pre).count + 1 ≤ 10000 := by
      intro pre r hpre
      have hlt : (reqCount start pre).count < 10000 := by
        refine reqCount_lt start fun pre' r' hpre' => ?_
        obtain ⟨rest, hrest⟩ := hpre'
        -- the request after `r'` in the run
        rcases rest with - | ⟨q, rest⟩
        · have : pre' ++ [r', r] <+: rs := by
            rw [← hrest] at hpre
            simpa using hpre
          exact h pre' r' r this
        · have : pre' ++ [r', q] <+: rs := by
            refine List.IsPrefix.trans ⟨rest ++ [r], ?_⟩ hpre
            rw [← hrest]
            simp
          exact h pre' r' q this
      omega
    refine ⟨hpeak, fun pre blk hpre hquiet => ?_⟩
    rcases List.eq_nil_or_concat' blk with rfl | ⟨blk, r, rfl⟩
    · simp
    · have hcount := reqCount_quiet start fun blk' q hq =>
        hquiet blk' q (hq.trans (List.prefix_append _ _))
      have := hpeak (pre ++ blk) r (by simpa using hpre)
      have hnonneg := reqCount_nonneg start pre
      simp only [List.length_append, List.length_singleton]
      omega

/-! ### A run that misses -/

/-- A request of a round-robin backend at date 0. -/
def plainRequest : Dispatch := { balance := .roundrobin, t2 := 0, now := 0 }

theorem howLong_self (t : ℤ) : howLong t t = 0 := by simp [howLong]

theorem reqCount_plain {n : ℕ} (hn : n < 10000) :
    reqCount 0 (List.replicate n plainRequest) = { count := n, time := 0 } := by
  induction n with
  | zero => rfl
  | succ n ih =>
    have hage : howLong 0 0 < 2 := by rw [howLong_self]; decide
    rw [List.replicate_succ', reqCount_concat, ih (by omega)]
    show (refresh 10000 2 { count := n, time := 0 } 0 0).1 = _
    have hcount : (n : ℤ) + 1 ≠ 10000 := by omega
    rw [refresh_silent { count := n, time := 0 } 0 0 hcount hage]
    simp

/-- 9999 round-robin requests, a random one, and one more: the counter reaches
10001 and no update was made. -/
theorem not_fresh_random_at_9999 :
    ¬ Fresh 0 (List.replicate 9999 plainRequest ++
      [{ balance := .random, t2 := 0, now := 0 }, plainRequest]) := by
  rintro ⟨hpeak, -⟩
  have hpre : ∀ (L : List Dispatch) a b, (L ++ [a]) ++ [b] <+: L ++ [a, b] := by simp
  have h := hpeak _ _ (hpre (List.replicate 9999 plainRequest) _ _)
  have hmiss : Misses { count := 9999, time := 0 } { balance := .random, t2 := 0, now := 0 } :=
    ⟨rfl, rfl, by rw [howLong_self]; decide⟩
  rw [reqCount_concat, reqCount_plain (by decide)] at h
  rw [show ((9999 : ℕ) : ℤ) = 9999 by rfl, hmiss.dispatch_eq] at h
  exact absurd h (by decide)

end SmartHAProxy
