/-
The timers of the scheduler (src/task.c, include/haproxy/task.h and ticks.h).

A task has an expiration date, a 32-bit count of milliseconds where 0 stands for
no date.  A task that waits for its date is linked into one of two trees, the
thread's own or the one shared by all threads, under the date it had when it was
queued.  The date may be changed while the task is queued; the tree is only
corrected when the task is found in `wakeExpiredTasks`.

The trees are named by the flag of the tasks they hold: `timers false` is
`sched->timers` and `timers true` is the global `timers`.
-/
import SmartHAProxy.Lib.Circle

namespace SmartHAProxy

/-! ### Dates -/

/-- `tick_isset`; `TICK_ETERNITY` is 0. -/
def tickIsset (expire : UInt32) : Bool := expire != 0

/-- `tick_is_lt`: the sign of the difference. -/
def tickIsLt (t1 t2 : UInt32) : Bool := signBit (t1 - t2)

/-- `(t1 - t2) <= 0`, for two ticks that are set. -/
def tickIsLe (t1 t2 : UInt32) : Bool := signBit (t1 - t2) || t1 - t2 == 0

def tickIsExpired (timer now : UInt32) : Bool := tickIsset timer && tickIsLe timer now

def tickFirst (t1 t2 : UInt32) : UInt32 :=
  if !tickIsset t1 then t2
  else if !tickIsset t2 then t1
  else if tickIsLe t1 t2 then t1
  else t2

theorem tickIsLe_tick {d e : ℤ} (hle : e - 2 ^ 31 ≤ d) (hlt : d < e + 2 ^ 31) :
    tickIsLe (tick d) (tick e) = true ↔ d ≤ e := by
  have hzero : (tick d - tick e == 0) = true ↔ d = e := by
    have h := toNat_tick (d - e)
    rw [tick_sub, beq_iff_eq, ← UInt32.toNat_inj, show (0 : UInt32).toNat = 0 from rfl]
    omega
  rw [tickIsLe, Bool.or_eq_true, hzero, signBit_sub_iff hle hlt]
  exact le_iff_lt_or_eq.symm

theorem tickIsExpired_tick {d now : ℤ} (hle : now - 2 ^ 31 ≤ d) (hlt : d < now + 2 ^ 31)
    (hset : tick d ≠ 0) : tickIsExpired (tick d) (tick now) = true ↔ d ≤ now := by
  rw [tickIsExpired, Bool.and_eq_true, tickIsLe_tick hle hlt]
  simp [tickIsset, hset]

/-! ### The queues -/

/-- The scheduler's timers: the two trees, the dates of the tasks and the clock. -/
structure Sched (ι : Type) where
  timers : Bool → EbTree UInt32 ι
  expire : ι → UInt32
  nowMs : UInt32

variable {ι : Type} [DecidableEq ι]

namespace Sched

/-- `__task_unlink_wq`: a node knows which tree it is in. -/
def unlinkWq (s : Sched ι) (i : ι) : Sched ι :=
  { s with timers := fun b => (s.timers b).delete i }

/-- `__task_queue`: the node is moved to the place of the task's date in `wq`. -/
def queueIn (s : Sched ι) (wq : Bool) (i : ι) : Sched ι :=
  { s.unlinkWq i with
    timers := fun b =>
      let t := (s.unlinkWq i).timers b
      if b = wq then t.insert (s.expire i) i else t }

/-- The key of a task's node; none when it is in no tree (`task_in_wq`). -/
def wqKey (s : Sched ι) (shared : ι → Bool) (i : ι) : Option UInt32 :=
  ((s.timers (shared i)).nodes.find? (·.2 = i)).map Prod.fst

/-- `task_queue`: a task that is queued no later than its date stays where it is. -/
def taskQueue (s : Sched ι) (shared : ι → Bool) (i : ι) : Sched ι :=
  if !tickIsset (s.expire i) then s
  else match s.wqKey shared i with
    | none => s.queueIn (shared i) i
    | some key => if tickIsLt (s.expire i) key then s.queueIn (shared i) i else s

def setExpire (s : Sched ι) (i : ι) (e : UInt32) : Sched ι :=
  { s with expire := Function.update s.expire i e }

@[simp] theorem expire_setExpire_self (s : Sched ι) (i : ι) (e : UInt32) :
    (s.setExpire i e).expire i = e := by
  simp [setExpire]

theorem expire_setExpire_of_ne (s : Sched ι) {i j : ι} (h : j ≠ i) (e : UInt32) :
    (s.setExpire i e).expire j = s.expire j := by
  simp [setExpire, h]

/-- The first node of a tree, seen from `now_ms - TIMER_LOOK_BACK` on. -/
def next (s : Sched ι) (wq : Bool) : Option (UInt32 × ι) :=
  (s.timers wq).lookupFrom (s.nowMs - UInt32.ofNat (2 ^ 31))

/-- What a scan of a tree leaves: the scheduler, the tasks it has woken up, in
order, and the part of the budget that is not used. -/
structure Scan (ι : Type) where
  sched : Sched ι
  woken : List ι
  maxProcessed : ℕ

/-- The two loops of `wake_expired_tasks`, one for each tree.  A budget below zero
counts as zero: both loops only test whether it is positive. -/
def wakeLoop (wq : Bool) : ℕ → Sched ι → Scan ι
  | 0, s => ⟨s, [], 0⟩
  | maxProcessed + 1, s =>
    match s.next wq with
    | none => ⟨s, [], maxProcessed⟩
    | some (key, i) =>
      if tickIsExpired (s.expire i) s.nowMs then
        let r := wakeLoop wq maxProcessed (s.unlinkWq i)
        { r with woken := i :: r.woken }
      else if s.expire i ≠ key then
        if tickIsset (s.expire i) then wakeLoop wq maxProcessed (s.queueIn wq i)
        else wakeLoop wq maxProcessed (s.unlinkWq i)
      else ⟨s, [], maxProcessed⟩

/-- `wake_expired_tasks`: the shared tree is only visited when its first node is
not after the current date. -/
def wakeExpiredTasks (s : Sched ι) (runqueueDepth : ℕ) : Scan ι :=
  let r := s.wakeLoop false runqueueDepth
  match r.sched.next true with
  | none => r
  | some (key, _) =>
    if tickIsLt r.sched.nowMs key then r
    else
      let r' := r.sched.wakeLoop true r.maxProcessed
      { r' with woken := r.woken ++ r'.woken }

def nextTimerExpiry (s : Sched ι) : UInt32 :=
  let ret := match s.next false with
    | some (key, _) => key
    | none => 0
  match s.next true with
  | some (key, _) => tickFirst ret key
  | none => ret

end Sched

end SmartHAProxy
