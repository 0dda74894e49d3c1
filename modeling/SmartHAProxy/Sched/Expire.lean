/-
Timers are neither lost nor early.

The dates the tasks wait for are followed as integers beside the program, whose
own dates are readings of a 32-bit clock (`Timed`).  What ties the two together
is `Files`: a task that waits for a date is linked in its tree under a key that
stands for a date not later, so that a scan of the tree in the order of the keys
comes to it in time.

The scan is followed step by step (`Files.unlinkWq`, `Files.queueIn`), with the
number of nodes that are not at their place as its measure (`stale`).  The main
result, `wakeExpiredTasks_exact`, is about every state reached by any sequence of
changes of dates and scans of any length.
-/
import SmartHAProxy.Sched.Timers

namespace SmartHAProxy

variable {d : ℤ} {b wq : Bool} {key : UInt32}

variable {ι : Type}
variable {i : ι} {n : UInt32 × ι}

/-! ### What the trees have to do with the dates -/

/-- The trees file the tasks in time: `date i` is the date that `i` waits for. -/
structure Files (shared : ι → Bool) (s : Sched ι) (now : ℤ) (date : ι → Option ℤ) : Prop where
  clock : s.nowMs = tick now
  owner : ∀ b, ∀ n ∈ (s.timers b).nodes, shared n.2 = b
  once : ∀ b, (s.timers b).items.Nodup
  isset : ∀ b, ∀ n ∈ (s.timers b).nodes, n.1 ≠ 0
  recent : ∀ b, ∀ n ∈ (s.timers b).nodes, now - 2 ^ 31 < dateFrom (now - 2 ^ 31) n.1
  expire : ∀ i d, date i = some d → s.expire i = tick d ∧ tick d ≠ 0 ∧ d < now + 2 ^ 31
  filed : ∀ i d, date i = some d →
    ∃ key, (key, i) ∈ (s.timers (shared i)).nodes ∧ dateFrom (now - 2 ^ 31) key ≤ d
  disabled : ∀ b, ∀ n ∈ (s.timers b).nodes, date n.2 = none → s.expire n.2 = 0

/-- The dates that are left when the tasks of a list have been woken up. -/
def dropDates [DecidableEq ι] (date : ι → Option ℤ) (woken : List ι) (i : ι) : Option ℤ :=
  if i ∈ woken then none else date i

namespace Files

variable {shared : ι → Bool} {s : Sched ι} {now : ℤ} {date : ι → Option ℤ}

theorem nowMs_sub (h : Files shared s now date) :
    s.nowMs - UInt32.ofNat (2 ^ 31) = tick (now - 2 ^ 31) := by
  rw [h.clock, show UInt32.ofNat (2 ^ 31) = tick (2 ^ 31) by decide, tick_sub]

theorem lt_date (h : Files shared s now date) (hd : date i = some d) : now - 2 ^ 31 < d := by
  obtain ⟨key, hmem, hkey⟩ := h.filed i d hd
  exact (h.recent _ _ hmem).trans_le hkey

theorem dateFrom_expire (h : Files shared s now date) (hd : date i = some d) :
    dateFrom (now - 2 ^ 31) (s.expire i) = d := by
  obtain ⟨hexp, -, hlt⟩ := h.expire i d hd
  rw [hexp]
  exact dateFrom_tick (h.lt_date hd).le (by omega)

theorem exists_date (h : Files shared s now date) (hn : n ∈ (s.timers b).nodes)
    (hset : s.expire n.2 ≠ 0) : ∃ d, date n.2 = some d := by
  rcases hd : date n.2 with - | d
  · exact absurd (h.disabled b n hn hd) hset
  · exact ⟨d, rfl⟩

theorem tickIsExpired_iff (h : Files shared s now date) (hd : date i = some d) :
    tickIsExpired (s.expire i) s.nowMs = true ↔ d ≤ now := by
  obtain ⟨hexp, hset, hlt⟩ := h.expire i d hd
  rw [hexp, h.clock]
  exact tickIsExpired_tick (h.lt_date hd).le hlt hset

theorem next_spec (h : Files shared s now date) (hn : s.next b = some n) :
    n ∈ (s.timers b).nodes ∧
      ∀ m ∈ (s.timers b).nodes, dateFrom (now - 2 ^ 31) n.1 ≤ dateFrom (now - 2 ^ 31) m.1 := by
  rw [Sched.next, h.nowMs_sub] at hn
  exact lookupFrom_spec hn

theorem next_none (h : Files shared s now date) (hn : s.next b = none) :
    (s.timers b).nodes = [] := by
  rw [Sched.next, h.nowMs_sub] at hn
  exact lookupFrom_eq_none.mp hn

/-! ### The steps -/

theorem advance (h : Files shared s now date) (ms : ℕ)
    (hms : ∀ b, ∀ n ∈ (s.timers b).nodes, now + ms < dateFrom (now - 2 ^ 31) n.1 + 2 ^ 31) :
    Files shared { s with nowMs := s.nowMs + UInt32.ofNat ms } (now + ms) date := by
  have hsame : ∀ b, ∀ n ∈ (s.timers b).nodes,
      dateFrom (now + ms - 2 ^ 31) n.1 = dateFrom (now - 2 ^ 31) n.1 := by
    intro b n hn
    have := hms b n hn
    exact dateFrom_of_le (by omega) (by omega)
  refine ⟨?_, h.owner, h.once, h.isset, ?_, ?_, ?_, h.disabled⟩
  · show s.nowMs + UInt32.ofNat ms = tick (now + ms)
    have htick : UInt32.ofNat ms = tick ms := by
      apply UInt32.toNat_inj.mp
      have hms := toNat_tick ms
      rw [UInt32.toNat_ofNat']
      omega
    rw [h.clock, htick, tick_add]
  · intro b n hn
    rw [hsame b n hn]
    have := hms b n hn
    omega
  · intro i d hd
    obtain ⟨hexp, hset, hlt⟩ := h.expire i d hd
    exact ⟨hexp, hset, by omega⟩
  · intro i d hd
    obtain ⟨key, hmem, hkey⟩ := h.filed i d hd
    refine ⟨key, hmem, ?_⟩
    rw [hsame _ _ hmem]
    exact hkey

variable [DecidableEq ι]

theorem unlinkWq (h : Files shared s now date) (i : ι) :
    Files shared (s.unlinkWq i) now (dropDates date [i]) where
  clock := h.clock
  owner := fun b n hn => h.owner b n (EbTree.mem_nodes_delete.mp hn).1
  once := fun b => EbTree.nodup_items_delete i (h.once b)
  isset := fun b n hn => h.isset b n (EbTree.mem_nodes_delete.mp hn).1
  recent := fun b n hn => h.recent b n (EbTree.mem_nodes_delete.mp hn).1
  expire := by
    intro j d hd
    rw [dropDates] at hd
    split_ifs at hd with hj
    exact h.expire j d hd
  filed := by
    intro j d hd
    rw [dropDates] at hd
    split_ifs at hd with hj
    obtain ⟨key, hmem, hkey⟩ := h.filed j d hd
    have hji : j ≠ i := by simpa using hj
    exact ⟨key, EbTree.mem_nodes_delete.mpr ⟨hmem, hji⟩, hkey⟩
  disabled := by
    intro b n hn hd
    obtain ⟨hn, hne⟩ := EbTree.mem_nodes_delete.mp hn
    rw [dropDates, if_neg (by simpa using hne)] at hd
    exact h.disabled b n hn hd

theorem unlinkWq_of_none (h : Files shared s now date) (hi : date i = none) :
    Files shared (s.unlinkWq i) now date := by
  have hdrop : dropDates date [i] = date := by
    funext j
    rw [dropDates]
    split_ifs with hj
    · rw [List.mem_singleton.mp hj, hi]
    · rfl
  rw [← hdrop]
  exact h.unlinkWq i

theorem mem_queueIn {s : Sched ι} :
    n ∈ ((s.queueIn wq i).timers b).nodes
      ↔ (b = wq ∧ n = (s.expire i, i)) ∨ (n ∈ (s.timers b).nodes ∧ n.2 ≠ i) := by
  show n ∈ (if b = wq then ((s.timers b).delete i).insert (s.expire i) i
    else (s.timers b).delete i).nodes ↔ _
  split_ifs with hb
  · rw [EbTree.mem_nodes_insert, EbTree.mem_nodes_delete]
    simp [hb]
  · rw [EbTree.mem_nodes_delete]
    simp [hb]

/-- A task is queued at the place of its date. -/
theorem queueIn_setExpire (h : Files shared s now date) (i : ι) (hset : tick d ≠ 0)
    (hgt : now - 2 ^ 31 < d) (hlt : d < now + 2 ^ 31) :
    Files shared ((s.setExpire i (tick d)).queueIn (shared i) i) now
      (Function.update date i (some d)) := by
  have hexp := s.expire_setExpire_self i (tick d)
  have hdate : dateFrom (now - 2 ^ 31) (tick d) = d := dateFrom_tick hgt.le (by omega)
  -- each clause: task `i`, which is filed anew, and the others as before
  refine ⟨h.clock, ?_, ?_, ?_, ?_, ?_, ?_, ?_⟩
  · intro b n hn
    rcases mem_queueIn.mp hn with ⟨rfl, rfl⟩ | ⟨hn, -⟩
    · rfl
    · exact h.owner b n hn
  · intro b
    show (if b = shared i then ((s.timers b).delete i).insert _ i
      else (s.timers b).delete i).items.Nodup
    split_ifs with hb
    · exact EbTree.nodup_items_insert_delete _ i (h.once b)
    · exact EbTree.nodup_items_delete i (h.once b)
  · intro b n hn
    rcases mem_queueIn.mp hn with ⟨-, rfl⟩ | ⟨hn, -⟩
    · rw [hexp]
      exact hset
    · exact h.isset b n hn
  · intro b n hn
    rcases mem_queueIn.mp hn with ⟨-, rfl⟩ | ⟨hn, -⟩
    · rw [hexp, hdate]
      exact hgt
    · exact h.recent b n hn
  · intro j e hj
    show (s.setExpire i (tick d)).expire j = tick e ∧ _
    by_cases hji : j = i
    · subst hji
      rw [Function.update_self, Option.some.injEq] at hj
      subst hj
      exact ⟨hexp, hset, hlt⟩
    · rw [Function.update_of_ne hji] at hj
      rw [Sched.expire_setExpire_of_ne s hji]
      exact h.expire j e hj
  · intro j e hj
    by_cases hji : j = i
    · subst hji
      rw [Function.update_self, Option.some.injEq] at hj
      subst hj
      exact ⟨tick d, mem_queueIn.mpr (Or.inl ⟨rfl, by rw [hexp]⟩), hdate.le⟩
    · rw [Function.update_of_ne hji] at hj
      obtain ⟨key, hmem, hkey⟩ := h.filed j e hj
      exact ⟨key, mem_queueIn.mpr (Or.inr ⟨hmem, hji⟩), hkey⟩
  · intro b n hn hnone
    show (s.setExpire i (tick d)).expire n.2 = 0
    rcases mem_queueIn.mp hn with ⟨-, rfl⟩ | ⟨hn, hne⟩
    · rw [Function.update_self] at hnone
      cases hnone
    · rw [Function.update_of_ne hne] at hnone
      rw [Sched.expire_setExpire_of_ne s hne]
      exact h.disabled b n hn hnone

theorem queueIn (h : Files shared s now date) (hd : date i = some d) :
    Files shared (s.queueIn (shared i) i) now date := by
  obtain ⟨hexp, hset, hlt⟩ := h.expire i d hd
  have hq := h.queueIn_setExpire i hset (h.lt_date hd) hlt
  rw [← hd, Function.update_eq_self, ← hexp] at hq
  have hsame : s.setExpire i (s.expire i) = s := by
    rw [Sched.setExpire, Function.update_eq_self]
  rwa [hsame] at hq

theorem setExpire (h : Files shared s now date) (hset : tick d ≠ 0)
    (hkey : (key, i) ∈ (s.timers (shared i)).nodes) (hle : dateFrom (now - 2 ^ 31) key ≤ d)
    (hlt : d < now + 2 ^ 31) :
    Files shared (s.setExpire i (tick d)) now (Function.update date i (some d)) := by
  refine ⟨h.clock, h.owner, h.once, h.isset, h.recent, ?_, ?_, ?_⟩
  · intro j e hj
    by_cases hji : j = i
    · subst hji
      rw [Function.update_self, Option.some.injEq] at hj
      subst hj
      exact ⟨s.expire_setExpire_self j _, hset, hlt⟩
    · rw [Function.update_of_ne hji] at hj
      rw [Sched.expire_setExpire_of_ne s hji]
      exact h.expire j e hj
  · intro j e hj
    by_cases hji : j = i
    · subst hji
      rw [Function.update_self, Option.some.injEq] at hj
      subst hj
      exact ⟨key, hkey, hle⟩
    · rw [Function.update_of_ne hji] at hj
      exact h.filed j e hj
  · intro b n hn hnone
    by_cases hni : n.2 = i
    · rw [hni, Function.update_self] at hnone
      cases hnone
    · rw [Function.update_of_ne hni] at hnone
      rw [Sched.expire_setExpire_of_ne s hni]
      exact h.disabled b n hn hnone

theorem disable (h : Files shared s now date) (i : ι) :
    Files shared (s.setExpire i 0) now (Function.update date i none) := by
  refine ⟨h.clock, h.owner, h.once, h.isset, h.recent, ?_, ?_, ?_⟩
  · intro j e hj
    obtain ⟨hji, hj⟩ : j ≠ i ∧ date j = some e := by
      simpa [Function.update_apply] using hj
    rw [Sched.expire_setExpire_of_ne s hji]
    exact h.expire j e hj
  · intro j e hj
    obtain ⟨-, hj⟩ : j ≠ i ∧ date j = some e := by
      simpa [Function.update_apply] using hj
    exact h.filed j e hj
  · intro b n hn hnone
    by_cases hni : n.2 = i
    · rw [hni, Sched.expire_setExpire_self]
    · rw [Function.update_of_ne hni] at hnone
      rw [Sched.expire_setExpire_of_ne s hni]
      exact h.disabled b n hn hnone

theorem taskQueue (h : Files shared s now date) (i : ι) (hset : tick d ≠ 0) (hgt : now - 2 ^ 31 < d)
    (hlt : d < now + 2 ^ 31)
    (hkey : ∀ key, s.wqKey shared i = some key → dateFrom (now - 2 ^ 31) key - 2 ^ 31 ≤ d) :
    Files shared ((s.setExpire i (tick d)).taskQueue shared i) now
      (Function.update date i (some d)) := by
  have hexp := s.expire_setExpire_self i (tick d)
  have hwq : (s.setExpire i (tick d)).wqKey shared i = s.wqKey shared i := rfl
  rw [Sched.taskQueue, hexp, hwq, if_neg (by simp [tickIsset, hset])]
  rcases hk : s.wqKey shared i with - | key
  · exact h.queueIn_setExpire i hset hgt hlt
  · have hmem : (key, i) ∈ (s.timers (shared i)).nodes := by
      obtain ⟨⟨key, j⟩, hn, rfl⟩ := Option.map_eq_some_iff.mp hk
      obtain rfl : j = i := by simpa using List.find?_some hn
      exact List.mem_of_find?_eq_some hn
    have hlow := hkey key hk
    show Files shared (if tickIsLt (tick d) key = true then _ else _) now _
    split_ifs with hearlier
    · exact h.queueIn_setExpire i hset hgt hlt
    · -- a task that stays is not queued for a later date
      refine h.setExpire hset hmem (not_lt.mp fun hd => hearlier ?_) hlt
      have hcmp := (signBit_sub_iff hlow (by omega)).mpr hd
      rwa [tick_dateFrom] at hcmp

/-! ### A scan of one tree -/

theorem dropDates_eq_some {date : ι → Option ℤ} {l : List ι} (h : dropDates date l i = some d) :
    i ∉ l ∧ date i = some d := by
  rw [dropDates] at h
  split_ifs at h with hi
  exact ⟨hi, h⟩

theorem dropDates_cons (date : ι → Option ℤ) (i : ι) (l : List ι) :
    dropDates (dropDates date [i]) l = dropDates date (i :: l) := by
  funext j
  simp only [dropDates, List.mem_cons]
  split_ifs <;> simp_all

@[simp] theorem dropDates_nil (date : ι → Option ℤ) : dropDates date [] = date := by
  funext i
  simp [dropDates]

/-- A scan of a tree, `date` before it: the tasks it has woken up were due, each of
them once, and the other ones are still filed. -/
structure Woke (shared : ι → Bool) (now : ℤ) (date : ι → Option ℤ) (r : Sched.Scan ι) : Prop where
  files : Files shared r.sched now (dropDates date r.woken)
  nodup : r.woken.Nodup
  due : ∀ i ∈ r.woken, ∃ d, date i = some d ∧ d ≤ now

theorem woke_nil (h : Files shared s now date) (m : ℕ) : Woke shared now date ⟨s, [], m⟩ :=
  ⟨by rwa [dropDates_nil], List.nodup_nil, by simp⟩

theorem Woke.cons {r : Sched.Scan ι} (hd : date i = some d) (hle : d ≤ now)
    (h : Woke shared now (dropDates date [i]) r) :
    Woke shared now date { r with woken := i :: r.woken } where
  files := by
    rw [← dropDates_cons]
    exact h.files
  nodup := by
    refine List.nodup_cons.mpr ⟨fun hi => ?_, h.nodup⟩
    obtain ⟨e, he, -⟩ := h.due i hi
    exact (dropDates_eq_some he).1 (List.mem_singleton_self i)
  due := by
    intro j hj
    rcases List.mem_cons.mp hj with rfl | hj
    · exact ⟨d, hd, hle⟩
    · obtain ⟨e, he, hle⟩ := h.due j hj
      exact ⟨e, (dropDates_eq_some he).2, hle⟩

theorem wakeLoop (h : Files shared s now date) (wq : Bool) (m : ℕ) :
    Woke shared now date (s.wakeLoop wq m) := by
  induction m generalizing s date with
  | zero => exact h.woke_nil 0
  | succ m ih =>
    rw [Sched.wakeLoop]
    rcases hnext : s.next wq with - | ⟨key, i⟩
    · exact h.woke_nil m
    · have hmem := (h.next_spec hnext).1
      have howner : shared i = wq := h.owner wq _ hmem
      simp only
      split_ifs with hexp hkey hset
      · -- the task is expired
        have hi : s.expire i ≠ 0 := by
          intro hzero
          simp [tickIsExpired, tickIsset, hzero] at hexp
        obtain ⟨d, hd⟩ := h.exists_date hmem hi
        exact (ih (h.unlinkWq i)).cons hd ((h.tickIsExpired_iff hd).mp hexp)
      · -- it is filed under another date
        obtain ⟨d, hd⟩ := h.exists_date hmem (by simpa [tickIsset] using hset)
        have hq := h.queueIn hd
        rw [howner] at hq
        exact ih hq
      · -- its date is disabled
        have hnone : date i = none := by
          rcases hd : date i with - | d
          · rfl
          · obtain ⟨hexp', hne, -⟩ := h.expire i d hd
            rw [hexp'] at hset
            simp [tickIsset, hne] at hset
        exact ih (h.unlinkWq_of_none hnone)
      · exact h.woke_nil m

end Files

/-! ### The length of a scan -/

namespace Sched

/-- The node is where its task's date is, and that date has not come. -/
def placed (s : Sched ι) (n : UInt32 × ι) : Bool :=
  decide (s.expire n.2 = n.1) && !tickIsExpired (s.expire n.2) s.nowMs

/-- How many nodes of a tree a scan may still have to visit. -/
def stale (s : Sched ι) (wq : Bool) : ℕ := (s.timers wq).nodes.countP fun n => !s.placed n

theorem stale_le (s : Sched ι) (wq : Bool) : s.stale wq ≤ (s.timers wq).nodes.length :=
  List.countP_le_length

variable [DecidableEq ι]

theorem stale_unlinkWq {s : Sched ι} (hn : (key, i) ∈ (s.timers wq).nodes)
    (hplaced : s.placed (key, i) = false) : (s.unlinkWq i).stale wq < s.stale wq := by
  have hcut := List.countP_eq_countP_filter_add (s.timers wq).nodes (fun m => !s.placed m)
    (fun m => decide (m.2 ≠ i))
  have hpos : 0 < ((s.timers wq).nodes.filter fun m => !decide (m.2 ≠ i)).countP
      fun m => !s.placed m :=
    List.countP_pos_iff.mpr ⟨(key, i), List.mem_filter.mpr ⟨hn, by simp⟩, by simp [hplaced]⟩
  show ((s.timers wq).nodes.filter fun m => decide (m.2 ≠ i)).countP (fun m => !s.placed m)
    < (s.timers wq).nodes.countP fun m => !s.placed m
  omega

theorem stale_queueIn {s : Sched ι} (hn : (key, i) ∈ (s.timers wq).nodes) (hkey : s.expire i ≠ key)
    (hexp : tickIsExpired (s.expire i) s.nowMs = false) :
    (s.queueIn wq i).stale wq < s.stale wq := by
  have hsame : (s.queueIn wq i).stale wq = (s.unlinkWq i).stale wq := by
    have htree : (s.queueIn wq i).timers wq
        = ((s.unlinkWq i).timers wq).insert (s.expire i) i := if_pos rfl
    rw [stale, htree, (EbTree.nodes_insert_perm _ _ _).countP_eq, List.countP_cons_of_neg]
    · rfl
    · show ¬(!s.placed (s.expire i, i)) = true
      simp [placed, hexp]
  rw [hsame]
  exact stale_unlinkWq hn (by simp [placed, hkey])

theorem wakeLoop_sublist (s : Sched ι) (wq : Bool) (hb : b ≠ wq) (m : ℕ) :
    ((s.wakeLoop wq m).sched.timers b).nodes.Sublist (s.timers b).nodes := by
  have hdelete : ∀ (s : Sched ι) (i : ι),
      ((s.unlinkWq i).timers b).nodes.Sublist (s.timers b).nodes :=
    fun s i => List.filter_sublist
  induction m generalizing s with
  | zero => exact List.Sublist.refl _
  | succ m ih =>
    rw [wakeLoop]
    rcases s.next wq with - | ⟨key, i⟩
    · exact List.Sublist.refl _
    · simp only
      split_ifs
      · exact (ih _).trans (hdelete s i)
      · refine (ih _).trans ?_
        have htree : (s.queueIn wq i).timers b = (s.unlinkWq i).timers b := if_neg hb
        rw [htree]
        exact hdelete s i
      · exact (ih _).trans (hdelete s i)
      · exact List.Sublist.refl _

end Sched

/-! ### The next date, after a complete scan -/

/-- Every node of the tree stands for a date that has not come. -/
def Later (s : Sched ι) (now : ℤ) (wq : Bool) : Prop :=
  ∀ n ∈ (s.timers wq).nodes, now < dateFrom (now - 2 ^ 31) n.1

namespace Files

variable {shared : ι → Bool} {s : Sched ι} {now : ℤ} {date : ι → Option ℤ}

theorem later_of_placed (h : Files shared s now date) (hn : s.next wq = some n)
    (hplaced : s.placed n = true) : Later s now wq := by
  obtain ⟨hmem, hfirst⟩ := h.next_spec hn
  rw [Sched.placed, Bool.and_eq_true, decide_eq_true_iff, Bool.not_eq_true'] at hplaced
  obtain ⟨hkey, hexp⟩ := hplaced
  obtain ⟨d, hd⟩ := h.exists_date hmem (by rw [hkey]; exact h.isset wq n hmem)
  have hlt : now < d := by
    rw [← not_le, ← h.tickIsExpired_iff hd, hexp]
    exact Bool.false_ne_true
  intro m hm
  calc now < d := hlt
    _ = dateFrom (now - 2 ^ 31) n.1 := by rw [← hkey, h.dateFrom_expire hd]
    _ ≤ dateFrom (now - 2 ^ 31) m.1 := hfirst m hm

theorem tickFirst_spec {now : ℤ} {k l : UInt32} (hk : k ≠ 0) (hl : l ≠ 0)
    (hk' : now < dateFrom (now - 2 ^ 31) k) (hl' : now < dateFrom (now - 2 ^ 31) l) :
    tickFirst k l ≠ 0 ∧ dateFrom (now - 2 ^ 31) (tickFirst k l) ≤ dateFrom (now - 2 ^ 31) k ∧
      dateFrom (now - 2 ^ 31) (tickFirst k l) ≤ dateFrom (now - 2 ^ 31) l := by
  have hk'' := dateFrom_lt (now - 2 ^ 31) k
  have hl'' := dateFrom_lt (now - 2 ^ 31) l
  have hcmp := tickIsLe_tick (d := dateFrom (now - 2 ^ 31) k) (e := dateFrom (now - 2 ^ 31) l)
    (by omega) (by omega)
  rw [tick_dateFrom, tick_dateFrom] at hcmp
  rw [tickFirst, if_neg (by simp [tickIsset, hk]), if_neg (by simp [tickIsset, hl])]
  split_ifs with hle
  · exact ⟨hk, le_rfl, hcmp.mp hle⟩
  · rw [hcmp, not_le] at hle
    exact ⟨hl, hle.le, le_rfl⟩

theorem tickFirst_zero (k : UInt32) : tickFirst 0 k = k := by
  simp [tickFirst, tickIsset]

theorem nextTimerExpiry_le_next (h : Files shared s now date) (hlater : ∀ wq, Later s now wq)
    (hn : s.next wq = some n) :
    s.nextTimerExpiry ≠ 0 ∧
      dateFrom (now - 2 ^ 31) s.nextTimerExpiry ≤ dateFrom (now - 2 ^ 31) n.1 := by
  have hset := h.isset wq n (h.next_spec hn).1
  have hafter := hlater wq n (h.next_spec hn).1
  rw [Sched.nextTimerExpiry]
  rcases wq with - | -
  · rw [hn]
    rcases ht : s.next true with - | l
    · exact ⟨hset, le_rfl⟩
    · have hl := (h.next_spec ht).1
      have hfirst := tickFirst_spec hset (h.isset true l hl) hafter (hlater true l hl)
      exact ⟨hfirst.1, hfirst.2.1⟩
  · rw [hn]
    rcases hf : s.next false with - | k
    · show tickFirst 0 n.1 ≠ 0 ∧ dateFrom _ (tickFirst 0 n.1) ≤ _
      rw [tickFirst_zero]
      exact ⟨hset, le_rfl⟩
    · have hk := (h.next_spec hf).1
      have hfirst := tickFirst_spec (h.isset false k hk) hset (hlater false k hk) hafter
      exact ⟨hfirst.1, hfirst.2.2⟩

theorem nextTimerExpiry_le (h : Files shared s now date) (hlater : ∀ wq, Later s now wq)
    (hd : date i = some d) :
    s.nextTimerExpiry ≠ 0 ∧ dateFrom (now - 2 ^ 31) s.nextTimerExpiry ≤ d := by
  obtain ⟨key, hmem, hkey⟩ := h.filed i d hd
  rcases hnext : s.next (shared i) with - | n
  · rw [h.next_none hnext] at hmem
    cases hmem
  · obtain ⟨hset, hle⟩ := h.nextTimerExpiry_le_next hlater hnext
    have hfirst := (h.next_spec hnext).2 _ hmem
    exact ⟨hset, (hle.trans hfirst).trans hkey⟩

/-! ### A complete scan -/

variable [DecidableEq ι]

theorem later_wakeLoop (h : Files shared s now date) (wq : Bool) {m : ℕ} (hm : s.stale wq < m) :
    Later (s.wakeLoop wq m).sched now wq ∧
      m ≤ (s.wakeLoop wq m).maxProcessed + s.stale wq + 1 := by
  induction m generalizing s date with
  | zero => omega
  | succ m ih =>
    rw [Sched.wakeLoop]
    rcases hnext : s.next wq with - | ⟨key, i⟩
    · refine ⟨?_, by simp only; omega⟩
      intro n hn
      rw [h.next_none hnext] at hn
      cases hn
    · have hmem := (h.next_spec hnext).1
      have howner : shared i = wq := h.owner wq _ hmem
      simp only
      split_ifs with hexp hkey hset
      · have hless := Sched.stale_unlinkWq hmem (by simp [Sched.placed, hexp])
        obtain ⟨hlater, hleft⟩ := ih (h.unlinkWq i) (by omega)
        exact ⟨hlater, by simp only; omega⟩
      · have hless := Sched.stale_queueIn hmem hkey (by simpa using hexp)
        obtain ⟨d, hd⟩ : ∃ d, date i = some d :=
          h.exists_date hmem (by simpa [tickIsset] using hset)
        have hq := h.queueIn hd
        rw [howner] at hq
        obtain ⟨hlater, hleft⟩ := ih hq (by omega)
        exact ⟨hlater, by omega⟩
      · have hless := Sched.stale_unlinkWq hmem (by simp [Sched.placed, hkey])
        obtain ⟨hlater, hleft⟩ := ih (h.unlinkWq i) (by omega)
        exact ⟨hlater, by omega⟩
      · refine ⟨h.later_of_placed hnext ?_, by simp only; omega⟩
        rw [not_ne_iff] at hkey
        subst hkey
        simpa [Sched.placed] using hexp

theorem Woke.append {r r' : Sched.Scan ι} (h : Woke shared now date r)
    (h' : Woke shared now (dropDates date r.woken) r') :
    Woke shared now date { r' with woken := r.woken ++ r'.woken } where
  files := by
    have hdrop : dropDates (dropDates date r.woken) r'.woken
        = dropDates date (r.woken ++ r'.woken) := by
      funext j
      simp only [dropDates, List.mem_append]
      split_ifs <;> simp_all
    rw [← hdrop]
    exact h'.files
  nodup := by
    refine List.nodup_append'.mpr ⟨h.nodup, h'.nodup, fun i hi hi' => ?_⟩
    obtain ⟨e, he, -⟩ := h'.due i hi'
    exact (dropDates_eq_some he).1 hi
  due := by
    intro j hj
    rcases List.mem_append.mp hj with hj | hj
    · exact h.due j hj
    · obtain ⟨e, he, hle⟩ := h'.due j hj
      exact ⟨e, (dropDates_eq_some he).2, hle⟩

theorem wakeExpiredTasks (h : Files shared s now date) (m : ℕ) :
    Woke shared now date (s.wakeExpiredTasks m) := by
  have hlocal := h.wakeLoop false m
  rw [Sched.wakeExpiredTasks]
  simp only
  rcases (s.wakeLoop false m).sched.next true with - | ⟨key, i⟩
  · exact hlocal
  · simp only
    split_ifs
    · exact hlocal
    · exact hlocal.append (hlocal.files.wakeLoop true _)

/-- With a budget for all the queued tasks, nothing that is due is left. -/
theorem later_wakeExpiredTasks (h : Files shared s now date) {m : ℕ}
    (hm : (s.timers false).nodes.length + (s.timers true).nodes.length + 2 ≤ m) (wq : Bool) :
    Later (s.wakeExpiredTasks m).sched now wq := by
  have hstale := s.stale_le false
  obtain ⟨hlater, hleft⟩ := h.later_wakeLoop false (m := m) (by omega)
  have hsub := s.wakeLoop_sublist false (b := true) (by decide) m
  have hfiles := (h.wakeLoop false m).files
  rw [Sched.wakeExpiredTasks]
  generalize s.wakeLoop false m = r at *
  simp only
  rcases hnext : r.sched.next true with - | ⟨key, i⟩
  · -- the shared tree is empty
    rcases wq with - | -
    · exact hlater
    · intro n hn
      rw [hfiles.next_none hnext] at hn
      cases hn
  · obtain ⟨hmem, hfirst⟩ := hfiles.next_spec hnext
    have hrecent := hfiles.recent true _ hmem
    have hwindow := dateFrom_lt (now - 2 ^ 31) key
    have hcmp := signBit_sub_iff (d := now) (e := dateFrom (now - 2 ^ 31) key)
      (by omega) (by simp only at hrecent; omega)
    rw [tick_dateFrom, ← hfiles.clock] at hcmp
    simp only
    split_ifs with hlt
    · -- its first node is later
      rcases wq with - | -
      · exact hlater
      · intro n hn
        exact (hcmp.mp hlt).trans_le (hfirst n hn)
    · have hbound := (r.sched.stale_le true).trans hsub.length_le
      obtain ⟨hlater', -⟩ := hfiles.later_wakeLoop true (m := r.maxProcessed) (by omega)
      rcases wq with - | -
      · intro n hn
        exact hlater n ((r.sched.wakeLoop_sublist _ (by decide) _).subset hn)
      · exact hlater'

end Files

/-! ### Runs -/

/-- The timers beside the dates they stand for. -/
structure Timed (ι : Type) where
  sched : Sched ι
  now : ℤ
  date : ι → Option ℤ

/-- What happens to the timers: the clock goes on; a task is given a date and queued
with `task_queue`; the date of a waiting task is postponed in place; a date is
disabled in place; expired tasks are woken up, with some budget. -/
inductive TimerOp (ι : Type)
  | advance (ms : ℕ)
  | queue (i : ι) (d : ℤ)
  | postpone (i : ι) (d : ℤ)
  | disable (i : ι)
  | wake (runqueueDepth : ℕ)

namespace Timed

def start (now : ℤ) : Timed ι := ⟨⟨fun _ => EbTree.empty, fun _ => 0, tick now⟩, now, fun _ => none⟩

theorem files_start (shared : ι → Bool) (now : ℤ) :
    Files shared (start now : Timed ι).sched now (start now : Timed ι).date := by
  constructor <;> simp [start, EbTree.empty, EbTree.items]

variable [DecidableEq ι]

/-- One step, of the timers and of the dates. -/
def step (shared : ι → Bool) (s : Timed ι) : TimerOp ι → Timed ι
  | .advance ms =>
    { s with sched.nowMs := s.sched.nowMs + UInt32.ofNat ms, now := s.now + ms }
  | .queue i d =>
    { s with
      sched := (s.sched.setExpire i (tick d)).taskQueue shared i
      date := Function.update s.date i (some d) }
  | .postpone i d =>
    { s with
      sched := s.sched.setExpire i (tick d)
      date := Function.update s.date i (some d) }
  | .disable i =>
    { s with
      sched := s.sched.setExpire i 0
      date := Function.update s.date i none }
  | .wake runqueueDepth =>
    { s with
      sched := (s.sched.wakeExpiredTasks runqueueDepth).sched
      date := dropDates s.date (s.sched.wakeExpiredTasks runqueueDepth).woken }

/-- The dates given to tasks are set and less than `2 ^ 31` ms away from the current
one, and no task that waits gets that late; a date that is postponed is not made earlier. -/
def Within (s : Timed ι) : TimerOp ι → Prop
  | .advance ms => ∀ i d, s.date i = some d → s.now + ms < d + 2 ^ 31
  | .queue _ d => tick d ≠ 0 ∧ s.now - 2 ^ 31 < d ∧ d < s.now + 2 ^ 31
  | .postpone i d => tick d ≠ 0 ∧ d < s.now + 2 ^ 31 ∧ ∃ e, s.date i = some e ∧ e ≤ d
  | .disable _ => True
  | .wake _ => True

/-- The same for the dates under which tasks are filed: the clock does not pass them
by `2 ^ 31` ms, and `task_queue` does not advance a task by more than that. -/
def Near (shared : ι → Bool) (s : Timed ι) : TimerOp ι → Prop
  | .advance ms => ∀ b, ∀ n ∈ (s.sched.timers b).nodes,
      s.now + ms < dateFrom (s.now - 2 ^ 31) n.1 + 2 ^ 31
  | .queue i d => ∀ key, s.sched.wqKey shared i = some key →
      dateFrom (s.now - 2 ^ 31) key - 2 ^ 31 ≤ d
  | _ => True

/-- The states reached from the start by steps that meet a condition. -/
inductive Reachable (shared : ι → Bool) (cond : Timed ι → TimerOp ι → Prop) : Timed ι → Prop
  | start (now : ℤ) : Reachable shared cond (start now)
  | step {s op} : Reachable shared cond s → cond s op → Reachable shared cond (s.step shared op)

variable {shared : ι → Bool}

theorem files_step {s : Timed ι} (h : Files shared s.sched s.now s.date) {op : TimerOp ι}
    (hw : s.Within op) (hn : s.Near shared op) :
    Files shared (s.step shared op).sched (s.step shared op).now (s.step shared op).date := by
  rcases op with ms | ⟨i, d⟩ | ⟨i, d⟩ | i | m
  · exact h.advance ms hn
  · obtain ⟨hset, hgt, hlt⟩ := hw
    exact h.taskQueue i hset hgt hlt hn
  · obtain ⟨hset, hlt, e, he, hle⟩ := hw
    obtain ⟨key, hmem, hkey⟩ := h.filed i e he
    exact h.setExpire hset hmem (hkey.trans hle) hlt
  · exact h.disable i
  · exact (h.wakeExpiredTasks m).files

theorem Reachable.files {s : Timed ι}
    (h : Reachable shared (fun s op => s.Within op ∧ s.Near shared op) s) :
    Files shared s.sched s.now s.date := by
  induction h with
  | start now => exact files_start shared now
  | step _ hcond ih => exact files_step ih hcond.1 hcond.2

def queued (s : Timed ι) : ℕ :=
  (s.sched.timers false).nodes.length + (s.sched.timers true).nodes.length

end Timed

open Timed in
/-- **Timers are neither lost nor early.**  In every state reached by giving tasks
dates, postponing, advancing and disabling them, and scanning the queues, a scan
with a budget of two more than the queued tasks wakes up exactly the tasks whose
date has come, each of them once; the date that is announced next is not after
that of any task that still waits. -/
theorem wakeExpiredTasks_exact [DecidableEq ι] (shared : ι → Bool) (s : Timed ι)
    (h : Reachable shared (fun s op => s.Within op ∧ s.Near shared op) s) (runqueueDepth : ℕ)
    (hdepth : s.queued + 2 ≤ runqueueDepth) :
    let r := s.sched.wakeExpiredTasks runqueueDepth
    (∀ i, i ∈ r.woken ↔ ∃ d, s.date i = some d ∧ d ≤ s.now) ∧ r.woken.Nodup ∧
      ∀ i d, s.date i = some d → s.now < d →
        r.sched.expire i = tick d ∧ r.sched.nextTimerExpiry ≠ 0 ∧
          dateFrom (s.now - 2 ^ 31) r.sched.nextTimerExpiry ≤ d := by
  intro r
  have hwoke := h.files.wakeExpiredTasks runqueueDepth
  have hlater := h.files.later_wakeExpiredTasks hdepth
  refine ⟨fun i => ⟨hwoke.due i, ?_⟩, hwoke.nodup, ?_⟩
  · rintro ⟨d, hd, hle⟩
    -- a task that is due and not woken up would be filed under a date that has come
    by_contra hi
    have hd' : dropDates s.date r.woken i = some d := by rw [dropDates, if_neg hi, hd]
    obtain ⟨key, hmem, hkey⟩ := hwoke.files.filed i d hd'
    have hgt := hlater _ _ hmem
    simp only at hgt
    omega
  · intro i d hd hlt
    have hi : i ∉ r.woken := by
      intro hi
      obtain ⟨e, he, hle⟩ := hwoke.due i hi
      rw [hd, Option.some.injEq] at he
      omega
    have hd' : dropDates s.date r.woken i = some d := by rw [dropDates, if_neg hi, hd]
    exact ⟨(hwoke.files.expire i d hd').1, hwoke.files.nextTimerExpiry_le hlater hd'⟩

/-- A task queued shortly before the clock wraps around, and 20 ms later. -/
def sampleTimed : Timed Bool :=
  ((Timed.start (2 ^ 32 - 10)).step (fun _ => false) (.queue true (2 ^ 32 + 5))).step
    (fun _ => false) (.advance 20)

open Timed in
/-- It is woken up. -/
theorem wakeExpiredTasks_exact_wrap :
    true ∈ (sampleTimed.sched.wakeExpiredTasks 200).woken := by
  have hreach : Reachable (fun _ => false) (fun s op => s.Within op ∧ s.Near (fun _ => false) op)
      sampleTimed := by
    refine .step (.step (.start _) ⟨⟨by decide, by decide, by decide⟩, ?_⟩) ⟨?_, ?_⟩
    · intro key hkey
      cases hkey
    · intro i d hd
      rcases i with - | -
      · cases hd
      · cases hd
        decide
    · intro b n hn
      rcases b with - | -
      · obtain rfl := List.mem_singleton.mp hn
        decide
      · cases hn
  obtain ⟨hwoken, -, -⟩ := wakeExpiredTasks_exact (fun _ => false) sampleTimed hreach 200 (by decide)
  exact (hwoken true).mpr ⟨2 ^ 32 + 5, by decide, by decide⟩

/-- A task queued for a far date is advanced by more than `2 ^ 31` ms, while another
one waits: the comparison of its two dates wraps around, and it stays where it is. -/
def sampleAdvanced : Timed Bool :=
  (((Timed.start (2 ^ 31)).step (fun _ => false) (.queue false (2 ^ 31 + 2 ^ 30 + 1))).step
    (fun _ => false) (.queue true (2 ^ 31 + 5))).step (fun _ => false) (.queue false (2 ^ 30))

/-- A task is postponed in place, and the clock passes the date it is filed under by
more than `2 ^ 31` ms, while another one waits. -/
def samplePostponed : Timed Bool :=
  (((((Timed.start 1000).step (fun _ => false) (.queue false 1010)).step
    (fun _ => false) (.advance (2 ^ 30))).step
    (fun _ => false) (.postpone false (2 ^ 31 + 2000))).step
    (fun _ => false) (.advance (2 ^ 30 + 3000))).step
    (fun _ => false) (.queue true (2 ^ 31 + 4005))

open Timed in
/-- Neither half of `Near` can be left out: a task whose dates are all near the
current one is lost. -/
theorem not_wakeExpiredTasks_exact :
    (¬ ∀ s : Timed Bool,
      Reachable (fun _ => false)
        (fun s op => s.Within op ∧ ∀ ms, op = .advance ms → s.Near (fun _ => false) op) s →
      ∀ runqueueDepth, s.queued + 2 ≤ runqueueDepth →
        ∀ i, i ∈ (s.sched.wakeExpiredTasks runqueueDepth).woken ↔
          ∃ d, s.date i = some d ∧ d ≤ s.now) ∧
    (¬ ∀ s : Timed Bool,
      Reachable (fun _ => false)
        (fun s op => s.Within op ∧ ∀ i d, op = .queue i d → s.Near (fun _ => false) op) s →
      ∀ runqueueDepth, s.queued + 2 ≤ runqueueDepth →
        ∀ i, i ∈ (s.sched.wakeExpiredTasks runqueueDepth).woken ↔
          ∃ d, s.date i = some d ∧ d ≤ s.now) := by
  constructor
  · intro hall
    have hwoken : false ∈ (sampleAdvanced.sched.wakeExpiredTasks 200).woken := by
      refine (hall sampleAdvanced ?_ 200 (by decide +kernel) false).mpr
        ⟨2 ^ 30, by decide, by decide⟩
      refine .step (.step (.step (.start _) ⟨⟨by decide, by decide, by decide⟩, ?_⟩)
        ⟨⟨by decide, by decide, by decide⟩, ?_⟩) ⟨⟨by decide, by decide, by decide⟩, ?_⟩ <;>
        exact fun ms hms => nomatch hms
    revert hwoken
    decide +kernel
  · intro hall
    have hwoken : false ∈ (samplePostponed.sched.wakeExpiredTasks 200).woken := by
      refine (hall samplePostponed ?_ 200 (by decide +kernel) false).mpr
        ⟨2 ^ 31 + 2000, by decide, by decide⟩
      refine .step (.step (.step (.step (.step (.start _) ⟨⟨by decide, by decide, by decide⟩, ?_⟩)
        ⟨?_, ?_⟩) ⟨⟨by decide, by decide, 1010, rfl, by decide⟩, ?_⟩) ⟨?_, ?_⟩)
        ⟨⟨by decide, by decide, by decide⟩, ?_⟩
      · exact fun _ _ _ key hkey => nomatch hkey
      · rintro (- | -) d hd <;> cases hd
        decide
      · exact fun _ _ h => nomatch h
      · exact fun _ _ h => nomatch h
      · rintro (- | -) d hd <;> cases hd
        decide
      · exact fun _ _ h => nomatch h
      · exact fun _ _ _ key hkey => nomatch hkey
    revert hwoken
    decide +kernel

end SmartHAProxy
