/-
The accounting of smartdrop.

`taskEvent` follows the access log of the web servers.  A `+` line starts a
task: the average time of its type is added to the workload of its server and
an instance goes on record.  A `>` line completes it: the time is subtracted
and the instance leaves the record.  The workload of a server should thus be
the sum of the times on record for it, and the two locks around the updates
should be free again after each line.

They are, as long as no line does one of the things the handler does not look
for: start a task that is on record already, name a server nobody has heard of,
or carry a number that does not survive the arithmetic of floats.
`accounted_iff` says that this is exact.

Numbers are rational; a float operation is the exact one followed by `round`.
The row written for a completed task is left out.
-/
import Mathlib.Algebra.Order.Ring.Rat
import SmartHAProxy.Lib.Python

namespace SmartHAProxy

namespace Smartdrop

/-! ### Task types and instances -/

/-- The four columns that identify a task type. -/
structure Request where
  method : PyStr
  url : PyStr
  query : PyStr
  content : PyStr
  deriving DecidableEq

/-- `f'{method},{url},{query},{content}'`. -/
def Request.key (r : Request) : PyStr :=
  r.method ++ ',' :: r.url ++ ',' :: r.query ++ ',' :: r.content

/-- `TaskType`.  `avgTime` is what `float(avg_time)` returns, `none` if it raises
a `ValueError`. -/
structure TaskType extends Request where
  avgTime : Option ℚ
  deriving DecidableEq

/-- `Instance`. -/
structure Instance extends TaskType where
  server : PyStr
  workload : ℚ
  cpuUsage : ℚ
  predictedTime : ℚ
  deriving DecidableEq

/-- What `taskEvent` is started with: the rows of `tasks.csv`, and the rounding
of the machine. -/
structure Config where
  tasks : List TaskType
  round : ℚ → ℚ

def null : PyStr := "NULL".toList

/-- `profile_matrix`, in the order of `tasks.csv`. -/
def Config.profileMatrix (cfg : Config) : List TaskType :=
  cfg.tasks.map fun t => if t.query = [] then { t with query := null } else t

/-- `profile_matrix[key]`: a later row overwrites an earlier one of the same key. -/
def Config.taskType (cfg : Config) (key : PyStr) : Option TaskType :=
  cfg.profileMatrix.reverse.find? fun t => t.key = key

theorem Config.key_of_taskType {cfg : Config} {key : PyStr} {t : TaskType}
    (h : cfg.taskType key = some t) : t.key = key := by
  simpa using List.find?_some h

/-! ### Reading a line -/

/-- `re.split(',|\s|\|', line)`.  No field holds a blank, so the calls of
`replace(' ', '')` on fields do nothing. -/
def splitLine (text : PyStr) : List PyStr :=
  text.splitOnP fun c => c = ',' || PyStr.isSpace c || c = '|'

inductive Status
  | new
  | complete
  | sent
  deriving DecidableEq

def statusKey : Char → Option Status
  | '+' => some .new
  | '>' => some .complete
  | '-' => some .sent
  | _ => none

def methods : List PyStr := ["GET".toList, "POST".toList]

def qPatterns : List PyStr :=
  ["?wc-ajax=add_to_cart".toList, "?wc-ajax=get_refreshed_fragments".toList]

/-- `parseLine`: the request and the server of a line, `none` if `error` is set. -/
def parseLine (fields : List PyStr) (profileMatrix : List TaskType) :
    Option (Request × PyStr) := do
  let method ← fields[1]?
  guard (method ∈ methods)
  let target ← fields[2]?
  let found := PyStr.searchAny qPatterns target
  let query := found.getD null
  let path := found.elim target (PyStr.remove target)
  guard (profileMatrix.any fun t => PyStr.contains t.key query)
  let url :=
    if (query ≠ null ∨ path = "/wp-profiling/".toList) ∧ ¬ PyStr.contains path "index.php".toList
    then path ++ "index.php".toList else path
  guard (profileMatrix.any fun t => PyStr.contains t.key url)
  -- from here on the line is read without its query
  let fields := fields.set 2 path
  let file ← fields.find? fun field => PyStr.contains field "file:".toList
  let host ← fields.reverse[1]?
  let server ← host.getLast?
  guard (PyStr.isDecimal server)
  return (⟨method, url, query, PyStr.remove file "file:".toList⟩, [server])

/-- What the first half of the loop body makes of a line. -/
inductive Reading
  | skipped
  | malformed
  | event (status : Status) (taskId : PyStr) (request : Request) (server : PyStr)
  deriving DecidableEq

/-- The first half of the loop body.  The columns of a task on record are taken
from there, and such a line needs a response time (column 6). -/
def readLine (cfg : Config) (record : AList fun _ : PyStr => Instance) (text : PyStr) : Reading :=
  let fields := splitLine text
  match fields.headD [] with
  | [] => .malformed
  | c :: taskId =>
    match statusKey c with
    | none => .malformed
    | some .sent => .skipped
    | some status =>
      match record.lookup taskId with
      | some i =>
        if 6 < fields.length then .event status taskId i.toRequest i.server else .malformed
      | none =>
        match parseLine fields cfg.profileMatrix with
        | some (request, server) => .event status taskId request server
        | none => .malformed

/-! ### The process -/

/-- A process goes on with the next line, waits for a lock that nobody will
release, or has died of an exception. -/
inductive Fate
  | running
  | blocked
  | raised
  deriving DecidableEq

/-- The variables of `taskEvent` and the shared ones it writes.  A lock is set
while `taskEvent` holds it. -/
structure TaskEvent where
  record : AList fun _ : PyStr => Instance
  workload : PyStr → Option ℚ
  wlLock : Bool
  cpuLock : Bool
  errorCount : ℕ
  fate : Fate

/-- A line of the log, with the shared dictionaries as they are when it is read:
`cpuUsage` and `comms` write them. -/
structure LogLine where
  text : PyStr
  cpuUsage : PyStr → Option ℚ
  predictedTime : PyStr → PyStr → Option ℚ

variable (cfg : Config)

def srvCount : ℕ := 7

/-- `f'{server + 1}'` for `server in range(SRVCOUNT)`. -/
def servers : List PyStr := (List.range srvCount).map fun server => Nat.toDigits 10 (server + 1)

/-- `init`, and the first lines of `taskEvent`. -/
def init : TaskEvent :=
  { record := ∅, workload := fun server => if server ∈ servers then some 0 else none,
    wlLock := false, cpuLock := false, errorCount := 0, fate := .running }

/-- `error_count += 1`. -/
def TaskEvent.error (st : TaskEvent) : TaskEvent := { st with errorCount := st.errorCount + 1 }

/-- `workload[server] = w`. -/
def TaskEvent.setWorkload (st : TaskEvent) (server : PyStr) (w : ℚ) : TaskEvent :=
  { st with workload := Function.update st.workload server (some w) }

/-- The `new` branch.  A `KeyError` is caught, but after an `acquire` the lock
stays taken; a `ValueError` is not caught. -/
def insertTask (ev : LogLine) (st : TaskEvent) (taskId : PyStr) (request : Request)
    (server : PyStr) : TaskEvent :=
  match cfg.taskType request.key with
  | none => st.error
  | some taskType =>
    if st.wlLock then { st with fate := .blocked } else
    let st := { st with wlLock := true }
    match st.workload server, taskType.avgTime with
    | none, _ => st.error
    | some _, none => { st with fate := .raised }
    | some w, some avgTime =>
      let w := cfg.round (w + avgTime)
      let st := st.setWorkload server w
      if st.cpuLock then { st with fate := .blocked } else
      let st := { st with cpuLock := true }
      match ev.cpuUsage server, ev.predictedTime request.key server with
      | some cpu, some time =>
        { st with
          record := st.record.insert taskId
            { taskType with
              server := server, workload := w, cpuUsage := cpu, predictedTime := time }
          cpuLock := false
          wlLock := false }
      | _, _ => st.error

/-- The `complete` branch. -/
def completeTask (st : TaskEvent) (taskId : PyStr) (request : Request) (server : PyStr) :
    TaskEvent :=
  if taskId ∉ st.record then st.error else
  match cfg.taskType request.key with
  | none => st.error
  | some taskType =>
    if st.wlLock then { st with fate := .blocked } else
    let st := { st with wlLock := true }
    match st.workload server, taskType.avgTime with
    | none, _ => st.error
    | some _, none => { st with fate := .raised }
    | some w, some avgTime =>
      let st := st.setWorkload server (cfg.round (w - avgTime))
      { st with wlLock := false, record := st.record.erase taskId }

def processLine (st : TaskEvent) (ev : LogLine) : TaskEvent :=
  if st.fate ≠ .running then st else
  match readLine cfg st.record ev.text with
  | .skipped => st
  | .malformed => st.error
  | .event .new taskId request server => insertTask cfg ev st taskId request server
  | .event _ taskId request server => completeTask cfg st taskId request server

/-- `taskEvent` after the given lines. -/
def taskEvent (evs : List LogLine) : TaskEvent := evs.foldl (processLine cfg) init

/-! ### Accounting -/

/-- What an entry of the record contributes to the load of server `s`. -/
def share (s : PyStr) (e : Σ _ : PyStr, Instance) : ℚ :=
  if e.2.server = s then e.2.avgTime.getD 0 else 0

/-- The sum of `avg_time` over the instances on record for server `s`. -/
def load (record : AList fun _ : PyStr => Instance) (s : PyStr) : ℚ :=
  (record.entries.map (share s)).sum

/-- The workloads are the sums over the record, and the locks are free. -/
structure Accounted (st : TaskEvent) : Prop where
  workload : ∀ s w, st.workload s = some w → w = load st.record s
  wlLock : st.wlLock = false
  cpuLock : st.cpuLock = false

/-- The instances on record come from the profile and run on known servers. -/
structure Sound (cfg : Config) (i : Instance) (workload : PyStr → Option ℚ) : Prop where
  taskType : cfg.taskType i.key = some i.toTaskType
  avgTime : i.avgTime.isSome
  server : (workload i.server).isSome

/-- What holds as long as no line has done harm. -/
structure Invariant (st : TaskEvent) : Prop extends Accounted st where
  fate : st.fate = .running
  sound : ∀ taskId i, st.record.lookup taskId = some i → Sound cfg i st.workload

/-- What a `+` line needs: a known server, a number for its time, and a float
addition that changes the workload as much as the record changes. -/
structure InsertOk (ev : LogLine) (st : TaskEvent) (taskId : PyStr) (request : Request)
    (server : PyStr) (taskType : TaskType) : Prop where
  cpuUsage : (ev.cpuUsage server).isSome
  predictedTime : (ev.predictedTime request.key server).isSome
  exact : ∃ w avgTime, st.workload server = some w ∧ taskType.avgTime = some avgTime ∧
    cfg.round (w + avgTime) = if taskId ∈ st.record then w else w + avgTime

/-- What a `>` line needs: an exact float subtraction. -/
def CompleteOk (st : TaskEvent) (taskId : PyStr) : Prop :=
  ∀ i w avgTime, st.record.lookup taskId = some i → st.workload i.server = some w →
    i.avgTime = some avgTime → cfg.round (w - avgTime) = w - avgTime

def LineOk (st : TaskEvent) (ev : LogLine) : Prop :=
  match readLine cfg st.record ev.text with
  | .event .new taskId request server =>
    ∀ taskType, cfg.taskType request.key = some taskType →
      InsertOk cfg ev st taskId request server taskType
  | .event _ taskId _ _ => CompleteOk cfg st taskId
  | _ => True

variable {cfg} {st : TaskEvent} {ev : LogLine}

theorem readLine_known {record : AList fun _ : PyStr => Instance} {text taskId : PyStr}
    {status : Status} {request : Request} {server : PyStr} {i : Instance}
    (h : readLine cfg record text = .event status taskId request server)
    (hi : record.lookup taskId = some i) : request = i.toRequest ∧ server = i.server := by
  simp only [readLine] at h
  split at h
  · cases h
  · split at h
    · cases h
    · cases h
    · split at h
      · rename_i j hj
        split_ifs at h
        cases h
        obtain rfl := Option.some.inj (hj.symm.trans hi)
        exact ⟨rfl, rfl⟩
      · rename_i hnone
        split at h
        · cases h
          rw [hnone] at hi
          cases hi
        · cases h

theorem load_insert {record : AList fun _ : PyStr => Instance} {taskId : PyStr} {i : Instance}
    (h : record.lookup taskId = none) (s : PyStr) :
    load (record.insert taskId i) s = share s ⟨taskId, i⟩ + load record s :=
  sum_map_insert (share s) h i

theorem load_erase {record : AList fun _ : PyStr => Instance} {taskId : PyStr} {i : Instance}
    (h : record.lookup taskId = some i) (s : PyStr) :
    load record s = share s ⟨taskId, i⟩ + load (record.erase taskId) s :=
  sum_map_erase (share s) h

/-! ### What a `+` line does -/

section Insert

variable {taskId server : PyStr} {request : Request} {taskType : TaskType} {w avgTime cpu time : ℚ}

/-- The instance that a `+` line puts on record. -/
def newInstance (taskType : TaskType) (server : PyStr) (w cpu time : ℚ) : Instance :=
  { taskType with server := server, workload := w, cpuUsage := cpu, predictedTime := time }

theorem insertTask_eq (h : Accounted st) (ht : cfg.taskType request.key = some taskType)
    (hw : st.workload server = some w) (ha : taskType.avgTime = some avgTime)
    (hcpu : ev.cpuUsage server = some cpu)
    (htime : ev.predictedTime request.key server = some time) :
    insertTask cfg ev st taskId request server
      = { st.setWorkload server (cfg.round (w + avgTime)) with
          record := st.record.insert taskId
            (newInstance taskType server (cfg.round (w + avgTime)) cpu time) } := by
  have hwl := h.wlLock
  have hcl := h.cpuLock
  simp only [insertTask, ht, hwl, hw, ha, hcpu, htime, TaskEvent.setWorkload, hcl, newInstance,
    Bool.false_eq_true, if_false]

theorem insertTask_wlLock (ht : cfg.taskType request.key = some taskType)
    (h : st.workload server = none ∨ taskType.avgTime = none ∨ ev.cpuUsage server = none ∨
      ev.predictedTime request.key server = none) :
    (insertTask cfg ev st taskId request server).wlLock = true := by
  simp only [insertTask, ht]
  split_ifs with hwl
  · exact hwl
  · split
    · rfl
    · rfl
    · rename_i w a hw ha
      split_ifs with hcl
      · rfl
      · split
        · rename_i c t hc htime
          simp [hw, ha, hc, htime] at h
        · rfl

theorem load_newInstance (h : Invariant cfg st)
    (hr : readLine cfg st.record ev.text = .event .new taskId request server)
    (ht : cfg.taskType request.key = some taskType) (ha : taskType.avgTime = some avgTime)
    (w' : ℚ) (s : PyStr) :
    load (st.record.insert taskId (newInstance taskType server w' cpu time)) s
      = load st.record s + if s = server ∧ taskId ∉ st.record then avgTime else 0 := by
  have hshare : share s ⟨taskId, newInstance taskType server w' cpu time⟩
      = if s = server then avgTime else 0 := by
    simp only [share, newInstance, ha, Option.getD_some, eq_comm]
  rcases hi : st.record.lookup taskId with - | i
  · have hnot : taskId ∉ st.record := AList.lookup_eq_none.mp hi
    rw [load_insert hi, hshare, add_comm]
    simp only [hnot, not_false_eq_true, and_true]
  · obtain ⟨rfl, rfl⟩ := readLine_known hr hi
    obtain rfl := Option.some.inj (ht.symm.trans (h.sound taskId i hi).taskType)
    have hmem : taskId ∈ st.record := AList.lookup_isSome.mp (by rw [hi]; rfl)
    have hsame : load (st.record.insert taskId (newInstance i.toTaskType i.server w' cpu time)) s
        = load st.record s := sum_map_overwrite (share s) hi rfl
    rw [hsame]
    simp only [hmem, not_true_eq_false, and_false, if_false, add_zero]

theorem accounted_insert_iff (h : Invariant cfg st)
    (hr : readLine cfg st.record ev.text = .event .new taskId request server)
    (ht : cfg.taskType request.key = some taskType)
    (hw : st.workload server = some w) (ha : taskType.avgTime = some avgTime)
    (hcpu : ev.cpuUsage server = some cpu)
    (htime : ev.predictedTime request.key server = some time) :
    Accounted (insertTask cfg ev st taskId request server)
      ↔ cfg.round (w + avgTime) = if taskId ∈ st.record then w else w + avgTime := by
  have hload := h.workload server w hw
  have hrhs : (if taskId ∈ st.record then w else w + avgTime)
      = load st.record server + if server = server ∧ taskId ∉ st.record then avgTime else 0 := by
    by_cases hmem : taskId ∈ st.record
    · simp [hmem, hload]
    · simp [hmem, hload]
  rw [insertTask_eq h.toAccounted ht hw ha hcpu htime, hrhs]
  constructor
  · intro hacc
    have := hacc.workload server _ (Function.update_self _ _ _)
    rwa [load_newInstance h hr ht ha] at this
  · intro hexact
    refine ⟨fun s w' hs => ?_, h.wlLock, h.cpuLock⟩
    rw [load_newInstance h hr ht ha]
    by_cases hsv : s = server
    · subst hsv
      rw [show w' = cfg.round (w + avgTime) by simpa [TaskEvent.setWorkload] using hs.symm]
      exact hexact
    · have hs' : st.workload s = some w' := by simpa [TaskEvent.setWorkload, hsv] using hs
      simpa [hsv] using h.workload s w' hs'

theorem insertOk_iff (h : Invariant cfg st)
    (hr : readLine cfg st.record ev.text = .event .new taskId request server)
    (ht : cfg.taskType request.key = some taskType) :
    Accounted (insertTask cfg ev st taskId request server)
      ↔ InsertOk cfg ev st taskId request server taskType := by
  constructor
  · intro hacc
    have hfree := hacc.wlLock
    rcases hw : st.workload server with - | w
    · rw [insertTask_wlLock ht (.inl hw)] at hfree
      cases hfree
    rcases ha : taskType.avgTime with - | avgTime
    · rw [insertTask_wlLock ht (.inr (.inl ha))] at hfree
      cases hfree
    rcases hcpu : ev.cpuUsage server with - | cpu
    · rw [insertTask_wlLock ht (.inr (.inr (.inl hcpu)))] at hfree
      cases hfree
    rcases htime : ev.predictedTime request.key server with - | time
    · rw [insertTask_wlLock ht (.inr (.inr (.inr htime)))] at hfree
      cases hfree
    exact ⟨by rw [hcpu]; rfl, by rw [htime]; rfl,
      w, avgTime, hw, ha, (accounted_insert_iff h hr ht hw ha hcpu htime).mp hacc⟩
  · rintro ⟨hcpu, htime, w, avgTime, hw, ha, hexact⟩
    obtain ⟨cpu, hcpu⟩ := Option.isSome_iff_exists.mp hcpu
    obtain ⟨time, htime⟩ := Option.isSome_iff_exists.mp htime
    exact (accounted_insert_iff h hr ht hw ha hcpu htime).mpr hexact

end Insert

theorem isSome_update {f : PyStr → Option ℚ} {s server : PyStr} {w : ℚ} (h : (f s).isSome) :
    (Function.update f server (some w) s).isSome := by
  by_cases hs : s = server
  · subst hs
    rw [Function.update_self]
    rfl
  · rwa [Function.update_of_ne hs]

theorem invariant_insert {taskId server : PyStr} {request : Request} {taskType : TaskType}
    (h : Invariant cfg st)
    (hr : readLine cfg st.record ev.text = .event .new taskId request server)
    (ht : cfg.taskType request.key = some taskType)
    (hok : InsertOk cfg ev st taskId request server taskType) :
    Invariant cfg (insertTask cfg ev st taskId request server) := by
  have hacc := (insertOk_iff h hr ht).mpr hok
  obtain ⟨hcpu, htime, w, avgTime, hw, ha, -⟩ := hok
  obtain ⟨cpu, hcpu⟩ := Option.isSome_iff_exists.mp hcpu
  obtain ⟨time, htime⟩ := Option.isSome_iff_exists.mp htime
  rw [insertTask_eq h.toAccounted ht hw ha hcpu htime] at hacc ⊢
  refine ⟨hacc, h.fate, fun id i hi => ?_⟩
  by_cases hid : id = taskId
  · subst hid
    rw [show i = newInstance taskType server _ cpu time from
      (Option.some.inj ((AList.lookup_insert _).symm.trans hi)).symm]
    have hkey : taskType.key = request.key := cfg.key_of_taskType ht
    refine ⟨?_, ?_, ?_⟩
    · show cfg.taskType taskType.key = some taskType
      rw [hkey, ht]
    · show taskType.avgTime.isSome = true
      rw [ha]
      rfl
    · have hsrv : (st.workload server).isSome := by rw [hw]; rfl
      exact isSome_update hsrv
  · have hi' : st.record.lookup id = some i := (AList.lookup_insert_ne hid).symm.trans hi
    have hsound := h.sound id i hi'
    exact ⟨hsound.taskType, hsound.avgTime, isSome_update hsound.server⟩

/-! ### What a `>` line does -/

section Complete

variable {taskId server : PyStr} {request : Request} {i : Instance} {w avgTime : ℚ}

theorem completeTask_eq (h : Invariant cfg st) (hi : st.record.lookup taskId = some i)
    (hw : st.workload i.server = some w) (ha : i.avgTime = some avgTime) :
    completeTask cfg st taskId i.toRequest i.server
      = { st.setWorkload i.server (cfg.round (w - avgTime)) with
          record := st.record.erase taskId } := by
  have hmem : taskId ∈ st.record := AList.lookup_isSome.mp (by rw [hi]; rfl)
  have ht := (h.sound taskId i hi).taskType
  have hwl := h.wlLock
  simp only [completeTask, hmem, ht, hwl, hw, ha, TaskEvent.setWorkload, not_true_eq_false,
    Bool.false_eq_true, if_false]

theorem accounted_complete_iff (h : Invariant cfg st) (hi : st.record.lookup taskId = some i)
    (hw : st.workload i.server = some w) (ha : i.avgTime = some avgTime) :
    Accounted (completeTask cfg st taskId i.toRequest i.server)
      ↔ cfg.round (w - avgTime) = w - avgTime := by
  have hload : ∀ s, load (st.record.erase taskId) s
      = load st.record s - if s = i.server then avgTime else 0 := by
    intro s
    rw [load_erase hi s]
    simp only [share, ha, Option.getD_some, eq_comm, add_sub_cancel_left]
  have hwload := h.workload i.server w hw
  rw [completeTask_eq h hi hw ha]
  constructor
  · intro hacc
    have := hacc.workload i.server _ (Function.update_self _ _ _)
    rwa [hload, if_pos rfl, ← hwload] at this
  · intro hexact
    refine ⟨fun s w' hs => ?_, h.wlLock, h.cpuLock⟩
    rw [hload]
    by_cases hsv : s = i.server
    · subst hsv
      rw [show w' = cfg.round (w - avgTime) by simpa [TaskEvent.setWorkload] using hs.symm,
        if_pos rfl, ← hwload]
      exact hexact
    · have hs' : st.workload s = some w' := by simpa [TaskEvent.setWorkload, hsv] using hs
      simpa [hsv] using h.workload s w' hs'

theorem completeOk_iff (h : Invariant cfg st) (hi : st.record.lookup taskId = some i) :
    Accounted (completeTask cfg st taskId i.toRequest i.server) ↔ CompleteOk cfg st taskId := by
  have hsound := h.sound taskId i hi
  obtain ⟨w, hw⟩ := Option.isSome_iff_exists.mp hsound.server
  obtain ⟨avgTime, ha⟩ := Option.isSome_iff_exists.mp hsound.avgTime
  rw [accounted_complete_iff h hi hw ha]
  constructor
  · intro hexact j w' a' hj hw' ha'
    obtain rfl := Option.some.inj (hi.symm.trans hj)
    obtain rfl := Option.some.inj (hw.symm.trans hw')
    obtain rfl := Option.some.inj (ha.symm.trans ha')
    exact hexact
  · intro hok
    exact hok i w avgTime hi hw ha

theorem invariant_complete (h : Invariant cfg st) (hi : st.record.lookup taskId = some i)
    (hok : CompleteOk cfg st taskId) :
    Invariant cfg (completeTask cfg st taskId i.toRequest i.server) := by
  have hacc := (completeOk_iff h hi).mpr hok
  have hsound := h.sound taskId i hi
  obtain ⟨w, hw⟩ := Option.isSome_iff_exists.mp hsound.server
  obtain ⟨avgTime, ha⟩ := Option.isSome_iff_exists.mp hsound.avgTime
  rw [completeTask_eq h hi hw ha] at hacc ⊢
  refine ⟨hacc, h.fate, fun id j hj => ?_⟩
  have hne : id ≠ taskId := by
    rintro rfl
    have herased : (st.record.erase id).lookup id = none := AList.lookup_erase id st.record
    exact absurd (herased.symm.trans hj) (by simp)
  have hj' : st.record.lookup id = some j := (AList.lookup_erase_ne hne).symm.trans hj
  have hjs := h.sound id j hj'
  exact ⟨hjs.taskType, hjs.avgTime, isSome_update hjs.server⟩

end Complete

/-! ### Every line -/

theorem Invariant.error (h : Invariant cfg st) : Invariant cfg st.error :=
  ⟨⟨h.workload, h.wlLock, h.cpuLock⟩, h.fate, h.sound⟩

theorem insertTask_spec {taskId server : PyStr} {request : Request} (h : Invariant cfg st)
    (hr : readLine cfg st.record ev.text = .event .new taskId request server) :
    let Ok := ∀ taskType, cfg.taskType request.key = some taskType →
      InsertOk cfg ev st taskId request server taskType
    (Accounted (insertTask cfg ev st taskId request server) ↔ Ok) ∧
      (Ok → Invariant cfg (insertTask cfg ev st taskId request server)) := by
  intro Ok
  rcases ht : cfg.taskType request.key with - | taskType
  · -- not a profiled task: the line is only counted
    have hok : Ok := by
      intro t heq
      rw [ht] at heq
      cases heq
    have heq : insertTask cfg ev st taskId request server = st.error := by
      simp only [insertTask, ht]
    rw [heq]
    exact ⟨⟨fun _ => hok, fun _ => h.error.toAccounted⟩, fun _ => h.error⟩
  · refine ⟨(insertOk_iff h hr ht).trans ⟨fun hok t heq => ?_, fun hok => hok taskType ht⟩,
      fun hok => invariant_insert h hr ht (hok taskType ht)⟩
    obtain rfl := Option.some.inj (ht.symm.trans heq)
    exact hok

theorem completeTask_spec {taskId server : PyStr} {request : Request} {status : Status}
    (h : Invariant cfg st)
    (hr : readLine cfg st.record ev.text = .event status taskId request server) :
    (Accounted (completeTask cfg st taskId request server) ↔ CompleteOk cfg st taskId) ∧
      (CompleteOk cfg st taskId → Invariant cfg (completeTask cfg st taskId request server)) := by
  rcases hi : st.record.lookup taskId with - | i
  · -- not on record: the line is only counted
    have hok : CompleteOk cfg st taskId := by
      intro j w a hj
      rw [hi] at hj
      cases hj
    have heq : completeTask cfg st taskId request server = st.error := by
      simp only [completeTask, if_pos (AList.lookup_eq_none.mp hi)]
    rw [heq]
    exact ⟨⟨fun _ => hok, fun _ => h.error.toAccounted⟩, fun _ => h.error⟩
  · obtain ⟨rfl, rfl⟩ := readLine_known hr hi
    exact ⟨completeOk_iff h hi, invariant_complete h hi⟩

theorem processLine_spec (h : Invariant cfg st) :
    (Accounted (processLine cfg st ev) ↔ LineOk cfg st ev) ∧
      (LineOk cfg st ev → Invariant cfg (processLine cfg st ev)) := by
  have hrun : ¬ st.fate ≠ .running := not_not.mpr h.fate
  simp only [processLine, if_neg hrun, LineOk]
  rcases hr : readLine cfg st.record ev.text with - | - | ⟨status, taskId, request, server⟩
  · exact ⟨iff_true_intro h.toAccounted, fun _ => h⟩
  · exact ⟨iff_true_intro h.error.toAccounted, fun _ => h.error⟩
  · cases status with
    | new => exact insertTask_spec h hr
    | complete => exact completeTask_spec h hr
    | sent => exact completeTask_spec h hr

/-! ### Every run -/

theorem taskEvent_concat (evs : List LogLine) (ev : LogLine) :
    taskEvent cfg (evs ++ [ev]) = processLine cfg (taskEvent cfg evs) ev := by
  simp [taskEvent]

theorem invariant_init : Invariant cfg init := by
  refine ⟨⟨fun s w hw => ?_, rfl, rfl⟩, rfl, fun taskId i hi => ?_⟩
  · simp only [init] at hw
    split_ifs at hw
    exact (Option.some.inj hw).symm
  · have hnone : init.record.lookup taskId = none := AList.lookup_empty taskId
    rw [hnone] at hi
    cases hi

theorem invariant_taskEvent {evs : List LogLine}
    (h : ∀ pre ev, pre ++ [ev] <+: evs → LineOk cfg (taskEvent cfg pre) ev) :
    Invariant cfg (taskEvent cfg evs) := by
  induction evs using List.reverseRecOn with
  | nil => exact invariant_init
  | append_singleton evs ev ih =>
    have hevs := ih fun pre e hpre => h pre e (hpre.trans (List.prefix_append _ _))
    rw [taskEvent_concat]
    exact (processLine_spec hevs).2 (h evs ev (List.prefix_refl _))

/-- **Accounting.**  In every run, the workloads are the sums over the record and
the locks are free after each line, exactly when each line is harmless in the
state in which it is read. -/
theorem accounted_iff (cfg : Config) (evs : List LogLine) :
    (∀ pre, pre <+: evs → Accounted (taskEvent cfg pre))
      ↔ ∀ pre ev, pre ++ [ev] <+: evs → LineOk cfg (taskEvent cfg pre) ev := by
  constructor
  · intro hacc pre ev hpre
    -- the lines before `ev` were harmless, the last of them by induction
    have hinv : ∀ pre : List LogLine, pre <+: evs → Invariant cfg (taskEvent cfg pre) := by
      intro pre
      induction pre using List.reverseRecOn with
      | nil => exact fun _ => invariant_init
      | append_singleton pre e ih =>
        intro hpre
        have hprev := ih ((List.prefix_append _ _).trans hpre)
        have hnext := hacc (pre ++ [e]) hpre
        rw [taskEvent_concat] at hnext ⊢
        exact (processLine_spec hprev).2 ((processLine_spec hprev).1.mp hnext)
    have hnext := hacc (pre ++ [ev]) hpre
    rw [taskEvent_concat] at hnext
    exact (processLine_spec (hinv pre ((List.prefix_append _ _).trans hpre))).1.mp hnext
  · intro hok pre hpre
    exact (invariant_taskEvent fun pre' ev h => hok pre' ev (h.trans hpre)).toAccounted

/-! ### Lines that do harm -/

/-- A profile of one task type, and floats wide enough for it. -/
def oneTask : Config :=
  { tasks := [⟨⟨"GET".toList, "/a".toList, [], "1K".toList⟩, some 2⟩], round := id }

/-- A line of the log, with the other dictionaries as `init` leaves them. -/
def quietLine (text : String) : LogLine :=
  { text := text.toList
    cpuUsage := fun server => if server ∈ servers then some 0 else none
    predictedTime := fun _ server => if server ∈ servers then some 0 else none }

/-- A task started twice counts twice, and is on record once. -/
theorem not_accounted_startedTwice :
    ¬ ∀ pre, pre <+: List.replicate 2 (quietLine "+7 GET /a file:1K 5 5 5 h1\n") →
      Accounted (taskEvent oneTask pre) := by
  intro h
  have hacc := h _ (List.prefix_refl _)
  have hw := hacc.workload "1".toList 4 (by decide +kernel)
  have hload : load (taskEvent oneTask
      (List.replicate 2 (quietLine "+7 GET /a file:1K 5 5 5 h1\n"))).record "1".toList = 2 := by
    decide +kernel
  rw [hload] at hw
  exact absurd hw (by decide)

/-- A server that `init` did not set up leaves the lock of the workloads taken. -/
example :
    (taskEvent oneTask [quietLine "+7 GET /a file:1K 5 5 5 h9\n"]).wlLock = true := by
  decide

end Smartdrop

end SmartHAProxy
