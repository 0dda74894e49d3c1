/-
The whitelists of smartdrop.

`init` reads the task types and builds three dictionaries with the same keys.  `GBDT` builds
a table with one row a task type for each server, and writes the predictions of the model
into `predicted_time`: the keys of one dictionary are matched with the rows of the table by
their position.  `whiteAlg` then goes through the predictions and adds and removes servers.

A table is a list of columns.  Predictions, workloads and CPU usages are rational numbers;
`predict` is the model with its scalers.
-/
import Mathlib.Data.Char
import Mathlib.Data.List.Dedup
import Mathlib.Data.List.Lex
import Mathlib.Data.List.Sort
import SmartHAProxy.Lib.PyDict
import SmartHAProxy.Smartdrop.TaskEvent

namespace SmartHAProxy

namespace Smartdrop

/-! ### Task types -/

theorem lawfulBEq_pyStr : LawfulBEq PyStr := inferInstance

/-- Membership of a string in a list is decided by comparing strings. -/
local instance decidableMemPyStr (s : PyStr) (l : List PyStr) : Decidable (s ∈ l) :=
  @List.instDecidableMemOfLawfulBEq PyStr _ lawfulBEq_pyStr s l

/-- `TaskType`, a row of `tasks.csv`. -/
structure TaskRow extends Request where
  avgSize : PyStr
  sizeStdev : PyStr
  avgTime : PyStr
  timeStdev : PyStr
  deriving DecidableEq

/-- `profile_matrix`, `predicted_time` and `whitelist`. -/
structure Tables where
  profileMatrix : PyDict PyStr TaskRow
  predictedTime : PyDict PyStr (PyDict PyStr ℚ)
  whitelist : PyDict PyStr (List PyStr)

theorem nodup_servers : servers.Nodup := by decide +kernel

/-- `SLO`: one second, in microseconds. -/
def slo : ℚ := 1000000

/-- The loop over `tasks.csv` in `init`. -/
def readTasks (rows : List TaskRow) : PyDict PyStr TaskRow × PyDict PyStr (List PyStr) :=
  rows.foldl (fun d row =>
    let row := if row.query = [] then { row with query := null } else row
    (d.1.set row.key row, d.2.set row.key [])) (.empty, .empty)

/-- `init`: all servers on each whitelist, and all predictions 0. -/
def initTables (rows : List TaskRow) : Tables :=
  let d := readTasks rows
  { profileMatrix := d.1
    predictedTime := d.1.mapValues fun _ _ => .ofKeys servers nodup_servers fun _ => 0
    whitelist := d.2.mapValues fun _ l => l ++ servers }

/-! ### Tables of features -/

inductive Cell
  | str (s : PyStr)
  | num (q : ℚ)
  | bit (b : Bool)
  deriving DecidableEq

/-- A data frame: the number of its rows, and its columns with their names. -/
structure DataFrame where
  rows : ℕ
  columns : List (PyStr × List Cell)

/-- `df.replace('NULL', '')` in a cell. -/
def Cell.replace (c : Cell) : Cell := if c = .str null then .str [] else c

/-- `df.replace('NULL', '')`. -/
def DataFrame.replace (df : DataFrame) : DataFrame :=
  { df with columns := df.columns.map fun col => (col.1, col.2.map Cell.replace) }

def categories (cells : List Cell) : List PyStr :=
  (cells.filterMap fun c => match c with
    | .str s => some s
    | _ => none).dedup.insertionSort (· ≤ ·)

/-- The columns of `get_dummies` for a column. -/
def dummies (col : PyStr × List Cell) : List (PyStr × List Cell) :=
  (categories col.2).map fun cat =>
    (col.1 ++ '_' :: cat, col.2.map fun c => .bit (c = .str cat))

/-- `pd.get_dummies(df, columns = names)`. -/
def DataFrame.getDummies (df : DataFrame) (names : List PyStr) : DataFrame :=
  { df with columns := df.columns.filter (·.1 ∉ names) ++
      names.flatMap fun name => (df.columns.filter (·.1 = name)).flatMap dummies }

/-- `df.drop(columns = [name])` raises a `KeyError` if there is no such column. -/
def DataFrame.drop (df : DataFrame) (name : PyStr) : Option DataFrame :=
  if df.columns.any (·.1 = name) then some { df with columns := df.columns.filter (·.1 ≠ name) }
  else none

/-- `df.to_numpy()`. -/
def DataFrame.toNumpy (df : DataFrame) : List (List Cell) :=
  (List.range df.rows).map fun i => df.columns.map fun col => col.2.getD i (.str [])

/-! ### GBDT and whiteAlg -/

def featureFrame (tasks : List TaskRow) (server : PyStr) (workload cpuUsage : ℚ) : DataFrame where
  rows := tasks.length
  columns :=
    [("Method".toList, tasks.map fun t => .str t.method),
      ("URL".toList, tasks.map fun t => .str t.url),
      ("Query".toList, tasks.map fun t => .str t.query),
      ("Content".toList, tasks.map fun t => .str t.content),
      ("Size".toList, tasks.map fun t => .str t.avgSize),
      ("SizeStdev".toList, tasks.map fun t => .str t.sizeStdev),
      ("Time".toList, tasks.map fun t => .str t.avgTime),
      ("TimeStdev".toList, tasks.map fun t => .str t.timeStdev),
      ("Server".toList, tasks.map fun _ => .str server),
      ("Workload".toList, tasks.map fun _ => .num workload),
      ("CPU".toList, tasks.map fun _ => .num cpuUsage)]

/-- `predicted_time[task][server] = time`. -/
def setPrediction (server : PyStr) (pt : PyDict PyStr (PyDict PyStr ℚ)) (e : PyStr × ℚ) :
    Option (PyDict PyStr (PyDict PyStr ℚ)) :=
  (pt.get? e.1).map fun row => pt.set e.1 (row.set server e.2)

/-- `GBDT` for one server. -/
def gbdtServer (predict : List Cell → ℚ) (profileMatrix : PyDict PyStr TaskRow)
    (cpuUsage workload : PyDict PyStr ℚ) (pt : PyDict PyStr (PyDict PyStr ℚ)) (server : PyStr) :
    Option (PyDict PyStr (PyDict PyStr ℚ)) := do
  let cpu ← cpuUsage.get? server
  let wl ← workload.get? server
  let df := featureFrame (profileMatrix.items.map Prod.snd) server wl cpu
  let df := df.replace.getDummies ["Method".toList, "URL".toList, "Query".toList, "Content".toList]
  let df ← df.drop "Query_".toList
  let outputData := df.toNumpy.map predict
  (pt.keys.zip outputData).foldlM (setPrediction server) pt

def gbdt (predict : List Cell → ℚ) (profileMatrix : PyDict PyStr TaskRow)
    (cpuUsage workload : PyDict PyStr ℚ) (pt : PyDict PyStr (PyDict PyStr ℚ)) :
    Option (PyDict PyStr (PyDict PyStr ℚ)) :=
  cpuUsage.keys.foldlM (gbdtServer predict profileMatrix cpuUsage workload) pt

/-- What `whiteAlg` does to the list of a task for one server. -/
def whiteServer (row : PyDict PyStr ℚ) (list : List PyStr) (server : PyStr) : Option (List PyStr) :=
  (row.get? server).map fun time =>
    if server ∈ list ∧ slo ≤ time then list.erase server
    else if server ∉ list ∧ time < slo then list ++ [server]
    else list

/-- What `whiteAlg` does to the list of a task. -/
def whiteTask (pt : PyDict PyStr (PyDict PyStr ℚ)) (whitelist : PyDict PyStr (List PyStr))
    (task : PyStr) : Option (PyDict PyStr (List PyStr)) := do
  let row ← pt.get? task
  let list ← whitelist.get? task
  let list ← row.keys.foldlM (whiteServer row) list
  return whitelist.set task list

/-- A round of `comms`: CPU usage and workload of each server. -/
structure Round where
  cpuUsage : PyStr → ℚ
  workload : PyStr → ℚ

def whiteAlg (predict : List Cell → ℚ) (t : Tables) (r : Round) : Option Tables := do
  let cpuUsage := PyDict.ofKeys servers nodup_servers r.cpuUsage
  let workload := PyDict.ofKeys servers nodup_servers r.workload
  let pt ← gbdt predict t.profileMatrix cpuUsage workload t.predictedTime
  let whitelist ← pt.keys.foldlM (whiteTask pt) t.whitelist
  return { t with
    predictedTime := pt
    whitelist := whitelist }

end Smartdrop

end SmartHAProxy
