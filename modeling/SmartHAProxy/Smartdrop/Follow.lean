/-
Whitelists follow the predictions (smartdrop).

`featureRow` is the row of a task as a function of the task alone: `encode_eq` says that the
table has this row at the place of the task, unless no task has an empty query, when
dropping the column `Query_` raises a `KeyError`.  Each server then writes the predictions
under the right keys (`gbdtServer_eq_some`), and one pass over a list settles which servers
are in it (`whiteServers_spec`).

`whiteAlg_follows_iff` is about all rounds.
-/
import SmartHAProxy.Smartdrop.WhiteAlg

namespace SmartHAProxy

variable {tasks : List TaskRow} {server : PyStr} {r : Round} {pt : Predictions} {t : Tables}

namespace Smartdrop

/-! ### The rows of the table -/

/-- The row of one-hot cells for a column, in the table of `tasks`. -/
def oneHot (tasks : List TaskRow) (f : TaskRow → PyStr) (cats : List PyStr → List PyStr)
    (t : TaskRow) : List Cell :=
  (cats (categories (tasks.map fun t => (Cell.str (f t)).replace))).map fun cat =>
    .bit ((Cell.str (f t)).replace = .str cat)

/-- The features of a task on a server, in the table of `tasks`. -/
def featureRow (tasks : List TaskRow) (server : PyStr) (workload cpuUsage : ℚ) (t : TaskRow) :
    List Cell :=
  [(Cell.str t.avgSize).replace, (Cell.str t.sizeStdev).replace, (Cell.str t.avgTime).replace,
    (Cell.str t.timeStdev).replace, (Cell.str server).replace, (Cell.num workload).replace,
    (Cell.num cpuUsage).replace] ++
  oneHot tasks (·.method) id t ++ oneHot tasks (·.url) id t ++
  oneHot tasks (·.query) (List.filter (· ≠ [])) t ++ oneHot tasks (·.content) id t

/-- A data frame whose columns are functions of the task. -/
def frameOf (tasks : List TaskRow) (fs : List (PyStr × (TaskRow → Cell))) : DataFrame :=
  ⟨tasks.length, fs.map fun c => (c.1, tasks.map c.2)⟩

theorem toNumpy_frameOf (tasks : List TaskRow) (fs : List (PyStr × (TaskRow → Cell))) :
    (frameOf tasks fs).toNumpy = tasks.map fun t => fs.map fun c => c.2 t := by
  apply List.ext_getElem
  · simp [DataFrame.toNumpy, frameOf]
  · intro i h1 h2
    have hi : i < tasks.length := by simpa using h2
    simp only [DataFrame.toNumpy, frameOf, List.getElem_map, List.getElem_range, List.map_map]
    apply List.map_congr_left
    intro c _
    show (tasks.map c.2).getD i (.str []) = c.2 tasks[i]
    rw [List.getD_eq_getElem?_getD, List.getElem?_map, List.getElem?_eq_getElem hi]
    rfl

/-- The columns of a frame before the one-hot encoding. -/
def plainColumns (server : PyStr) (workload cpuUsage : ℚ) : List (PyStr × (TaskRow → Cell)) :=
  [("Size".toList, fun t => (Cell.str t.avgSize).replace),
    ("SizeStdev".toList, fun t => (Cell.str t.sizeStdev).replace),
    ("Time".toList, fun t => (Cell.str t.avgTime).replace),
    ("TimeStdev".toList, fun t => (Cell.str t.timeStdev).replace),
    ("Server".toList, fun _ => (Cell.str server).replace),
    ("Workload".toList, fun _ => (Cell.num workload).replace),
    ("CPU".toList, fun _ => (Cell.num cpuUsage).replace)]

def dummyColumns (tasks : List TaskRow) (name : PyStr) (f : TaskRow → PyStr) :
    List (PyStr × (TaskRow → Cell)) :=
  (categories (tasks.map fun t => (Cell.str (f t)).replace)).map fun cat =>
    (name ++ '_' :: cat, fun t => .bit ((Cell.str (f t)).replace = .str cat))

/-- The columns of the table before `Query_` is dropped. -/
def encodedColumns (tasks : List TaskRow) (server : PyStr) (workload cpuUsage : ℚ) :
    List (PyStr × (TaskRow → Cell)) :=
  plainColumns server workload cpuUsage ++ dummyColumns tasks "Method".toList (·.method) ++
    dummyColumns tasks "URL".toList (·.url) ++ dummyColumns tasks "Query".toList (·.query) ++
    dummyColumns tasks "Content".toList (·.content)

/-- The table of `GBDT`. -/
def encode (tasks : List TaskRow) (server : PyStr) (workload cpuUsage : ℚ) :
    Option (List (List Cell)) :=
  let df := (featureFrame tasks server workload cpuUsage).replace.getDummies
    ["Method".toList, "URL".toList, "Query".toList, "Content".toList]
  (df.drop "Query_".toList).map DataFrame.toNumpy

theorem dummies_eq (tasks : List TaskRow) (name : PyStr) (f : TaskRow → PyStr) :
    dummies (name, (tasks.map fun t => Cell.str (f t)).map Cell.replace) =
      (dummyColumns tasks name f).map fun c => (c.1, tasks.map c.2) := by
  rw [dummies, dummyColumns, List.map_map, List.map_map]
  apply List.map_congr_left
  intro cat _
  show (_, (tasks.map _).map _) = (_, tasks.map _)
  rw [List.map_map]
  rfl

theorem getDummies_eq (tasks : List TaskRow) (server : PyStr) (workload cpuUsage : ℚ) :
    (featureFrame tasks server workload cpuUsage).replace.getDummies
      ["Method".toList, "URL".toList, "Query".toList, "Content".toList] =
    frameOf tasks (encodedColumns tasks server workload cpuUsage) := by
  have hcolumns : ((featureFrame tasks server workload cpuUsage).replace.getDummies
      ["Method".toList, "URL".toList, "Query".toList, "Content".toList]).columns =
      [("Size".toList, (tasks.map fun t => Cell.str t.avgSize).map Cell.replace),
        ("SizeStdev".toList, (tasks.map fun t => Cell.str t.sizeStdev).map Cell.replace),
        ("Time".toList, (tasks.map fun t => Cell.str t.avgTime).map Cell.replace),
        ("TimeStdev".toList, (tasks.map fun t => Cell.str t.timeStdev).map Cell.replace),
        ("Server".toList, (tasks.map fun _ => Cell.str server).map Cell.replace),
        ("Workload".toList, (tasks.map fun _ => Cell.num workload).map Cell.replace),
        ("CPU".toList, (tasks.map fun _ => Cell.num cpuUsage).map Cell.replace)] ++
      ((dummies ("Method".toList, (tasks.map fun t => Cell.str t.method).map Cell.replace) ++ []) ++
      ((dummies ("URL".toList, (tasks.map fun t => Cell.str t.url).map Cell.replace) ++ []) ++
      ((dummies ("Query".toList, (tasks.map fun t => Cell.str t.query).map Cell.replace) ++ []) ++
      ((dummies ("Content".toList, (tasks.map fun t => Cell.str t.content).map Cell.replace) ++ [])
        ++ [])))) := rfl
  suffices hc : ((featureFrame tasks server workload cpuUsage).replace.getDummies
      ["Method".toList, "URL".toList, "Query".toList, "Content".toList]).columns =
      (encodedColumns tasks server workload cpuUsage).map fun c => (c.1, tasks.map c.2) from
    congrArg (DataFrame.mk tasks.length) hc
  rw [hcolumns, encodedColumns, List.map_append, List.map_append, List.map_append, List.map_append,
    dummies_eq tasks _ (·.method), dummies_eq tasks _ (·.url), dummies_eq tasks _ (·.query),
    dummies_eq tasks _ (·.content)]
  simp only [List.append_nil, List.append_assoc]
  congr 1
  simp only [plainColumns, List.map_cons, List.map_nil, List.map_map]
  rfl

theorem mem_categories {cells : List Cell} {cat : PyStr} :
    cat ∈ categories cells ↔ Cell.str cat ∈ cells := by
  rw [categories, List.mem_insertionSort, List.mem_dedup, List.mem_filterMap]
  constructor
  · rintro ⟨c, hc, hcat⟩
    cases c with
    | str s =>
      obtain rfl := Option.some.inj hcat
      exact hc
    | num q => cases hcat
    | bit b => cases hcat
  · exact fun h => ⟨_, h, rfl⟩

def TaskRow.NoQuery (t : TaskRow) : Prop := t.query = null ∨ t.query = []

theorem replace_eq_nil {s : PyStr} : (Cell.str s).replace = .str [] ↔ s = null ∨ s = [] := by
  rw [Cell.replace]
  split_ifs with h
  · exact ⟨fun _ => .inl (Cell.str.inj h), fun _ => rfl⟩
  · rw [Cell.str.injEq]
    exact ⟨.inr, fun hs => hs.resolve_left fun hs => h (congrArg Cell.str hs)⟩

theorem mem_dummyColumns {name : PyStr} {f : TaskRow → PyStr} {c : PyStr × (TaskRow → Cell)}
    (h : c ∈ dummyColumns tasks name f) :
    ∃ cat ∈ categories (tasks.map fun t => (Cell.str (f t)).replace), c.1 = name ++ '_' :: cat ∧
      c.2 = fun t => .bit ((Cell.str (f t)).replace = .str cat) := by
  obtain ⟨cat, hcat, rfl⟩ := List.mem_map.mp h
  exact ⟨cat, hcat, rfl, rfl⟩

theorem filter_dummyColumns {name : PyStr} {f : TaskRow → PyStr}
    (hname : ∀ cat, name ++ '_' :: cat ≠ "Query_".toList) :
    (dummyColumns tasks name f).filter (·.1 ≠ "Query_".toList) = dummyColumns tasks name f := by
  rw [List.filter_eq_self]
  intro c hc
  obtain ⟨cat, -, hfst, -⟩ := mem_dummyColumns hc
  rw [hfst]
  exact decide_eq_true (hname cat)

theorem query_name {cat : PyStr} : "Query".toList ++ '_' :: cat = "Query_".toList ↔ cat = [] := by
  have hname : "Query_".toList = "Query".toList ++ ['_'] := rfl
  rw [hname, List.append_cancel_left_eq, List.cons.injEq]
  exact ⟨fun h => h.2, fun h => ⟨rfl, h⟩⟩

theorem method_name (cat : PyStr) : "Method".toList ++ '_' :: cat ≠ "Query_".toList :=
  fun h => absurd (congrArg List.head? h) (by decide : some 'M' ≠ some 'Q')

theorem url_name (cat : PyStr) : "URL".toList ++ '_' :: cat ≠ "Query_".toList :=
  fun h => absurd (congrArg List.head? h) (by decide : some 'U' ≠ some 'Q')

theorem content_name (cat : PyStr) : "Content".toList ++ '_' :: cat ≠ "Query_".toList :=
  fun h => absurd (congrArg List.head? h) (by decide : some 'C' ≠ some 'Q')

theorem any_query_iff {workload cpuUsage : ℚ} :
    (frameOf tasks (encodedColumns tasks server workload cpuUsage)).columns.any
      (·.1 = "Query_".toList) = true ↔ ∃ t ∈ tasks, t.NoQuery := by
  rw [List.any_eq_true]
  constructor
  · rintro ⟨col, hcol, hname⟩
    obtain ⟨c, hc, rfl⟩ := List.mem_map.mp hcol
    replace hname : c.1 = "Query_".toList := of_decide_eq_true hname
    simp only [encodedColumns, List.mem_append] at hc
    rcases hc with (((hc | hc) | hc) | hc) | hc
    · have hmem : c.1 ∈ (plainColumns server workload cpuUsage).map Prod.fst :=
        List.mem_map_of_mem hc
      have hnames : (plainColumns server workload cpuUsage).map Prod.fst = ["Size".toList,
        "SizeStdev".toList, "Time".toList, "TimeStdev".toList, "Server".toList,
        "Workload".toList, "CPU".toList] := rfl
      rw [hnames, hname] at hmem
      exact absurd hmem (by decide)
    · obtain ⟨cat, -, hfst, -⟩ := mem_dummyColumns hc
      exact absurd (hfst.symm.trans hname) (method_name cat)
    · obtain ⟨cat, -, hfst, -⟩ := mem_dummyColumns hc
      exact absurd (hfst.symm.trans hname) (url_name cat)
    · obtain ⟨cat, hcat, hfst, -⟩ := mem_dummyColumns hc
      obtain rfl := query_name.mp (hfst.symm.trans hname)
      obtain ⟨t, ht, heq⟩ := List.mem_map.mp (mem_categories.mp hcat)
      exact ⟨t, ht, replace_eq_nil.mp heq⟩
    · obtain ⟨cat, -, hfst, -⟩ := mem_dummyColumns hc
      exact absurd (hfst.symm.trans hname) (content_name cat)
  · rintro ⟨t, ht, hquery⟩
    have hcat : [] ∈ categories (tasks.map fun t => (Cell.str t.query).replace) :=
      mem_categories.mpr (List.mem_map.mpr ⟨t, ht, replace_eq_nil.mpr hquery⟩)
    refine ⟨_, List.mem_map_of_mem (List.mem_append_left _ (List.mem_append_right _
      (List.mem_map_of_mem hcat))), ?_⟩
    exact decide_eq_true (query_name.mpr rfl)

/-- The rows of the table are the features of the tasks, if it has a column `Query_`. -/
theorem encode_eq (tasks : List TaskRow) (server : PyStr) (workload cpuUsage : ℚ) :
    ((∃ t ∈ tasks, t.NoQuery) → encode tasks server workload cpuUsage =
      some (tasks.map (featureRow tasks server workload cpuUsage))) ∧
    ((¬ ∃ t ∈ tasks, t.NoQuery) → encode tasks server workload cpuUsage = none) := by
  rw [encode, getDummies_eq, DataFrame.drop]
  constructor
  · intro hquery
    rw [if_pos (any_query_iff.mpr hquery), Option.map_some]
    have hfilter : (frameOf tasks (encodedColumns tasks server workload cpuUsage)).columns.filter
        (·.1 ≠ "Query_".toList) = (frameOf tasks
          ((encodedColumns tasks server workload cpuUsage).filter
            (·.1 ≠ "Query_".toList))).columns := by
      rw [frameOf, frameOf, List.filter_map]
      rfl
    rw [hfilter]
    show some (frameOf tasks _).toNumpy = _
    rw [toNumpy_frameOf]
    congr 1
    apply List.map_congr_left
    intro t _
    rw [encodedColumns, List.filter_append, List.filter_append, List.filter_append,
      List.filter_append, filter_dummyColumns method_name, filter_dummyColumns url_name,
      filter_dummyColumns content_name]
    have hplain : (plainColumns server workload cpuUsage).filter (·.1 ≠ "Query_".toList) =
      plainColumns server workload cpuUsage := rfl
    -- of the columns of the queries, the one of the empty query goes
    have hdummy : (dummyColumns tasks "Query".toList (·.query)).filter (·.1 ≠ "Query_".toList) =
        ((categories (tasks.map fun t => (Cell.str t.query).replace)).filter (· ≠ [])).map
          fun cat => ("Query".toList ++ '_' :: cat,
            fun t : TaskRow => Cell.bit ((Cell.str t.query).replace = .str cat)) := by
      rw [dummyColumns, List.filter_map]
      congr 1
      apply List.filter_congr
      intro cat _
      show decide (_ ≠ _) = decide (_ ≠ _)
      rw [decide_eq_decide]
      exact not_congr query_name
    rw [hplain, hdummy]
    simp only [List.map_append, dummyColumns, List.map_map]
    rfl
  · intro hquery
    rw [if_neg (fun h => hquery (any_query_iff.mp h))]
    rfl

/-! ### GBDT -/

abbrev Predictions := PyDict PyStr (PyDict PyStr ℚ)

/-- Predictions written under keys that are there. -/
theorem foldlM_setPrediction (server : PyStr) {es : List (PyStr × ℚ)} (pt : Predictions)
    (hnodup : (es.map Prod.fst).Nodup) (hkeys : ∀ e ∈ es, e.1 ∈ pt.keys) :
    ∃ pt', es.foldlM (setPrediction server) pt = some pt' ∧ pt'.keys = pt.keys ∧
      (∀ e ∈ es, pt'.get? e.1 = (pt.get? e.1).map (·.set server e.2)) ∧
      ∀ k, k ∉ es.map Prod.fst → pt'.get? k = pt.get? k := by
  induction es generalizing pt with
  | nil => exact ⟨pt, rfl, rfl, nofun, fun _ _ => rfl⟩
  | cons e es ih =>
    rw [List.map_cons, List.nodup_cons] at hnodup
    obtain ⟨hnew, hnodup⟩ := hnodup
    have hmem := hkeys e List.mem_cons_self
    obtain ⟨row, hrow⟩ := PyDict.mem_keys.mp hmem
    obtain ⟨pt₁, hpt₁⟩ : ∃ pt₁ : Predictions, pt₁ = pt.set e.1 (row.set server e.2) := ⟨_, rfl⟩
    have hstep : setPrediction server pt e = some pt₁ := by
      rw [setPrediction, hrow, hpt₁]
      rfl
    have hkeys₁ : pt₁.keys = pt.keys := by rw [hpt₁, PyDict.keys_set_of_mem hmem]
    obtain ⟨pt', hrun, hsame, hset, hother⟩ := ih pt₁ hnodup fun e' he' => by
      rw [hkeys₁]
      exact hkeys e' (List.mem_cons_of_mem e he')
    have hget₁ : ∀ k, k ≠ e.1 → pt₁.get? k = pt.get? k := by
      intro k hk
      rw [hpt₁, PyDict.get?_set, if_neg hk]
    refine ⟨pt', ?_, hsame.trans hkeys₁, ?_, ?_⟩
    · rw [List.foldlM_cons, hstep]
      exact hrun
    · intro e' he'
      rcases List.mem_cons.mp he' with rfl | he'
      · rw [hother _ hnew, hpt₁, PyDict.get?_set, if_pos rfl, hrow]
        rfl
      · have hne : e'.1 ≠ e.1 := fun heq => hnew (heq ▸ List.mem_map_of_mem he')
        rw [hset e' he', hget₁ _ hne]
    · intro k hk
      rw [List.map_cons, List.mem_cons, not_or] at hk
      rw [hother k hk.2, hget₁ k hk.1]

variable {predict : List Cell → ℚ} {profileMatrix : PyDict PyStr TaskRow}

/-- The prediction for a task on a server in a round. -/
def prediction (predict : List Cell → ℚ) (profileMatrix : PyDict PyStr TaskRow) (r : Round)
    (server : PyStr) (t : TaskRow) : ℚ :=
  predict (featureRow (profileMatrix.items.map Prod.snd) server (r.workload server)
    (r.cpuUsage server) t)

/-- `cpu_usage` in a round. -/
def Round.cpuDict (r : Round) : PyDict PyStr ℚ := .ofKeys servers nodup_servers r.cpuUsage

/-- `workload` in a round. -/
def Round.workloadDict (r : Round) : PyDict PyStr ℚ := .ofKeys servers nodup_servers r.workload

theorem gbdtServer_eq (hs : server ∈ servers) :
    gbdtServer predict profileMatrix r.cpuDict r.workloadDict pt server =
      (encode (profileMatrix.items.map Prod.snd) server (r.workload server)
        (r.cpuUsage server)).bind fun rows =>
          (pt.keys.zip (rows.map predict)).foldlM (setPrediction server) pt := by
  have hcpu : r.cpuDict.get? server = some (r.cpuUsage server) := PyDict.get?_ofKeys _ _ hs
  have hwl : r.workloadDict.get? server = some (r.workload server) := PyDict.get?_ofKeys _ _ hs
  rw [gbdtServer, hcpu, hwl, encode]
  dsimp only [Option.bind_eq_bind, Option.bind_some]
  rw [Option.bind_map]
  rfl

/-- **The right rows**: the prediction of each task is written under the key of that task. -/
theorem gbdtServer_eq_some (predict : List Cell → ℚ) (r : Round) (hs : server ∈ servers)
    (hquery : ∃ t ∈ profileMatrix.items.map Prod.snd, t.NoQuery)
    (hkeys : pt.keys = profileMatrix.keys) :
    ∃ pt', gbdtServer predict profileMatrix r.cpuDict r.workloadDict pt server = some pt' ∧
      pt'.keys = pt.keys ∧ ∀ k t, profileMatrix.get? k = some t →
        pt'.get? k = (pt.get? k).map
          (·.set server (prediction predict profileMatrix r server t)) := by
  rw [gbdtServer_eq hs, (encode_eq _ _ _ _).1 hquery, Option.bind_some]
  -- the keys and the rows, side by side
  have hzip : pt.keys.zip (((profileMatrix.items.map Prod.snd).map (featureRow
      (profileMatrix.items.map Prod.snd) server (r.workload server) (r.cpuUsage server))).map
        predict) =
      profileMatrix.items.map fun e => (e.1, prediction predict profileMatrix r server e.2) := by
    rw [hkeys, PyDict.keys, List.map_map, List.map_map, List.zip_map']
    rfl
  have hfst : (profileMatrix.items.map fun e =>
      (e.1, prediction predict profileMatrix r server e.2)).map Prod.fst = profileMatrix.keys := by
    rw [List.map_map]
    rfl
  rw [hzip]
  obtain ⟨pt', hrun, hsame, hset, -⟩ := foldlM_setPrediction server pt
    (by rw [hfst]; exact profileMatrix.nodup) fun e he => by
      rw [hkeys, ← hfst]
      exact List.mem_map_of_mem he
  refine ⟨pt', hrun, hsame, fun k t ht => ?_⟩
  exact hset (k, _) (List.mem_map.mpr ⟨(k, t), PyDict.get?_eq_some.mp ht, rfl⟩)

theorem gbdtServer_eq_none (hs : server ∈ servers)
    (hquery : ¬ ∃ t ∈ profileMatrix.items.map Prod.snd, t.NoQuery) :
    gbdtServer predict profileMatrix r.cpuDict r.workloadDict pt server = none := by
  rw [gbdtServer_eq hs, (encode_eq _ _ _ _).2 hquery]
  rfl

/-- The predictions that are there: a row for each task, with all servers. -/
structure Predicted (profileMatrix : PyDict PyStr TaskRow) (pt : Predictions) : Prop where
  keys : pt.keys = profileMatrix.keys
  rows : ∀ k row, pt.get? k = some row → row.keys = servers

/-- The predictions of this round for the servers in a list. -/
def Written (predict : List Cell → ℚ) (profileMatrix : PyDict PyStr TaskRow) (r : Round)
    (pt : Predictions) (done : List PyStr) : Prop :=
  ∀ k t, profileMatrix.get? k = some t → ∃ row, pt.get? k = some row ∧
    ∀ s ∈ done, row.get? s = some (prediction predict profileMatrix r s t)

/-- The loop over the servers. -/
theorem foldlM_gbdtServer (hquery : ∃ t ∈ profileMatrix.items.map Prod.snd, t.NoQuery)
    {rest done : List PyStr} (hrest : ∀ s ∈ rest, s ∈ servers) (hpt : Predicted profileMatrix pt)
    (hdone : Written predict profileMatrix r pt done) :
    ∃ pt', rest.foldlM (gbdtServer predict profileMatrix r.cpuDict r.workloadDict) pt = some pt' ∧
      Predicted profileMatrix pt' ∧ Written predict profileMatrix r pt' (done ++ rest) := by
  induction rest generalizing done pt with
  | nil => exact ⟨pt, rfl, hpt, by rw [List.append_nil]; exact hdone⟩
  | cons server rest ih =>
    have hs := hrest server List.mem_cons_self
    obtain ⟨pt₁, hrun₁, hkeys₁, hset⟩ :=
      gbdtServer_eq_some predict r hs hquery hpt.keys
    have hpt₁ : Predicted profileMatrix pt₁ := by
      refine ⟨hkeys₁.trans hpt.keys, fun k row hrow => ?_⟩
      obtain ⟨t, ht⟩ := PyDict.mem_keys.mp (hpt.keys ▸ hkeys₁ ▸ PyDict.mem_keys.mpr ⟨row, hrow⟩)
      rw [hset k t ht, Option.map_eq_some_iff] at hrow
      obtain ⟨row₀, hrow₀, rfl⟩ := hrow
      have hrowKeys := hpt.rows k row₀ hrow₀
      rw [PyDict.keys_set_of_mem (hrowKeys ▸ hs), hrowKeys]
    have hdone₁ : Written predict profileMatrix r pt₁ (done ++ [server]) := by
      intro k t ht
      obtain ⟨row, hrow, hvals⟩ := hdone k t ht
      refine ⟨_, by rw [hset k t ht, hrow, Option.map_some], fun s hs => ?_⟩
      rw [PyDict.get?_set]
      split_ifs with heq
      · rw [heq]
      · exact hvals s ((List.mem_append.mp hs).resolve_right fun h =>
          heq (List.mem_singleton.mp h))
    obtain ⟨pt', hrun, hpt', hdone'⟩ :=
      ih (fun s hs => hrest s (List.mem_cons_of_mem server hs)) hpt₁ hdone₁
    refine ⟨pt', ?_, hpt', ?_⟩
    · rw [List.foldlM_cons, hrun₁]
      exact hrun
    · rw [List.append_assoc] at hdone'
      exact hdone'

/-! ### Whitelists -/

/-- One pass over the servers: those that were passed are in the list if and only if they
are predicted in time. -/
theorem whiteServers_spec {row : PyDict PyStr ℚ} {time : PyStr → ℚ} {ss l : List PyStr}
    (hrow : ∀ s ∈ ss, row.get? s = some (time s)) (hl : l.Nodup) :
    ∃ l', ss.foldlM (whiteServer row) l = some l' ∧ l'.Nodup ∧
      ∀ s, s ∈ l' ↔ if s ∈ ss then time s < slo else s ∈ l := by
  induction ss generalizing l with
  | nil => exact ⟨l, rfl, hl, fun s => by simp⟩
  | cons server ss ih =>
    obtain ⟨l₁, hl₁⟩ : ∃ l₁, l₁ = if server ∈ l ∧ slo ≤ time server then l.erase server
      else if server ∉ l ∧ time server < slo then l ++ [server] else l := ⟨_, rfl⟩
    have hstep : whiteServer row l server = some l₁ := by
      rw [whiteServer, hrow server List.mem_cons_self, hl₁]
      rfl
    -- the server is settled, the others stay
    have hspec : l₁.Nodup ∧ ∀ s, s ∈ l₁ ↔ if s = server then time s < slo else s ∈ l := by
      rw [hl₁]
      split_ifs with hout hin
      · refine ⟨hl.erase server, fun s => ?_⟩
        rw [hl.mem_erase_iff]
        split_ifs with heq
        · subst heq
          simp [not_lt.mpr hout.2]
        · simp [heq]
      · refine ⟨?_, fun s => ?_⟩
        · rw [List.nodup_append]
          refine ⟨hl, List.nodup_singleton server, fun a ha b hb => ?_⟩
          obtain rfl := List.mem_singleton.mp hb
          rintro rfl
          exact hin.1 ha
        · rw [List.mem_append, List.mem_singleton]
          split_ifs with heq
          · subst heq
            simp [hin.2]
          · simp [heq]
      · refine ⟨hl, fun s => ?_⟩
        split_ifs with heq
        · subst heq
          constructor
          · exact fun hmem => lt_of_not_ge fun hle => hout ⟨hmem, hle⟩
          · exact fun hlt => not_not.mp fun hmem => hin ⟨hmem, hlt⟩
        · rfl
    obtain ⟨l', hrun, hnodup, hmem⟩ :=
      ih (fun s hs => hrow s (List.mem_cons_of_mem server hs)) hspec.1
    refine ⟨l', ?_, hnodup, fun s => ?_⟩
    · rw [List.foldlM_cons, hstep]
      exact hrun
    · rw [hmem s, hspec.2 s]
      by_cases hs : s ∈ ss
      · rw [if_pos hs, if_pos (List.mem_cons_of_mem server hs)]
      · rw [if_neg hs]
        by_cases heq : s = server
        · rw [if_pos heq, if_pos (heq ▸ List.mem_cons_self)]
        · rw [if_neg heq, if_neg (by simp [heq, hs])]

structure Listed (profileMatrix : PyDict PyStr TaskRow) (whitelist : PyDict PyStr (List PyStr)) :
    Prop where
  keys : whitelist.keys = profileMatrix.keys
  nodup : ∀ k l, whitelist.get? k = some l → l.Nodup
  servers : ∀ k l, whitelist.get? k = some l → ∀ s ∈ l, s ∈ servers

/-- The list of a task is that of its predictions. -/
def Settled (pt : Predictions) (whitelist : PyDict PyStr (List PyStr)) (k : PyStr) : Prop :=
  ∃ row l, pt.get? k = some row ∧ whitelist.get? k = some l ∧
    ∀ s, s ∈ l ↔ ∃ time, row.get? s = some time ∧ time < slo

/-- One task. -/
theorem whiteTask_spec {whitelist : PyDict PyStr (List PyStr)} {k : PyStr}
    (hpt : Predicted profileMatrix pt) (hwl : Listed profileMatrix whitelist)
    (hk : k ∈ profileMatrix.keys) :
    ∃ whitelist', whiteTask pt whitelist k = some whitelist' ∧
      Listed profileMatrix whitelist' ∧ Settled pt whitelist' k ∧
      ∀ k', k' ≠ k → whitelist'.get? k' = whitelist.get? k' := by
  obtain ⟨row, hrow⟩ := PyDict.mem_keys.mp (hpt.keys ▸ hk)
  obtain ⟨l, hl⟩ := PyDict.mem_keys.mp (hwl.keys ▸ hk)
  have hrowKeys := hpt.rows k row hrow
  have htimes : ∀ s ∈ row.keys, row.get? s = some ((row.get? s).getD 0) := by
    intro s hs
    obtain ⟨time, htime⟩ := PyDict.mem_keys.mp hs
    rw [htime]
    rfl
  obtain ⟨l', hrun, hnodup, hmem⟩ := whiteServers_spec htimes (hwl.nodup k l hl)
  -- servers without a time stay in the list if they were in it
  have hservers : ∀ s ∈ l', s ∈ servers := by
    intro s hs
    have hs' := (hmem s).mp hs
    split_ifs at hs' with hkey
    · exact hrowKeys ▸ hkey
    · exact hwl.servers k l hl s hs'
  have hkeys : (whitelist.set k l').keys = profileMatrix.keys := by
    rw [PyDict.keys_set_of_mem (hwl.keys ▸ hk), hwl.keys]
  refine ⟨whitelist.set k l', ?_, ⟨hkeys, ?_, ?_⟩, ⟨row, l', hrow, ?_, ?_⟩, ?_⟩
  · rw [whiteTask, hrow, hl]
    dsimp only [Option.bind_eq_bind, Option.bind_some]
    rw [hrun]
    rfl
  · intro k' m hm
    rw [PyDict.get?_set] at hm
    split_ifs at hm with heq
    · obtain rfl := Option.some.inj hm
      exact hnodup
    · exact hwl.nodup k' m hm
  · intro k' m hm
    rw [PyDict.get?_set] at hm
    split_ifs at hm with heq
    · obtain rfl := Option.some.inj hm
      exact hservers
    · exact hwl.servers k' m hm
  · rw [PyDict.get?_set, if_pos rfl]
  · intro s
    constructor
    · intro hs
      have hkey : s ∈ row.keys := hrowKeys ▸ hservers s hs
      have hs' := (hmem s).mp hs
      rw [if_pos hkey] at hs'
      exact ⟨_, htimes s hkey, hs'⟩
    · rintro ⟨time, htime, hlt⟩
      rw [hmem s, if_pos (PyDict.mem_keys.mpr ⟨time, htime⟩), htime]
      exact hlt
  · intro k' hne
    rw [PyDict.get?_set, if_neg hne]

theorem foldlM_whiteTask {whitelist : PyDict PyStr (List PyStr)} {ks : List PyStr}
    (hpt : Predicted profileMatrix pt) (hwl : Listed profileMatrix whitelist)
    (hks : ∀ k ∈ ks, k ∈ profileMatrix.keys) (hnodup : ks.Nodup) :
    ∃ whitelist', ks.foldlM (whiteTask pt) whitelist = some whitelist' ∧
      Listed profileMatrix whitelist' ∧ (∀ k ∈ ks, Settled pt whitelist' k) ∧
      ∀ k, k ∉ ks → whitelist'.get? k = whitelist.get? k := by
  induction ks generalizing whitelist with
  | nil => exact ⟨whitelist, rfl, hwl, nofun, fun _ _ => rfl⟩
  | cons k ks ih =>
    rw [List.nodup_cons] at hnodup
    obtain ⟨wl₁, hrun₁, hwl₁, hset₁, hother₁⟩ := whiteTask_spec hpt hwl (hks k List.mem_cons_self)
    obtain ⟨wl', hrun, hwl', hset, hother⟩ :=
      ih hwl₁ (fun k' hk' => hks k' (List.mem_cons_of_mem k hk')) hnodup.2
    refine ⟨wl', ?_, hwl', ?_, ?_⟩
    · rw [List.foldlM_cons, hrun₁]
      exact hrun
    · intro k' hk'
      rcases List.mem_cons.mp hk' with rfl | hk'
      · obtain ⟨row, l, hrow, hl, hmem⟩ := hset₁
        exact ⟨row, l, hrow, by rw [hother _ hnodup.1, hl], hmem⟩
      · exact hset k' hk'
    · intro k' hk'
      rw [List.mem_cons, not_or] at hk'
      rw [hother k' hk'.2, hother₁ k' hk'.1]

/-! ### Rounds -/

structure Tables.Aligned (t : Tables) (profileMatrix : PyDict PyStr TaskRow) : Prop where
  profile : t.profileMatrix = profileMatrix
  predicted : Predicted profileMatrix t.predictedTime
  listed : Listed profileMatrix t.whitelist

/-- **Whitelists follow the predictions**: for each task, its list has no duplicates and
contains exactly the servers on which the model predicts less than `SLO` from the features
of this task, and `predicted_time` has these predictions. -/
def Tables.Follows (predict : List Cell → ℚ) (t : Tables) (r : Round) : Prop :=
  ∀ k task, t.profileMatrix.get? k = some task → ∃ row l,
    t.predictedTime.get? k = some row ∧ t.whitelist.get? k = some l ∧ l.Nodup ∧
    (∀ s, s ∈ l ↔ s ∈ servers ∧ prediction predict t.profileMatrix r s task < slo) ∧
    ∀ s ∈ servers, row.get? s = some (prediction predict t.profileMatrix r s task)

/-- One round. -/
theorem whiteAlg_eq_some (predict : List Cell → ℚ) (r : Round) (h : t.Aligned profileMatrix)
    (hquery : ∃ t ∈ profileMatrix.items.map Prod.snd, t.NoQuery) :
    ∃ t', whiteAlg predict t r = some t' ∧ t'.Aligned profileMatrix ∧ t'.Follows predict r := by
  obtain ⟨rfl, hpt, hwl⟩ := h
  have hnone : Written predict t.profileMatrix r t.predictedTime [] := by
    intro k task htask
    obtain ⟨row, hrow⟩ := PyDict.mem_keys.mp (hpt.keys ▸ PyDict.mem_keys.mpr ⟨task, htask⟩)
    exact ⟨row, hrow, nofun⟩
  obtain ⟨pt, hrun, hpt', hwritten⟩ := foldlM_gbdtServer hquery (fun s hs => hs) hpt hnone
  have hnodup : pt.keys.Nodup := pt.nodup
  obtain ⟨wl, hrunWl, hwl', hsettled, -⟩ :=
    foldlM_whiteTask hpt' hwl (fun k hk => hpt'.keys ▸ hk) hnodup
  refine ⟨{ t with predictedTime := pt, whitelist := wl }, ?_, ⟨rfl, hpt', hwl'⟩, ?_⟩
  · have hgbdt :
        gbdt predict t.profileMatrix r.cpuDict r.workloadDict t.predictedTime = some pt := by
      rw [gbdt, Round.cpuDict, PyDict.keys_ofKeys]
      exact hrun
    show (gbdt predict t.profileMatrix r.cpuDict r.workloadDict t.predictedTime).bind _ = _
    rw [hgbdt, Option.bind_some]
    show (pt.keys.foldlM (whiteTask pt) t.whitelist).bind _ = _
    rw [hrunWl]
    rfl
  · intro k task htask
    have hk : k ∈ pt.keys := hpt'.keys ▸ PyDict.mem_keys.mpr ⟨task, htask⟩
    obtain ⟨row, l, hrow, hl, hmem⟩ := hsettled k hk
    obtain ⟨row', hrow', hvals⟩ := hwritten k task htask
    obtain rfl := Option.some.inj (hrow.symm.trans hrow')
    refine ⟨row, l, hrow, hl, hwl'.nodup k l hl, fun s => ?_, hvals⟩
    rw [hmem s]
    constructor
    · rintro ⟨time, htime, hlt⟩
      have hs : s ∈ servers := hpt'.rows k row hrow ▸ PyDict.mem_keys.mpr ⟨time, htime⟩
      obtain rfl := Option.some.inj (htime.symm.trans (hvals s hs))
      exact ⟨hs, hlt⟩
    · rintro ⟨hs, hlt⟩
      exact ⟨_, hvals s hs, hlt⟩

theorem foldlM_gbdtServer_none {ss : List PyStr} (hss : ∀ s ∈ ss, s ∈ servers) (hne : ss ≠ [])
    (hquery : ¬ ∃ t ∈ profileMatrix.items.map Prod.snd, t.NoQuery) :
    ss.foldlM (gbdtServer predict profileMatrix r.cpuDict r.workloadDict) pt = none := by
  cases ss with
  | nil => exact absurd rfl hne
  | cons s ss =>
    rw [List.foldlM_cons, gbdtServer_eq_none (hss s List.mem_cons_self) hquery]
    rfl

theorem whiteAlg_eq_none (hquery : ¬ ∃ u ∈ t.profileMatrix.items.map Prod.snd, u.NoQuery) :
    whiteAlg predict t r = none := by
  have hgbdt : gbdt predict t.profileMatrix r.cpuDict r.workloadDict t.predictedTime = none := by
    have hkeys : r.cpuDict.keys = servers := PyDict.keys_ofKeys _ _ _
    rw [gbdt]
    apply foldlM_gbdtServer_none (fun s hs => hkeys ▸ hs) _ hquery
    rw [hkeys]
    exact fun h => absurd (congrArg List.length h) (by decide +kernel)
  show (gbdt predict t.profileMatrix r.cpuDict r.workloadDict t.predictedTime).bind _ = _
  rw [hgbdt]
  rfl

theorem readTasks_spec (rows : List TaskRow) :
    (readTasks rows).2.keys = (readTasks rows).1.keys ∧
      ∀ k l, (readTasks rows).2.get? k = some l → l = [] := by
  induction rows using List.reverseRecOn with
  | nil => exact ⟨rfl, nofun⟩
  | append_singleton rows row ih =>
    rw [readTasks, List.foldl_concat]
    dsimp only
    generalize (if row.query = [] then { row with query := null } else row) = row
    constructor
    · exact PyDict.keys_set_congr ih.1 _ _ _
    · intro k l hl
      rw [PyDict.get?_set] at hl
      split_ifs at hl with heq
      · exact (Option.some.inj hl).symm
      · exact ih.2 k l hl

theorem aligned_initTables (rows : List TaskRow) :
    (initTables rows).Aligned (initTables rows).profileMatrix where
  profile := rfl
  predicted := by
    refine ⟨PyDict.keys_mapValues _ _, fun k row hrow => ?_⟩
    rw [initTables, PyDict.get?_mapValues, Option.map_eq_some_iff] at hrow
    obtain ⟨t, -, rfl⟩ := hrow
    exact PyDict.keys_ofKeys _ _ _
  listed := by
    have hlist : ∀ k l, (initTables rows).whitelist.get? k = some l → l = servers := by
      intro k l hl
      rw [initTables, PyDict.get?_mapValues, Option.map_eq_some_iff] at hl
      obtain ⟨l₀, hl₀, rfl⟩ := hl
      rw [(readTasks_spec rows).2 k l₀ hl₀]
      rfl
    refine ⟨?_, fun k l hl => ?_, fun k l hl => ?_⟩
    · show ((readTasks rows).2.mapValues _).keys = (readTasks rows).1.keys
      rw [PyDict.keys_mapValues, (readTasks_spec rows).1]
    · rw [hlist k l hl]
      exact nodup_servers
    · rw [hlist k l hl]
      exact fun s hs => hs

theorem foldlM_whiteAlg (predict : List Cell → ℚ) (rounds : List Round)
    (h : t.Aligned profileMatrix) (hquery : ∃ u ∈ profileMatrix.items.map Prod.snd, u.NoQuery) :
    ∃ t', rounds.foldlM (whiteAlg predict) t = some t' ∧ t'.Aligned profileMatrix := by
  induction rounds generalizing t with
  | nil => exact ⟨t, rfl, h⟩
  | cons r rounds ih =>
    obtain ⟨t₁, hrun₁, h₁, -⟩ := whiteAlg_eq_some predict r h hquery
    obtain ⟨t', hrun, h'⟩ := ih h₁
    exact ⟨t', by rw [List.foldlM_cons, hrun₁]; exact hrun, h'⟩

/-- **Whitelists follow the predictions**, after each round of any number of rounds, if and
only if some task of the profile has no query: otherwise the first round ends with a
`KeyError`. -/
theorem whiteAlg_follows_iff (predict : List Cell → ℚ) (rows : List TaskRow)
    (rounds : List Round) (r : Round) :
    (∃ t t', rounds.foldlM (whiteAlg predict) (initTables rows) = some t ∧
      whiteAlg predict t r = some t' ∧ t'.Follows predict r) ↔
    ∃ u ∈ (initTables rows).profileMatrix.items.map Prod.snd, u.NoQuery := by
  constructor
  · rintro ⟨t, t', hrounds, hround, -⟩
    by_contra hquery
    cases rounds with
    | nil =>
      obtain rfl : initTables rows = t := by simpa using hrounds
      rw [whiteAlg_eq_none hquery] at hround
      cases hround
    | cons r₀ rounds =>
      rw [List.foldlM_cons, whiteAlg_eq_none hquery] at hrounds
      cases hrounds
  · intro hquery
    obtain ⟨t, hrounds, ht⟩ := foldlM_whiteAlg predict rounds (aligned_initTables rows) hquery
    obtain ⟨t', hround, -, hfollows⟩ := whiteAlg_eq_some predict r ht hquery
    exact ⟨t, t', hrounds, hround, hfollows⟩

def addToCart : TaskRow :=
  { method := "GET".toList
    url := "/".toList
    query := "?wc-ajax=add_to_cart".toList
    content := "1K".toList
    avgSize := "1".toList
    sizeStdev := "0".toList
    avgTime := "2".toList
    timeStdev := "0".toList }

/-- **Whitelists follow the predictions**: there are none if all tasks have a query. -/
theorem not_whiteAlg_follows :
    ¬ ∀ (predict : List Cell → ℚ) (rows : List TaskRow) (r : Round),
      ∃ t', whiteAlg predict (initTables rows) r = some t' ∧ t'.Follows predict r := by
  intro h
  obtain ⟨t', hround, -⟩ := h (fun _ => 0) [addToCart] ⟨fun _ => 0, fun _ => 0⟩
  have hquery : ¬ ∃ u ∈ (initTables [addToCart]).profileMatrix.items.map Prod.snd, u.NoQuery := by
    rintro ⟨u, hu, hnone⟩
    obtain rfl : u = addToCart := List.mem_singleton.mp hu
    rcases hnone with h | h <;> exact absurd h (by decide +kernel)
  rw [whiteAlg_eq_none hquery] at hround
  cases hround

end Smartdrop

end SmartHAProxy
