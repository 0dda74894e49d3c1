/-
What a rejected DNS response leaves in the answer list.

An answer that is stored changes the list unless it is the same as an item that
has been seen at the same date and has the weight of the last such answer
(`MergesNothing`); an additional record changes it unless it is dropped.  The
records before the defect of a packet have been stored when it is rejected.

Main results: `storeAdditionals_eq_iff` and `rejected_unchanged_iff`.
-/
import Mathlib.Data.List.Induction
import SmartHAProxy.Dns.Read

namespace SmartHAProxy

/-! ### Answers that change nothing -/

section Merge

variable {now : ℕ}

/-- The first stored item that is the same as the answer. -/
def answerSlot (list : List ResolvAnswerItem) (item : ResolvRecord) : Option ℕ :=
  list.findIdx? fun tmp => sameAnswer item tmp.toResolvRecord

/-- The last one of the answers that are the same as item `k`. -/
def lastAnswer (list : List ResolvAnswerItem) (answers : List ResolvRecord) (k : ℕ) :
    Option ResolvRecord := (answers.filter fun item => answerSlot list item == some k).getLast?

/-- Each answer is known; an item that is met has been seen at this date, and the last answer that
meets it has its weight if it is a SRV record. -/
structure MergesNothing (now : ℕ) (list : List ResolvAnswerItem) (answers : List ResolvRecord) :
    Prop where
  known : ∀ item ∈ answers, answerSlot list item ≠ none
  same : ∀ k tmp item, list[k]? = some tmp → lastAnswer list answers k = some item →
    tmp.lastSeen = some now ∧ (tmp.type = dnsRtypeSrv → item.weight = tmp.weight)

theorem refreshAnswer_eq_iff (item : ResolvRecord) (tmp : ResolvAnswerItem) :
    refreshAnswer now item tmp = tmp ↔
      tmp.lastSeen = some now ∧ (tmp.type = dnsRtypeSrv → item.weight = tmp.weight) := by
  constructor
  · intro h
    have hseen : some now = tmp.lastSeen := congrArg (fun t => t.lastSeen) h
    have hweight : (if tmp.type = dnsRtypeSrv then item.weight else tmp.weight) = tmp.weight :=
      congrArg (fun t => t.weight) h
    refine ⟨hseen.symm, fun hsrv => ?_⟩
    rwa [if_pos hsrv] at hweight
  · rintro ⟨hseen, hweight⟩
    have hw : (if tmp.type = dnsRtypeSrv then item.weight else tmp.weight) = tmp.weight := by
      split_ifs with hsrv
      · exact hweight hsrv
      · rfl
    rw [refreshAnswer, hw, ← hseen]

theorem refreshAnswer_refreshAnswer (item item' : ResolvRecord) (tmp : ResolvAnswerItem) :
    refreshAnswer now item (refreshAnswer now item' tmp) = refreshAnswer now item tmp := by
  simp only [refreshAnswer]
  split_ifs <;> rfl

theorem findIdx?_modify {α : Type*} {p : α → Bool} {f : α → α} (h : ∀ x, p (f x) = p x)
    (list : List α) (k : ℕ) : (list.modify k f).findIdx? p = list.findIdx? p := by
  have hmap : (list.modify k f).map p = list.map p := by
    apply List.ext_getElem?
    intro i
    rw [List.getElem?_map, List.getElem?_map, getElem?_modify_ite]
    split_ifs
    · rw [Option.map_map]
      exact congrArg (fun g => Option.map g _) (funext h)
    · rfl
  have hid (l : List α) : l.findIdx? p = (l.map p).findIdx? id := by
    rw [List.findIdx?_map]
    rfl
  rw [hid, hmap, ← hid]

theorem answerSlot_modify (list : List ResolvAnswerItem) (k : ℕ) (item item' : ResolvRecord) :
    answerSlot (list.modify k (refreshAnswer now item')) item = answerSlot list item := by
  apply findIdx?_modify
  intro tmp
  rfl

theorem length_le_storeAnswer (now : ℕ) (list : List ResolvAnswerItem) (item : ResolvRecord) :
    list.length ≤ (resolvStoreAnswer now list item).length := by
  rw [resolvStoreAnswer]
  split
  · rw [List.length_modify]
  · rw [List.length_append]
    exact Nat.le_add_right _ _

theorem length_le_storeAnswers (now : ℕ) (list : List ResolvAnswerItem)
    (answers : List ResolvRecord) :
    list.length ≤ (storeAnswers now list answers).length := by
  induction answers generalizing list with
  | nil => exact Nat.le_refl _
  | cons item answers ih => exact Nat.le_trans (length_le_storeAnswer now list item) (ih _)

theorem storeAnswers_concat (list : List ResolvAnswerItem) (answers : List ResolvRecord)
    (item : ResolvRecord) :
    storeAnswers now list (answers ++ [item])
      = resolvStoreAnswer now (storeAnswers now list answers) item := List.foldl_concat ..

/-- **Known answers**: the items stay where they are, and each is refreshed by the last answer that
meets it. -/
theorem storeAnswers_known (now : ℕ) (list : List ResolvAnswerItem) (answers : List ResolvRecord)
    (h : ∀ item ∈ answers, answerSlot list item ≠ none) :
    (∀ item, answerSlot (storeAnswers now list answers) item = answerSlot list item) ∧
      ∀ k, (storeAnswers now list answers)[k]? = list[k]?.map fun tmp =>
        match lastAnswer list answers k with
        | some item => refreshAnswer now item tmp
        | none => tmp := by
  induction answers using List.reverseRecOn with
  | nil =>
    refine ⟨fun _ => rfl, fun k => ?_⟩
    show list[k]? = list[k]?.map fun tmp => tmp
    rw [Option.map_id']
  | append_singleton answers item ih =>
    obtain ⟨hslot, hget⟩ := ih fun x hx => h x (List.mem_append_left _ hx)
    obtain ⟨k₀, hk₀⟩ := Option.ne_none_iff_exists'.mp
      (h item (List.mem_append_right _ (List.mem_singleton_self _)))
    have hstore : resolvStoreAnswer now (storeAnswers now list answers) item
        = (storeAnswers now list answers).modify k₀ (refreshAnswer now item) := by
      rw [resolvStoreAnswer]
      have hfind := hslot item
      rw [hk₀, answerSlot] at hfind
      rw [hfind]
    rw [storeAnswers_concat, hstore]
    refine ⟨fun x => (answerSlot_modify _ _ _ _).trans (hslot x), fun k => ?_⟩
    rw [getElem?_modify_ite, hget k, lastAnswer, lastAnswer, List.filter_append]
    by_cases hk : k₀ = k
    · subst hk
      rw [List.filter_cons_of_pos (by rw [hk₀]; exact beq_self_eq_true _), List.filter_nil,
        List.getLast?_concat, if_pos rfl, Option.map_map]
      refine congrArg (fun g => Option.map g _) (funext fun tmp => ?_)
      rw [Function.comp_apply]
      split
      · exact refreshAnswer_refreshAnswer _ _ _
      · rfl
    · rw [List.filter_cons_of_neg (by rw [hk₀]; simpa using hk), List.filter_nil, List.append_nil,
        if_neg hk]

theorem known_of_length {list : List ResolvAnswerItem} (answers : List ResolvRecord)
    (h : (storeAnswers now list answers).length = list.length) :
    ∀ item ∈ answers, answerSlot list item ≠ none := by
  induction answers using List.reverseRecOn with
  | nil => exact fun item hitem => absurd hitem List.not_mem_nil
  | append_singleton answers item ih =>
    rw [storeAnswers_concat] at h
    have hle := length_le_storeAnswers now list answers
    have hle' := length_le_storeAnswer now (storeAnswers now list answers) item
    have hlen : (storeAnswers now list answers).length = list.length := by omega
    have hknown := ih hlen
    intro x hx
    rcases List.mem_append.mp hx with hx | hx
    · exact hknown x hx
    · obtain rfl := List.mem_singleton.mp hx
      intro hnone
      have hslot := (storeAnswers_known now list answers hknown).1 x
      rw [hnone, answerSlot] at hslot
      rw [resolvStoreAnswer, hslot, List.length_append, List.length_singleton] at h
      omega

theorem MergesNothing.storeAnswers_eq {list : List ResolvAnswerItem} {answers : List ResolvRecord}
    (h : MergesNothing now list answers) : storeAnswers now list answers = list := by
  apply List.ext_getElem?
  intro k
  rw [(storeAnswers_known now list answers h.known).2 k]
  rcases htmp : list[k]? with - | tmp
  · rfl
  · refine congrArg some ?_
    rcases hlast : lastAnswer list answers k with - | item
    · rfl
    · exact (refreshAnswer_eq_iff item tmp).mpr (h.same k tmp item htmp hlast)

theorem storeAnswers_eq_iff (list : List ResolvAnswerItem) (answers : List ResolvRecord) :
    (storeAnswers now list answers).map (·.toResolvRecord) = list.map (·.toResolvRecord) ↔
      MergesNothing now list answers := by
  constructor
  · intro h
    have hlen : (storeAnswers now list answers).length = list.length := by
      have := congrArg List.length h
      rwa [List.length_map, List.length_map] at this
    have hknown := known_of_length answers hlen
    refine ⟨hknown, fun k tmp item htmp hlast => ?_⟩
    have hk := congrArg (·[k]?) h
    simp only [List.getElem?_map] at hk
    rw [(storeAnswers_known now list answers hknown).2 k, htmp, hlast] at hk
    have hrec : (refreshAnswer now item tmp).toResolvRecord = tmp.toResolvRecord :=
      Option.some.inj hk
    refine (refreshAnswer_eq_iff item tmp).mp ?_
    calc refreshAnswer now item tmp
        = { (refreshAnswer now item tmp).toResolvRecord with arItem := tmp.arItem } := rfl
      _ = { tmp.toResolvRecord with arItem := tmp.arItem } := by rw [hrec]
      _ = tmp := rfl
  · intro h
    rw [h.storeAnswers_eq]

end Merge

/-! ### Additional records that change nothing -/

section Attach

variable {now : ℕ}

/-- The additional record neither refreshes an attached one nor is attached. -/
def Dropped (now : ℕ) (list : List ResolvAnswerItem) (item : ℕ × ResolvRecord) : Prop :=
  ∀ tmp ∈ list, sameAdditional now item.1 item.2 tmp = false ∧ wantsAdditional item.2 tmp = false

/-- The item has an additional record seen at this date. -/
def attachedNow (now : ℕ) (tmp : ResolvAnswerItem) : Bool :=
  tmp.arItem.any fun ar => ar.lastSeen == some now

theorem countP_modify {α : Type*} {p : α → Bool} {f : α → α} {list : List α} {k : ℕ} {x : α}
    (hk : list[k]? = some x) (hx : p x = false) (hfx : p (f x) = true) :
    (list.modify k f).countP p = list.countP p + 1 := by
  induction list generalizing k with
  | nil => exact nomatch hk
  | cons y list ih =>
    cases k with
    | zero =>
      obtain rfl := Option.some.inj hk
      rw [List.modify_zero_cons, List.countP_cons_of_pos hfx,
        List.countP_cons_of_neg (by rw [hx]; exact Bool.false_ne_true)]
    | succ k =>
      rw [List.modify_succ_cons, List.countP_cons, List.countP_cons, ih hk, Nat.add_right_comm]

/-- A record that is dropped leaves the list, another one adds a record seen at this date. -/
theorem storeAdditional_cases (list : List ResolvAnswerItem) (item : ℕ × ResolvRecord) :
    Dropped now list item ∧ resolvStoreAdditional now item.1 list item.2 = list ∨
      ¬ Dropped now list item ∧
        (resolvStoreAdditional now item.1 list item.2).countP (attachedNow now)
          = list.countP (attachedNow now) + 1 := by
  rw [resolvStoreAdditional]
  rcases hsame : list.findIdx? (sameAdditional now item.1 item.2) with - | k
  · have hno := List.findIdx?_eq_none_iff.mp hsame
    rcases hwants : list.findIdx? (wantsAdditional item.2) with - | k
    · have hno' := List.findIdx?_eq_none_iff.mp hwants
      exact .inl ⟨fun tmp htmp => ⟨hno tmp htmp, hno' tmp htmp⟩, rfl⟩
    · -- attached to an item without one
      obtain ⟨hk, hw, -⟩ := List.findIdx?_eq_some_iff_getElem.mp hwants
      refine .inr ⟨fun hdrop => ?_, ?_⟩
      · exact Bool.false_ne_true ((hdrop _ (List.getElem_mem hk)).2.symm.trans hw)
      · refine countP_modify (List.getElem?_eq_getElem hk) ?_ ?_
        · simp only [wantsAdditional, Bool.and_eq_true] at hw
          rw [attachedNow, Option.isNone_iff_eq_none.mp hw.1.2]
          rfl
        · exact beq_self_eq_true (some now)
  · -- an attached one, seen before
    obtain ⟨hk, hs, -⟩ := List.findIdx?_eq_some_iff_getElem.mp hsame
    refine .inr ⟨fun hdrop => ?_, ?_⟩
    · exact Bool.false_ne_true ((hdrop _ (List.getElem_mem hk)).1.symm.trans hs)
    · rw [sameAdditional] at hs
      rcases har : list[k].arItem with - | ar
      · rw [har, Bool.and_false] at hs
        exact absurd hs Bool.false_ne_true
      rw [har] at hs
      simp only [Bool.and_eq_true, bne_iff_ne] at hs
      refine countP_modify (List.getElem?_eq_getElem hk) ?_ ?_
      · rw [attachedNow, har]
        exact beq_false_of_ne hs.2.1.1.1.1.2
      · show (Option.map _ list[k].arItem).any _ = true
        rw [har]
        exact beq_self_eq_true (some now)

theorem countP_le_storeAdditionals (now : ℕ) (list : List ResolvAnswerItem)
    (items : List (ℕ × ResolvRecord)) :
    list.countP (attachedNow now) ≤ (storeAdditionals now list items).countP (attachedNow now) := by
  induction items generalizing list with
  | nil => exact Nat.le_refl _
  | cons item items ih =>
    refine Nat.le_trans ?_ (ih (resolvStoreAdditional now item.1 list item.2))
    rcases storeAdditional_cases list item with ⟨-, hsame⟩ | ⟨-, hcount⟩
    · rw [hsame]
    · rw [hcount]
      exact Nat.le_succ _

/-- **Additional records change nothing** exactly when all of them are dropped. -/
theorem storeAdditionals_eq_iff (list : List ResolvAnswerItem) (items : List (ℕ × ResolvRecord)) :
    storeAdditionals now list items = list ↔ ∀ item ∈ items, Dropped now list item := by
  induction items with
  | nil => exact iff_of_true rfl fun item hitem => absurd hitem List.not_mem_nil
  | cons item items ih =>
    rw [List.forall_mem_cons]
    have hstep : storeAdditionals now list (item :: items)
        = storeAdditionals now (resolvStoreAdditional now item.1 list item.2) items := rfl
    rw [hstep]
    rcases storeAdditional_cases list item with ⟨hdrop, hsame⟩ | ⟨hkept, hcount⟩
    · rw [hsame, ih]
      exact (and_iff_right hdrop).symm
    · refine iff_of_false (fun heq => ?_) fun h => hkept h.1
      have hle := countP_le_storeAdditionals now
        (resolvStoreAdditional now item.1 list item.2) items
      rw [heq, hcount] at hle
      omega

end Attach

/-! ### Rejected responses -/

/-- The records of the packet before its defect change nothing. -/
def HarmlessUntilDefect (packet : CStr) (maxAnswerRecords now : ℕ)
    (pool : ℕ → Option ResolvRecord) (res : ResolvResponse) : Prop :=
  let r := dnsRead packet maxAnswerRecords pool res
  r.defect ≠ none → MergesNothing now res.answerList r.answers ∧
    ∀ item ∈ r.additionals, Dropped now res.answerList item

/-- **A rejected response leaves the answer list as it was** exactly when the packet has no defect
or the records before the defect change nothing. -/
theorem rejected_unchanged_iff (packet : CStr) (maxAnswerRecords now : ℕ)
    (pool : ℕ → Option ResolvRecord) (res : ResolvResponse) :
    let out := resolvValidateDnsResponse packet maxAnswerRecords now pool res
    (out.2 ≠ .valid → out.1.answerList = res.answerList) ↔
      HarmlessUntilDefect packet maxAnswerRecords now pool res := by
  intro out
  obtain ⟨hlist, hvalid⟩ := resolvValidate_answerList packet pool now maxAnswerRecords res
  rw [HarmlessUntilDefect]
  refine imp_congr (not_congr hvalid) ?_
  show out.1.answerList = _ ↔ _
  rw [hlist]
  generalize (dnsRead packet maxAnswerRecords pool res).answers = answers
  generalize (dnsRead packet maxAnswerRecords pool res).additionals = items
  constructor
  · intro h
    have hrec : (storeAnswers now res.answerList answers).map (·.toResolvRecord)
        = res.answerList.map (·.toResolvRecord) := by
      rw [← map_storeAdditionals now _ items, h]
    have hmerge := (storeAnswers_eq_iff res.answerList answers).mp hrec
    rw [hmerge.storeAnswers_eq] at h
    exact ⟨hmerge, (storeAdditionals_eq_iff res.answerList items).mp h⟩
  · rintro ⟨hmerge, hdrop⟩
    rw [hmerge.storeAnswers_eq]
    exact (storeAdditionals_eq_iff res.answerList items).mpr hdrop

/-- One address is stored, and the second answer is missing. -/
theorem not_rejected_unchanged :
    ¬ ∀ (packet : CStr) (maxAnswerRecords now : ℕ) (pool : ℕ → Option ResolvRecord)
      (res : ResolvResponse),
      let out := resolvValidateDnsResponse packet maxAnswerRecords now pool res
      out.2 ≠ .valid → out.1.answerList = res.answerList := by
  intro h
  have hlen := congrArg List.length (h
    [0, 0, 128, 0, 0, 1, 0, 2, 0, 0, 0, 0, 1, 97, 0, 0, 1, 0, 1,
      1, 97, 0, 0, 1, 0, 1, 0, 0, 0, 9, 0, 4, 1, 2, 3, 4] 10 7
    (fun _ => some ⟨fun _ => 0, 0, 0, 0, 0, 0, 0, 0, [], fun _ => 0, none⟩)
    ⟨⟨0, 0, 0, 0, 0⟩, ⟨fun _ => 0, 0, 0⟩, []⟩ (by decide))
  exact absurd hlen (by decide)

end SmartHAProxy
