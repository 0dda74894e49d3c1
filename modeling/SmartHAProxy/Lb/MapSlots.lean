/-
The slots of the static map (lb_map.c, `recalc_server_map`).

Each slot goes to the first of the candidates that reach the largest quotient (`slot_eq`).
The scores are unsigned, and they are what the slots given so far say (`wscore_run`), up to a
multiple of 2^32.
-/
import SmartHAProxy.Lb.Map
import SmartHAProxy.Lib.Quota

namespace SmartHAProxy

variable {ι : Type*} [DecidableEq ι]

/-! ### One slot -/

/-- What the candidates for a slot are compared by: `(cur->wscore + tot) / tot`. -/
def mapValue (srv : ι → Server) (tot : UInt32) (wscore : ι → UInt32) (i : ι) : UInt32 :=
  (wscore i + (srv i).nextEweight + tot) / tot

/-- The search adds the weights and finds the first candidate with the largest quotient. -/
theorem foldl_mapVisit (srv : ι → Server) (tot : UInt32) (wscore : ι → UInt32) {l : List ι}
    (hnodup : l.Nodup) :
    (∀ i, (l.foldl (mapVisit srv tot) ⟨wscore, 0, none⟩).wscore i =
      if i ∈ l then wscore i + (srv i).nextEweight else wscore i) ∧
    (l.foldl (mapVisit srv tot) ⟨wscore, 0, none⟩).best =
      l.argmax (fun i => (mapValue srv tot wscore i).toNat) ∧
    (∀ c ∈ (l.foldl (mapVisit srv tot) ⟨wscore, 0, none⟩).best,
      (l.foldl (mapVisit srv tot) ⟨wscore, 0, none⟩).max = mapValue srv tot wscore c) := by
  induction l using List.reverseRecOn with
  | nil => exact ⟨fun _ => rfl, rfl, nofun⟩
  | append_singleton l a ih =>
    obtain ⟨hscore, hbest, hmax⟩ := ih (List.nodup_append.mp hnodup).1
    have ha : a ∉ l := fun h =>
      (List.nodup_append.mp hnodup).2.2 a h a (List.mem_singleton_self a) rfl
    rw [List.foldl_append, List.foldl_cons, List.foldl_nil, List.argmax_concat]
    generalize l.foldl (mapVisit srv tot) ⟨wscore, 0, none⟩ = m at hscore hbest hmax
    -- `a` has not been visited before
    have hgain : m.wscore a + (srv a).nextEweight = wscore a + (srv a).nextEweight := by
      rw [hscore a, if_neg ha]
    have hnew : ∀ i, Function.update m.wscore a (m.wscore a + (srv a).nextEweight) i =
        if i ∈ l ++ [a] then wscore i + (srv i).nextEweight else wscore i := by
      intro i
      rw [Function.update_apply]
      by_cases hi : i = a
      · subst hi
        rw [if_pos rfl, if_pos (List.mem_append_right l (List.mem_singleton_self i)), hgain]
      · rw [if_neg hi, hscore i]
        simp [hi]
    have hvalue : (m.wscore a + (srv a).nextEweight + tot) / tot = mapValue srv tot wscore a := by
      rw [hgain, mapValue]
    unfold mapVisit
    simp only [hvalue]
    cases hb : m.best with
    | none =>
      rw [if_pos (.inl rfl), ← hbest, hb]
      refine ⟨hnew, rfl, fun c hc => ?_⟩
      obtain rfl := Option.some.inj hc
      rfl
    | some c =>
      have hc := hmax c hb
      rw [← hbest, hb]
      by_cases hgt : mapValue srv tot wscore a > m.max
      · rw [if_pos (.inr hgt)]
        rw [hc] at hgt
        refine ⟨hnew, (if_pos (UInt32.lt_iff_toNat_lt.mp hgt)).symm, fun c' hc' => ?_⟩
        obtain rfl := Option.some.inj hc'
        rfl
      · rw [if_neg (not_or.mpr ⟨Option.some_ne_none c, hgt⟩)]
        rw [hc] at hgt
        refine ⟨hnew, ?_, fun c' hc' => hmax c' (hb.trans ?_)⟩
        · exact (if_neg fun h => hgt (UInt32.lt_iff_toNat_lt.mpr h)).symm
        · exact hc'

/-! ### Slot after slot -/

/-- The map and the scores after `n` slots. -/
def mapRun (srv : ι → Server) (cands : List ι) (tot : UInt32) (m : LbMap ι) (n : ℕ) : LbMap ι :=
  (List.range n).foldl (mapFill srv cands tot) m

section Run

variable {srv : ι → Server} {cands : List ι} {tot : UInt32} {m : LbMap ι}

theorem mapRun_succ (n : ℕ) :
    mapRun srv cands tot m (n + 1) = mapFill srv cands tot (mapRun srv cands tot m n) n := by
  rw [mapRun, List.range_succ, List.foldl_append]
  rfl

theorem slot_stable {o n : ℕ} (h : o < n) :
    (mapRun srv cands tot m n).srv o = (mapRun srv cands tot m (o + 1)).srv o := by
  induction n with
  | zero => exact absurd h (Nat.not_lt_zero o)
  | succ n ih =>
    rcases Nat.lt_succ_iff_lt_or_eq.mp h with hlt | rfl
    · rw [mapRun_succ, ← ih hlt]
      exact Function.update_of_ne (Nat.ne_of_lt hlt) ..
    · rfl

theorem slot_eq (hnodup : cands.Nodup) (htot : tot ≠ 1) (n : ℕ) :
    (mapRun srv cands tot m (n + 1)).srv n =
      cands.argmax fun i =>
        (mapValue srv tot (mapRun srv cands tot m n).wscore i).toNat := by
  rw [mapRun_succ, mapFill]
  dsimp only
  rw [Function.update_self, if_neg htot]
  exact (foldl_mapVisit srv tot _ hnodup).2.1

theorem slot_one (n : ℕ) : (mapRun srv cands 1 m (n + 1)).srv n = cands.head? := by
  rw [mapRun_succ, mapFill]
  dsimp only
  rw [Function.update_self, if_pos rfl]

/-- The server that a slot goes to; `c` stands for no server. -/
def slotPick (srv : ι → Server) (cands : List ι) (tot : UInt32) (m : LbMap ι) (c : ι) (n : ℕ) : ι :=
  ((mapRun srv cands tot m (n + 1)).srv n).getD c

variable (srv tot m) in
theorem slot_eq_some (hnodup : cands.Nodup) {c : ι} (hc : c ∈ cands) (n : ℕ) :
    (mapRun srv cands tot m (n + 1)).srv n = some (slotPick srv cands tot m c n) ∧
      slotPick srv cands tot m c n ∈ cands := by
  have hsome : ∃ i ∈ cands, (mapRun srv cands tot m (n + 1)).srv n = some i := by
    by_cases htot : tot = 1
    · subst htot
      rw [slot_one]
      exact ⟨cands.head (List.ne_nil_of_mem hc), List.head_mem _, List.head?_eq_some_head _⟩
    · rw [slot_eq hnodup htot]
      generalize (fun i => (mapValue srv tot (mapRun srv cands tot m n).wscore i).toNat) = f
      cases hmax : cands.argmax f with
      | none => exact absurd (List.argmax_eq_none.mp hmax) (List.ne_nil_of_mem hc)
      | some i => exact ⟨i, List.argmax_mem hmax, rfl⟩
  obtain ⟨i, hi, hslot⟩ := hsome
  rw [slotPick, hslot]
  exact ⟨rfl, hi⟩

variable (srv) in
/-- **The scores are what the slots say**: a candidate has gained its weight with every slot
and paid the total for each of its own. -/
theorem wscore_run (hnodup : cands.Nodup) (htot : tot ≠ 1) {c i : ι} (hc : c ∈ cands)
    (hi : i ∈ cands) (hzero : m.wscore i = 0) (n : ℕ) :
    (mapRun srv cands tot m n).wscore i +
        .ofNat (tot.toNat * Quota.turns (slotPick srv cands tot m c) i n) =
      .ofNat (n * (srv i).nextEweight.toNat) := by
  induction n with
  | zero =>
    rw [Quota.turns_zero, Nat.mul_zero, Nat.zero_mul]
    exact (UInt32.add_zero _).trans hzero
  | succ n ih =>
    obtain ⟨hslot, -⟩ := slot_eq_some srv tot m hnodup hc n
    have hstep : (mapRun srv cands tot m (n + 1)).wscore i =
        if slotPick srv cands tot m c n = i then
          (mapRun srv cands tot m n).wscore i + (srv i).nextEweight - tot
        else (mapRun srv cands tot m n).wscore i + (srv i).nextEweight := by
      obtain ⟨hscore, -⟩ := foldl_mapVisit srv tot (mapRun srv cands tot m n).wscore hnodup
      rw [mapRun_succ] at hslot ⊢
      rw [mapFill] at hslot ⊢
      dsimp only at hslot ⊢
      rw [Function.update_self, if_neg htot] at hslot
      rw [if_neg htot, hslot]
      dsimp only
      rw [Function.update_apply]
      split_ifs with h h' h'
      · rw [← h, hscore, if_pos (h ▸ hi)]
      · exact absurd h.symm h'
      · exact absurd h'.symm h
      · rw [hscore, if_pos hi]
    rw [Quota.turns_succ, hstep, Nat.succ_mul, UInt32.ofNat_add, ← ih, UInt32.ofNat_toNat]
    split_ifs
    · rw [Nat.mul_add, Nat.mul_one, UInt32.ofNat_add, UInt32.ofNat_toNat]
      abel
    · rw [Nat.add_zero]
      abel

end Run

theorem toNat_of_add_eq {x : UInt32} {a b : ℕ} (h : x + .ofNat a = .ofNat b) (hab : a ≤ b)
    (hb : b < 2 ^ 32) : x.toNat = b - a := by
  have hx : x = .ofNat (b - a) := by
    have hsum : UInt32.ofNat (b - a) + .ofNat a = .ofNat b := by
      rw [← UInt32.ofNat_add, Nat.sub_add_cancel hab]
    exact (UInt32.add_left_inj _).mp (h.trans hsum.symm)
  rw [hx, UInt32.toNat_ofNat_of_lt' (Nat.lt_of_le_of_lt (Nat.sub_le b a) hb)]

end SmartHAProxy
