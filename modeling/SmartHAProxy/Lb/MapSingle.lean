/-
The static map with one backup server (lb_map.c).

Without usable active servers, and without `PR_O_USE_ALL_BK`, only the first usable backup
server is to be used: the total is its weight alone, but all usable backup servers are still
candidates for the slots.  The first one always has a quotient of 2 (`mapValue_first`), and
the quotient of another one grows with every slot, up to its weight plus 1.  The first one
therefore has the map to itself only where weights do not matter
(`recalcServerMap_single_iff`).
-/
import SmartHAProxy.Lb.MapExact

namespace SmartHAProxy

variable {ι : Type*} [DecidableEq ι]

/-! ### The recount -/

theorem recounted_single {L : Type*} {b : Backend ι L} {f : ι} (hact : b.usable false = [])
    (hall : b.px.useAllBk = false) (hf : (b.usable true).head? = some f) :
    b.recounted.px.fbck = some f ∧ b.recounted.px.totWeight = (b.srv f).nextEweight ∧
      b.recounted.px.totUsed = 1 := by
  have htally := tally_recountServers b
  have hfbck : b.recounted.px.fbck = _ := congrArg Tally.fbck htally
  have hweight : b.recounted.px.totWeight = _ := congrArg Tally.totWeight htally
  have hused : b.recounted.px.totUsed = _ := congrArg Tally.totUsed htally
  have hfirst : firstBackup b.nextStandings b.px.useAllBk b.px.srvs = some f := by
    rw [firstBackup, hall, if_neg Bool.false_ne_true]
    refine Eq.trans ?_ hf
    rw [Backend.usable, List.head?_filter]
    refine List.find?_congr fun i _ => ?_
    rw [Backend.nextStandings, isBackup_nextStanding, Server.inGroup]
    cases (b.srv i).backup <;> rfl
  have hzero : headcount b.nextStandings false b.px.srvs = 0 := by
    rw [(census_usable b false).1, hact]
    rfl
  have hwgt : wgt true (b.nextStandings f) = (b.srv f).nextEweight := by
    obtain ⟨-, hbackup, husable⟩ := mem_usable.mp (List.mem_of_head? hf)
    rw [Backend.nextStandings, (standing_inGroup (b.srv f) true).2, if_pos]
    rw [Server.inGroup, hbackup, husable]
    rfl
  rw [hfbck, hweight, hused]
  unfold census
  dsimp only
  rw [hzero, hfirst, if_neg (not_not.mpr rfl), if_neg (not_not.mpr rfl)]
  exact ⟨rfl, hwgt, rfl⟩

/-! ### The slots -/

section Slots

variable {srv : ι → Server} {cands : List ι} {tot : UInt32} {m : LbMap ι} {f i : ι}

/-- The total is the weight of the first candidate, the scores start from 0, and the weights
are effective weights. -/
structure FirstOnly (srv : ι → Server) (cands : List ι) (tot : UInt32) (m : LbMap ι) (f : ι) :
    Prop where
  nodup : cands.Nodup
  first : cands.head? = some f
  total : tot = (srv f).nextEweight
  le : ∀ i ∈ cands, (srv i).nextEweight.toNat ≤ 4096
  pos : ∀ i ∈ cands, 0 < (srv i).nextEweight.toNat
  start : ∀ i ∈ cands, m.wscore i = 0

namespace FirstOnly

omit [DecidableEq ι] in
theorem mem (h : FirstOnly srv cands tot m f) : f ∈ cands := List.mem_of_head? h.first

/-- As long as the first candidate gets all slots, it has a quotient of 2 and the others have
collected their weights. -/
theorem mapValue_first (h : FirstOnly srv cands tot m f) (htot : tot ≠ 1) {n : ℕ}
    (hn : n < tot.toNat) (hall : ∀ o < n, slotPick srv cands tot m f o = f) (hi : i ∈ cands) :
    (mapValue srv tot (mapRun srv cands tot m n).wscore i).toNat =
      if i = f then 2 else ((n + 1) * (srv i).nextEweight.toNat + tot.toNat) / tot.toNat := by
  have hpos : 0 < tot.toNat := Nat.lt_of_le_of_lt (Nat.zero_le n) hn
  have htotal : tot.toNat = (srv f).nextEweight.toNat := congrArg UInt32.toNat h.total
  have hrun := wscore_run srv h.nodup htot h.mem hi (h.start i hi) n
  have hturns : Quota.turns (slotPick srv cands tot m f) i n = if i = f then n else 0 := by
    have hconst : ∀ o < n, slotPick srv cands tot m f o = (fun _ => f) o := hall
    rw [Quota.turns_congr hconst]
    split_ifs with heq
    · rw [heq, Quota.turns, Finset.filter_true_of_mem fun _ _ => rfl, Finset.card_range]
    · rw [Quota.turns, Finset.filter_false_of_mem fun _ _ h => heq h.symm, Finset.card_empty]
  rw [hturns] at hrun
  rw [mapValue, UInt32.toNat_div]
  generalize (mapRun srv cands tot m n).wscore i = wscore at hrun ⊢
  by_cases heq : i = f
  · subst heq
    rw [if_pos rfl, ← htotal, Nat.mul_comm n] at hrun
    have hzero : wscore = 0 := by
      have hsum : wscore + UInt32.ofNat (tot.toNat * n) = 0 + UInt32.ofNat (tot.toNat * n) := by
        rw [hrun, UInt32.zero_add]
      exact (UInt32.add_left_inj _).mp hsum
    have hle := h.le i hi
    rw [if_pos rfl, hzero, UInt32.zero_add, ← h.total, UInt32.toNat_add,
      Nat.mod_eq_of_lt (by omega), ← Nat.two_mul, Nat.mul_div_cancel _ hpos]
  · rw [if_neg heq, Nat.mul_zero] at hrun
    have hwscore : wscore + (srv i).nextEweight + tot + .ofNat 0 =
        .ofNat ((n + 1) * (srv i).nextEweight.toNat + tot.toNat) := by
      rw [Nat.succ_mul, UInt32.ofNat_add, UInt32.ofNat_add, ← hrun, UInt32.ofNat_toNat,
        UInt32.ofNat_toNat]
      abel
    have hlt : (n + 1) * (srv i).nextEweight.toNat + tot.toNat < 2 ^ 32 := by
      have hf := h.le f h.mem
      have hmul : (n + 1) * (srv i).nextEweight.toNat ≤ 4096 * 4096 :=
        Nat.mul_le_mul (by omega) (h.le i hi)
      omega
    rw [if_neg heq, toNat_of_add_eq hwscore (Nat.zero_le _) hlt, Nat.sub_zero]

/-- **The first candidate gets all slots** if and only if its weight is 1, or all others have a
weight of 1. -/
theorem all_slots_iff (h : FirstOnly srv cands tot m f) :
    (∀ o < tot.toNat, (mapRun srv cands tot m tot.toNat).srv o = some f) ↔
      (srv f).nextEweight.toNat = 1 ∨
        ∀ i ∈ cands, i ≠ f → (srv i).nextEweight.toNat = 1 := by
  have htotal : tot.toNat = (srv f).nextEweight.toNat := congrArg UInt32.toNat h.total
  by_cases htot : tot = 1
  · subst htot
    refine ⟨fun _ => .inl htotal.symm, fun _ o ho => ?_⟩
    exact (slot_stable ho).trans ((slot_one o).trans h.first)
  · have hne : (srv f).nextEweight.toNat ≠ 1 := fun hone =>
      htot (UInt32.toNat.inj (htotal.trans hone))
    have hposf := h.pos f h.mem
    have hslot (o : ℕ) := slot_eq_some srv tot m h.nodup h.mem o
    constructor
    · intro hall
      right
      intro i hi hif
      by_contra hw
      have hposi := h.pos i hi
      -- in the last slot the other one has collected its weight as often as there are slots
      obtain ⟨n, hn⟩ : ∃ n, tot.toNat = n + 1 := Nat.exists_eq_add_one.mpr (htotal ▸ hposf)
      have hpick : ∀ o < tot.toNat, slotPick srv cands tot m f o = f := fun o ho =>
        Option.some.inj ((hslot o).1.symm.trans ((slot_stable ho).symm.trans (hall o ho)))
      have hlast : n < tot.toNat := hn ▸ Nat.lt_succ_self n
      have hvalue {i : ι} (hi : i ∈ cands) := h.mapValue_first htot hlast
        (fun o ho => hpick o (Nat.lt_trans ho hlast)) hi
      have hmax := (slot_eq h.nodup htot n).symm.trans ((hslot n).1)
      rw [hpick n hlast] at hmax
      have hle := List.le_of_mem_argmax hi hmax
      rw [hvalue hi, hvalue h.mem, if_pos rfl, if_neg hif, ← hn, ← Nat.mul_succ,
        Nat.mul_div_cancel_left _ (htotal ▸ hposf)] at hle
      omega
    · intro hcond o ho
      have hones := hcond.resolve_left hne
      rw [slot_stable ho]
      induction o using Nat.strong_induction_on with
      | h o ih =>
        have hpick : ∀ o' < o, slotPick srv cands tot m f o' = f := fun o' ho' =>
          Option.some.inj ((hslot o').1.symm.trans (ih o' ho' (Nat.lt_trans ho' ho)))
        have hvalue {i : ι} (hi : i ∈ cands) := h.mapValue_first htot ho hpick hi
        rw [slot_eq h.nodup htot]
        refine List.mem_argmax_iff.mpr ⟨h.mem, fun i hi => ?_, fun i _ _ => ?_⟩
        · rw [hvalue hi, hvalue h.mem, if_pos rfl]
          split_ifs with hif
          · exact Nat.le_refl 2
          · rw [hones i hi hif, Nat.mul_one]
            refine (Nat.div_le_iff_le_mul_add_pred (Nat.lt_of_le_of_lt (Nat.zero_le o) ho)).mpr ?_
            omega
        · obtain ⟨l, rfl⟩ := List.head?_eq_some_iff.mp h.first
          rw [List.idxOf_cons_self]
          exact Nat.zero_le _

end FirstOnly

end Slots

/-! ### The whole map -/

/-- Every slot belongs to `lbprm.fbck`, the first usable backup server of the configuration. -/
def SingleMap (b : Backend ι (LbMap ι)) : Prop :=
  b.recounted.px.fbck = (b.usable true).head? ∧
    ∀ o < b.recounted.px.totWeight.toNat,
      (recalcServerMap b.recounted).px.lb.srv o = b.recounted.px.fbck

/-- **In single backup mode the first server has the map to itself** if and only if its weight
is 1 or all other usable backup servers have a weight of 1. -/
theorem recalcServerMap_single_iff (b : Backend ι (LbMap ι)) (hact : b.usable false = [])
    (hbck : b.usable true ≠ []) (hall : b.px.useAllBk = false)
    (hw : ∀ i ∈ b.usable true, b.weightOf i ≤ 4096) :
    SingleMap b ↔ ∀ f, (b.usable true).head? = some f →
      b.weightOf f = 1 ∨ ∀ i ∈ b.usable true, i ≠ f → b.weightOf i = 1 := by
  obtain ⟨f, hf⟩ : ∃ f, (b.usable true).head? = some f :=
    ⟨_, List.head?_eq_some_head hbck⟩
  obtain ⟨hfbck, hweight, hused⟩ := recounted_single hact hall hf
  have hparts : b.participants = b.usable true := if_pos hact
  have hfirst : FirstOnly b.recounted.srv (b.usable true) b.recounted.px.totWeight
      { b.recounted.px.lb with wscore := fun i => if i ∈ b.recounted.px.srvs then 0
                                                  else b.recounted.px.lb.wscore i } f := by
    refine ⟨nodup_usable b true, hf, ?_, fun i hi => ?_, fun i hi => ?_, fun i hi => ?_⟩
    · rw [hweight, (recounted_srv b f).2.2]
    · rw [toNat_recounted]
      exact hw i hi
    · rw [toNat_recounted]
      exact weightOf_pos hi
    · rw [(onlyCounts_recounted b).srvs]
      exact if_pos (mem_usable.mp hi).1
  have hslots := hfirst.all_slots_iff
  have hrun : recalcServerMap b.recounted =
      b.recounted.setLb (b.recounted.mapAfter b.recounted.px.totWeight.toNat) :=
    recalcServerMap_eq (hused ▸ Int.one_ne_zero)
  have hmap : (recalcServerMap b.recounted).px.lb =
      mapRun b.recounted.srv (b.usable true) b.recounted.px.totWeight
        { b.recounted.px.lb with wscore := fun i => if i ∈ b.recounted.px.srvs then 0
                                                    else b.recounted.px.lb.wscore i }
        b.recounted.px.totWeight.toNat := by
    rw [hrun]
    show b.recounted.mapAfter _ = _
    rw [Backend.mapAfter, candidates_eq, hparts]
  rw [SingleMap, hfbck, hf, hmap]
  simp only [toNat_recounted] at hslots
  constructor
  · rintro ⟨-, hall⟩ f' hf'
    obtain rfl := Option.some.inj hf'
    exact hslots.mp hall
  · intro hcond
    exact ⟨rfl, hslots.mpr (hcond f rfl)⟩

/-- Two backup servers, with the weights `w` and `w'`. -/
def twoBackups (w w' : UInt32) : Backend Bool (LbMap Bool) :=
  mapBackend [false, true] nodup_falseTrue fun i => weighted (if i then w' else w) true

theorem recalcServerMap_single_small :
    ((twoBackups 3 1).usable false = [] ∧ (twoBackups 3 1).usable true ≠ [] ∧
      (twoBackups 3 1).px.useAllBk = false ∧
      ∀ i ∈ (twoBackups 3 1).usable true, (twoBackups 3 1).weightOf i ≤ 4096) ∧
    SingleMap (twoBackups 3 1) := by
  have hhyps : (twoBackups 3 1).usable false = [] ∧ (twoBackups 3 1).usable true ≠ [] ∧
      (twoBackups 3 1).px.useAllBk = false ∧
      ∀ i ∈ (twoBackups 3 1).usable true, (twoBackups 3 1).weightOf i ≤ 4096 := by decide
  obtain ⟨hact, hbck, hall, hw⟩ := hhyps
  refine ⟨⟨hact, hbck, hall, hw⟩,
    (recalcServerMap_single_iff (twoBackups 3 1) hact hbck hall hw).mpr fun f hf => ?_⟩
  obtain rfl : false = f := Option.some.inj hf
  exact .inr (by decide)

/-- Of two backup servers with a weight of 2 the second one gets the second slot. -/
theorem not_recalcServerMap_single :
    ¬ ∀ b : Backend Bool (LbMap Bool), b.usable false = [] → b.usable true ≠ [] →
      b.px.useAllBk = false → (∀ i ∈ b.usable true, b.weightOf i ≤ 4096) → SingleMap b := by
  intro h
  obtain ⟨-, hslots⟩ := h (twoBackups 2 2) (by decide) (by decide) (by decide) (by decide)
  exact absurd (hslots 1 (by decide)) (by decide)

end SmartHAProxy
