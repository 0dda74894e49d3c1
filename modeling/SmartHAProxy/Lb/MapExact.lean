/-
The static map gives every server its share (lb_map.c).

`recalcServerMap_exact`: after a recount the map has as many slots for a server as its weight,
and no score falls below the total, provided that the scores fit in 32 bits.  They do not for
every list of servers: sixteen million servers of the highest weight leave an empty map.
-/
import SmartHAProxy.Lb.MapSlots

namespace SmartHAProxy

variable {ι L : Type*}
variable {b : Backend ι L} {n : ℕ}

/-! ### The servers of a group -/

/-- The server is usable and in the group, as the recount sees it. -/
def Server.inGroup (s : Server) (backup : Bool) : Bool := s.backup = backup && s.willbeUsable

def Backend.usable (b : Backend ι L) (backup : Bool) : List ι :=
  b.px.srvs.filter fun i => (b.srv i).inGroup backup

/-- The servers the map is for: the usable active ones, else the usable backup ones. -/
def Backend.participants (b : Backend ι L) : List ι :=
  if b.usable false = [] then b.usable true else b.usable false

def Backend.weightOf (b : Backend ι L) (i : ι) : ℕ := (b.srv i).nextEweight.toNat

/-- The weights of a list of servers, added up. -/
def Backend.weights (b : Backend ι L) (l : List ι) : ℕ := (l.map b.weightOf).sum

theorem mem_usable {backup : Bool} {i : ι} :
    i ∈ b.usable backup ↔
      i ∈ b.px.srvs ∧ (b.srv i).backup = backup ∧ (b.srv i).willbeUsable = true := by
  rw [Backend.usable, List.mem_filter, Server.inGroup, Bool.and_eq_true, decide_eq_true_iff]

theorem nodup_usable (b : Backend ι L) (backup : Bool) : (b.usable backup).Nodup :=
  b.px.nodup.filter _

theorem nodup_participants (b : Backend ι L) : b.participants.Nodup := by
  rw [Backend.participants]
  split_ifs
  · exact nodup_usable b true
  · exact nodup_usable b false

theorem weightOf_pos {backup : Bool} {i : ι} (h : i ∈ b.usable backup) : 0 < b.weightOf i := by
  obtain ⟨-, -, husable⟩ := mem_usable.mp h
  apply Nat.pos_of_ne_zero
  intro hzero
  have hweight : (b.srv i).nextEweight = 0 := UInt32.toNat.inj hzero
  unfold Server.willbeUsable Server.usableWith at husable
  rw [if_pos hweight] at husable
  exact Bool.false_ne_true husable

theorem weightOf_pos_of_participant {i : ι} (h : i ∈ b.participants) : 0 < b.weightOf i := by
  rw [Backend.participants] at h
  split_ifs at h
  · exact weightOf_pos h
  · exact weightOf_pos h

theorem standing_inGroup (s : Server) (backup : Bool) :
    one backup s.nextStanding = (if s.inGroup backup then 1 else 0) ∧
      wgt backup s.nextStanding = if s.inGroup backup then s.nextEweight else 0 := by
  rw [Server.nextStanding, Server.inGroup]
  by_cases husable : s.willbeUsable = true
  · rw [if_pos husable, husable, Bool.and_true]
    by_cases hbackup : s.backup = backup
    · rw [decide_eq_true hbackup]
      exact ⟨if_pos hbackup, if_pos hbackup⟩
    · rw [decide_eq_false hbackup]
      exact ⟨if_neg hbackup, if_neg hbackup⟩
  · rw [if_neg husable, Bool.eq_false_iff.mpr husable, Bool.and_false]
    exact ⟨rfl, rfl⟩

theorem census_filter (b : Backend ι L) (backup : Bool) (l : List ι) :
    headcount b.nextStandings backup l = (l.filter fun i => (b.srv i).inGroup backup).length ∧
      weight b.nextStandings backup l =
        .ofNat (b.weights (l.filter fun i => (b.srv i).inGroup backup)) := by
  induction l with
  | nil => exact ⟨rfl, rfl⟩
  | cons i l ih =>
    obtain ⟨hcount, hweight⟩ := ih
    obtain ⟨hone, hwgt⟩ := standing_inGroup (b.srv i) backup
    rw [headcount] at hcount ⊢
    rw [weight] at hweight ⊢
    rw [List.map_cons, List.sum_cons, List.map_cons, List.sum_cons, hcount, hweight,
      Backend.nextStandings, hone, hwgt]
    by_cases hin : (b.srv i).inGroup backup = true
    · rw [List.filter_cons, if_pos hin, if_pos hin, if_pos hin, List.length_cons, Backend.weights,
        Backend.weights, List.map_cons, List.sum_cons, UInt32.ofNat_add, Backend.weightOf,
        UInt32.ofNat_toNat]
      refine ⟨?_, rfl⟩
      push_cast
      exact Int.add_comm _ _
    · rw [List.filter_cons, if_neg hin, if_neg hin, if_neg hin]
      exact ⟨Int.zero_add _, UInt32.zero_add _⟩

theorem census_usable (b : Backend ι L) (backup : Bool) :
    headcount b.nextStandings backup b.px.srvs = (b.usable backup).length ∧
      weight b.nextStandings backup b.px.srvs = .ofNat (b.weights (b.usable backup)) :=
  census_filter b backup b.px.srvs

variable [DecidableEq ι]

/-! ### What the recount says -/

/-- The backend with its totals recounted. -/
def Backend.recounted (b : Backend ι L) : Backend ι L := updateBackendWeight (recountServers b)

theorem onlyCounts_recounted (b : Backend ι L) : OnlyCounts b b.recounted := by
  have h := onlyCounts_recountServers b
  obtain ⟨w, u, heq⟩ := updateBackendWeight_eq (recountServers b)
  rw [Backend.recounted, heq]
  exact ⟨h.srv, h.srvs, h.useAllBk, h.lb⟩

theorem recounted_srv (b : Backend ι L) (i : ι) :
    (b.recounted.srv i).backup = (b.srv i).backup ∧
      (b.recounted.srv i).willbeUsable = (b.srv i).willbeUsable ∧
      (b.recounted.srv i).nextEweight = (b.srv i).nextEweight := by
  rw [(onlyCounts_recounted b).srv i]
  exact ⟨rfl, rfl, rfl⟩

theorem recounted_usable (b : Backend ι L) (backup : Bool) :
    b.recounted.usable backup = b.usable backup := by
  rw [Backend.usable, Backend.usable, (onlyCounts_recounted b).srvs]
  apply List.filter_congr
  intro i _
  obtain ⟨hbackup, husable, -⟩ := recounted_srv b i
  rw [Server.inGroup, Server.inGroup, hbackup, husable]

theorem recounted_srvAct (b : Backend ι L) : b.recounted.px.srvAct = (b.usable false).length :=
  (congrArg Tally.srvAct (tally_recountServers b)).trans (census_usable b false).1

theorem srvAct_eq_zero_iff (b : Backend ι L) : b.recounted.px.srvAct = 0 ↔ b.usable false = [] := by
  rw [recounted_srvAct, Int.natCast_eq_zero, List.length_eq_zero_iff]

theorem recounted_group (b : Backend ι L) (h : b.usable false ≠ [] ∨ b.px.useAllBk = true) :
    b.recounted.px.totWeight = .ofNat (b.weights b.participants) ∧
      b.recounted.px.totUsed = b.participants.length := by
  have htally := tally_recountServers b
  have hweight : b.recounted.px.totWeight = _ := congrArg Tally.totWeight htally
  have hused : b.recounted.px.totUsed = _ := congrArg Tally.totUsed htally
  rw [hweight, hused, Backend.participants]
  obtain ⟨hact, hwact⟩ := census_usable b false
  obtain ⟨hbck, hwbck⟩ := census_usable b true
  unfold census
  dsimp only
  by_cases hempty : b.usable false = []
  · have hzero : headcount b.nextStandings false b.px.srvs = 0 := by
      rw [hact]
      exact congrArg (fun l : List ι => (l.length : ℤ)) hempty
    have hfirst : firstBackup b.nextStandings b.px.useAllBk b.px.srvs = none := by
      rw [firstBackup, if_pos (h.resolve_left (not_not.mpr hempty))]
    rw [hzero, hfirst, if_neg (not_not.mpr rfl), if_neg (not_not.mpr rfl), if_pos hempty]
    exact ⟨hwbck, hbck⟩
  · have hne : headcount b.nextStandings false b.px.srvs ≠ 0 := by
      rw [hact]
      exact fun hzero => hempty (List.length_eq_zero_iff.mp (Int.natCast_eq_zero.mp hzero))
    rw [if_pos hne, if_pos hne, if_neg hempty]
    exact ⟨hwact, hact⟩

/-! ### Shares -/

theorem ofInt_natCast (n : ℕ) : UInt32.ofInt n = .ofNat n := by
  have hmod : ((n : ℤ) % 2 ^ 32).toNat = n % 2 ^ 32 := by omega
  rw [UInt32.ofInt, hmod, UInt32.ofNat_mod_size]

/-- The number of slots among the first `n` that belong to `i`. -/
def LbMap.given (m : LbMap ι) (i : ι) (n : ℕ) : ℕ := (List.range n).countP fun o => m.srv o = some i

section Shares

variable {srv : ι → Server} {cands : List ι} {tot : UInt32} {m : LbMap ι} {c i : ι}

theorem given_eq_turns (hnodup : cands.Nodup) (hc : c ∈ cands) {N : ℕ} (h : n ≤ N) (i : ι) :
    (mapRun srv cands tot m N).given i n = Quota.turns (slotPick srv cands tot m c) i n := by
  induction n with
  | zero => rfl
  | succ n ih =>
    have hslot : (mapRun srv cands tot m N).srv n = some (slotPick srv cands tot m c n) :=
      (slot_stable h).trans (slot_eq_some srv tot m hnodup hc n).1
    have hgiven : (mapRun srv cands tot m N).given i n = _ := ih (Nat.le_of_succ_le h)
    rw [LbMap.given] at hgiven ⊢
    rw [List.range_succ, List.countP_append, hgiven, Quota.turns_succ, List.countP_singleton, hslot]
    simp only [Option.some.injEq, decide_eq_true_eq]

/-- The total is that of the candidates, the scores start from 0 and they fit in 32 bits. -/
structure MapFits (srv : ι → Server) (cands : List ι) (tot : UInt32) (m : LbMap ι) : Prop where
  nodup : cands.Nodup
  pos : ∀ i ∈ cands, 0 < (srv i).nextEweight.toNat
  total : tot.toNat = ∑ i ∈ cands.toFinset, (srv i).nextEweight.toNat
  fits : ∀ i ∈ cands, tot.toNat * ((srv i).nextEweight.toNat + 1) < 2 ^ 32
  start : ∀ i ∈ cands, m.wscore i = 0

namespace MapFits

theorem gained_lt (h : MapFits srv cands tot m) (hi : i ∈ cands) (hn : n ≤ tot.toNat) :
    n * (srv i).nextEweight.toNat + tot.toNat < 2 ^ 32 := by
  have hle : n * (srv i).nextEweight.toNat ≤ tot.toNat * (srv i).nextEweight.toNat :=
    Nat.mul_le_mul_right _ hn
  have hfits := h.fits i hi
  rw [Nat.mul_add, Nat.mul_one] at hfits
  omega

theorem mapValue_run (h : MapFits srv cands tot m) (htot : tot ≠ 1) (hc : c ∈ cands)
    (hn : n < tot.toNat)
    (hbefore : ∀ m' < n, Quota.Highest cands.toFinset (fun i => (srv i).nextEweight.toNat)
      (slotPick srv cands tot m c) m') (hi : i ∈ cands) :
    ((mapValue srv tot (mapRun srv cands tot m n).wscore i).toNat : ℤ) =
      Quota.score cands.toFinset (fun i => (srv i).nextEweight.toNat)
        (slotPick srv cands tot m c) i n / tot.toNat + 1 := by
  have hpos : 0 < tot.toNat := Nat.lt_of_le_of_lt (Nat.zero_le n) hn
  have hturns := Quota.turns_le hbefore (h.total ▸ hpos) i
  rw [← h.total] at hturns
  have hrun := wscore_run srv h.nodup htot hc hi (h.start i hi) n
  have hlt := h.gained_lt hi hn
  rw [Quota.score, ← h.total]
  rw [mapValue, UInt32.toNat_div]
  generalize Quota.turns (slotPick srv cands tot m c) i n = turns at hturns hrun ⊢
  generalize (mapRun srv cands tot m n).wscore i = wscore at hrun ⊢
  have hsum : wscore + (srv i).nextEweight + tot + .ofNat (tot.toNat * turns) =
      .ofNat ((n + 1) * (srv i).nextEweight.toNat + tot.toNat) := by
    rw [Nat.succ_mul, UInt32.ofNat_add, UInt32.ofNat_add, ← hrun, UInt32.ofNat_toNat,
      UInt32.ofNat_toNat]
    abel
  have hle : tot.toNat * turns ≤ (n + 1) * (srv i).nextEweight.toNat + tot.toNat := by
    rw [Nat.succ_mul]
    omega
  rw [toNat_of_add_eq hsum hle hlt, Int.natCast_ediv, Int.ofNat_sub hle,
    ← Int.add_mul_ediv_right _ _ (Int.natCast_ne_zero.mpr hpos.ne')]
  congr 1
  push_cast
  ring

/-- **The slots are given by the highest level.** -/
theorem highest (h : MapFits srv cands tot m) (htot : tot ≠ 1) (hc : c ∈ cands)
    (hn : n < tot.toNat) :
    Quota.Highest cands.toFinset (fun i => (srv i).nextEweight.toNat)
      (slotPick srv cands tot m c) n := by
  induction n using Nat.strong_induction_on with
  | h n ih =>
    have hvalue {i : ι} (hi : i ∈ cands) := h.mapValue_run htot hc hn
      (fun m' hm' => ih m' hm' (Nat.lt_trans hm' hn)) hi
    obtain ⟨hslot, hmem⟩ := slot_eq_some srv tot m h.nodup hc n
    rw [slot_eq h.nodup htot] at hslot
    refine ⟨List.mem_toFinset.mpr hmem, fun j hj => ?_⟩
    have hle := List.le_of_mem_argmax (List.mem_toFinset.mp hj) hslot
    have hle' := Int.ofNat_le.mpr hle
    rw [hvalue (List.mem_toFinset.mp hj), hvalue hmem] at hle'
    rw [← h.total]
    exact Int.le_of_add_le_add_right hle'

theorem eq_singleton (h : MapFits srv cands 1 m) (hc : c ∈ cands) :
    cands = [c] ∧ (srv c).nextEweight.toNat = 1 := by
  have hcard : cands.toFinset.card ≤ ∑ i ∈ cands.toFinset, (srv i).nextEweight.toNat := by
    rw [Finset.card_eq_sum_ones]
    exact Finset.sum_le_sum fun i hi => h.pos i (List.mem_toFinset.mp hi)
  rw [← h.total, List.toFinset_card_of_nodup h.nodup] at hcard
  obtain ⟨i, rfl⟩ := List.length_eq_one_iff.mp
    (Nat.le_antisymm hcard (List.length_pos_of_mem hc))
  obtain rfl := List.mem_singleton.mp hc
  refine ⟨rfl, ?_⟩
  have htotal := h.total
  rw [List.toFinset_cons, List.toFinset_nil, insert_empty_eq, Finset.sum_singleton] at htotal
  exact htotal.symm

theorem given_eq (h : MapFits srv cands tot m) (hi : i ∈ cands) :
    (mapRun srv cands tot m tot.toNat).given i tot.toNat = (srv i).nextEweight.toNat := by
  by_cases htot : tot = 1
  · subst htot
    obtain ⟨rfl, hone⟩ := h.eq_singleton hi
    have hslot : (mapRun srv [i] 1 m (0 + 1)).srv 0 = some i := slot_one 0
    rw [hone]
    show (List.range 1).countP (fun o => (mapRun srv [i] 1 m 1).srv o = some i) = 1
    rw [List.range_one, List.countP_singleton, hslot]
    simp
  · rw [given_eq_turns h.nodup hi (Nat.le_refl _), h.total]
    refine Quota.turns_eq (fun n hn => h.highest htot hi (h.total ▸ hn)) (fun j hj => ?_)
      (List.mem_toFinset.mpr hi)
    exact h.pos j (List.mem_toFinset.mp hj)

/-- The scores are those of the integers, and none falls below the total. -/
theorem wscore_eq (h : MapFits srv cands tot m) (hi : i ∈ cands) (hn : n ≤ tot.toNat) :
    (mapRun srv cands tot m n).wscore i = .ofInt
      ((if tot = 1 then 0 else n * (srv i).nextEweight.toNat) -
        tot.toNat * (mapRun srv cands tot m n).given i n) ∧
    -(tot.toNat : ℤ) ≤ (if tot = 1 then 0 else n * (srv i).nextEweight.toNat) -
      tot.toNat * (mapRun srv cands tot m n).given i n := by
  by_cases htot : tot = 1
  · subst htot
    obtain ⟨rfl, -⟩ := h.eq_singleton hi
    have hstart := h.start i hi
    rw [if_pos rfl]
    cases n with
    | zero => exact ⟨hstart, (by decide : -(1 : ℤ) ≤ 0 - 1 * (0 : ℕ))⟩
    | succ n =>
      obtain rfl : n = 0 := Nat.le_zero.mp (Nat.le_of_succ_le_succ hn)
      have hslot : (mapRun srv [i] 1 m (0 + 1)).srv 0 = some i := slot_one 0
      have hgiven : (mapRun srv [i] 1 m (0 + 1)).given i 1 = 1 := by
        rw [LbMap.given, List.range_one, List.countP_singleton, hslot]
        simp
      rw [hgiven, mapRun_succ, mapFill]
      refine ⟨?_, by decide⟩
      show Function.update m.wscore i (m.wscore i - 1) i = _
      rw [Function.update_self, hstart]
      rfl
  · rw [if_neg htot, given_eq_turns h.nodup hi (Nat.le_refl n)]
    have hrun := wscore_run srv h.nodup htot hi hi (h.start i hi) n
    have hpos : 0 < tot.toNat := by
      rw [h.total]
      exact Finset.sum_pos (fun j hj => h.pos j (List.mem_toFinset.mp hj))
        ⟨i, List.mem_toFinset.mpr hi⟩
    have hturns := Quota.turns_le (fun n' hn' => h.highest htot hi (Nat.lt_of_lt_of_le hn' hn))
      (h.total ▸ hpos) i
    rw [← h.total] at hturns
    generalize Quota.turns (slotPick srv cands tot m i) i n = turns at hrun hturns ⊢
    generalize (mapRun srv cands tot m n).wscore i = wscore at hrun ⊢
    constructor
    · have hdiff : UInt32.ofInt ((n * (srv i).nextEweight.toNat : ℕ) - tot.toNat * turns) =
          .ofNat (n * (srv i).nextEweight.toNat) - .ofNat (tot.toNat * turns) := by
        rw [sub_eq_add_neg, UInt32.ofInt_add, UInt32.ofInt_neg, ← Int.natCast_mul,
          ofInt_natCast, ofInt_natCast]
        abel
      rw [hdiff, ← hrun]
      abel
    · have hcast := Int.ofNat_le.mpr hturns
      push_cast at hcast ⊢
      linarith

end MapFits

end Shares

/-! ### The whole map -/

/-- The map and the scores of `recalc_server_map` once it has filled `n` slots. -/
def Backend.mapAfter (b : Backend ι (LbMap ι)) (n : ℕ) : LbMap ι :=
  mapRun b.srv (b.usable (decide (b.px.srvAct = 0))) b.px.totWeight
    { b.px.lb with wscore := fun i => if i ∈ b.px.srvs then 0 else b.px.lb.wscore i } n

theorem recalcServerMap_eq {b : Backend ι (LbMap ι)} (h : b.px.totUsed ≠ 0) :
    recalcServerMap b = b.setLb (b.mapAfter b.px.totWeight.toNat) :=
  if_neg h

/-- The score of `i` as an integer, once `n` slots are filled: with each slot it has gained its
weight (nothing if there is just one slot), and it has paid the total for each of its own. -/
def Backend.mapScore (b : Backend ι (LbMap ι)) (i : ι) (n : ℕ) : ℤ :=
  (if b.px.totWeight = 1 then 0 else n * (b.srv i).nextEweight.toNat) -
    b.px.totWeight.toNat * (b.mapAfter n).given i n

/-- Every slot belongs to a participant and every participant has as many slots as its weight;
no score falls below the total on the way. -/
structure ExactMap (b : Backend ι (LbMap ι)) : Prop where
  slots : ∀ o < b.recounted.px.totWeight.toNat,
    ∃ i ∈ b.participants, (recalcServerMap b.recounted).px.lb.srv o = some i
  shares : ∀ i ∈ b.participants, (recalcServerMap b.recounted).px.lb.given i
    b.recounted.px.totWeight.toNat = b.weightOf i
  scores : ∀ i ∈ b.participants, ∀ n ≤ b.recounted.px.totWeight.toNat,
    (b.recounted.mapAfter n).wscore i = .ofInt (b.recounted.mapScore i n) ∧
      -(b.recounted.px.totWeight.toNat : ℤ) ≤ b.recounted.mapScore i n

theorem weights_eq_sum (b : Backend ι L) {l : List ι} (h : l.Nodup) :
    b.weights l = ∑ i ∈ l.toFinset, b.weightOf i :=
  (List.sum_toFinset b.weightOf h).symm

theorem candidates_eq (b : Backend ι (LbMap ι)) :
    b.recounted.usable (decide (b.recounted.px.srvAct = 0)) = b.participants := by
  rw [recounted_usable, Backend.participants]
  by_cases hempty : b.usable false = []
  · rw [if_pos hempty, decide_eq_true ((srvAct_eq_zero_iff b).mpr hempty)]
  · rw [if_neg hempty, decide_eq_false fun h => hempty ((srvAct_eq_zero_iff b).mp h)]

omit [DecidableEq ι] in
theorem participants_subset (b : Backend ι L) {i : ι} (h : i ∈ b.participants) : i ∈ b.px.srvs := by
  rw [Backend.participants] at h
  split_ifs at h
  · exact (mem_usable.mp h).1
  · exact (mem_usable.mp h).1

theorem toNat_recounted (b : Backend ι L) (i : ι) :
    (b.recounted.srv i).nextEweight.toNat = b.weightOf i := by
  rw [(recounted_srv b i).2.2]
  rfl

theorem toNat_totWeight (hgroup : b.usable false ≠ [] ∨ b.px.useAllBk = true)
    (hfits : ∀ i ∈ b.participants, b.weights b.participants * (b.weightOf i + 1) < 2 ^ 32) :
    b.recounted.px.totWeight.toNat = b.weights b.participants := by
  rw [(recounted_group b hgroup).1]
  by_cases hnil : b.participants = []
  · rw [hnil]
    rfl
  · obtain ⟨c, hc⟩ := List.exists_mem_of_ne_nil _ hnil
    have hlt : b.weights b.participants < 2 ^ 32 :=
      Nat.lt_of_le_of_lt (Nat.le_mul_of_pos_right _ (Nat.succ_pos _)) (hfits c hc)
    exact UInt32.toNat_ofNat_of_lt' hlt

theorem mapFits_recounted {b : Backend ι (LbMap ι)}
    (hgroup : b.usable false ≠ [] ∨ b.px.useAllBk = true)
    (hfits : ∀ i ∈ b.participants, b.weights b.participants * (b.weightOf i + 1) < 2 ^ 32) :
    MapFits b.recounted.srv b.participants b.recounted.px.totWeight
      { b.recounted.px.lb with wscore := fun i => if i ∈ b.recounted.px.srvs then 0
                                                  else b.recounted.px.lb.wscore i } := by
  have htotal := toNat_totWeight hgroup hfits
  refine ⟨nodup_participants b, fun i hi => ?_, ?_, fun i hi => ?_, fun i hi => ?_⟩
  · rw [toNat_recounted]
    exact weightOf_pos_of_participant hi
  · rw [htotal, weights_eq_sum b (nodup_participants b)]
    exact Finset.sum_congr rfl fun i _ => (toNat_recounted b i).symm
  · rw [htotal, toNat_recounted]
    exact hfits i hi
  · rw [(onlyCounts_recounted b).srvs]
    exact if_pos (participants_subset b hi)

/-- **The static map is exact** for every list of servers whose scores fit in 32 bits. -/
theorem recalcServerMap_exact (b : Backend ι (LbMap ι))
    (hgroup : b.usable false ≠ [] ∨ b.px.useAllBk = true)
    (hfits : ∀ i ∈ b.participants, b.weights b.participants * (b.weightOf i + 1) < 2 ^ 32) :
    ExactMap b := by
  obtain ⟨hweight, hused⟩ := recounted_group b hgroup
  by_cases hnil : b.participants = []
  · -- without participants there is nothing to show
    have hzero : b.recounted.px.totWeight.toNat = 0 := by
      rw [hweight, hnil]
      rfl
    constructor
    · intro o ho
      rw [hzero] at ho
      exact absurd ho (Nat.not_lt_zero o)
    · intro i hi
      rw [hnil] at hi
      exact absurd hi List.not_mem_nil
    · intro i hi
      rw [hnil] at hi
      exact absurd hi List.not_mem_nil
  · obtain ⟨c, hc⟩ := List.exists_mem_of_ne_nil _ hnil
    have hfit := mapFits_recounted hgroup hfits
    have hrun : recalcServerMap b.recounted =
        b.recounted.setLb (b.recounted.mapAfter b.recounted.px.totWeight.toNat) := by
      apply recalcServerMap_eq
      rw [hused]
      exact Int.natCast_ne_zero.mpr (mt List.length_eq_zero_iff.mp hnil)
    have hcands := candidates_eq b
    constructor
    · intro o ho
      obtain ⟨hslot, hmem⟩ := slot_eq_some b.recounted.srv b.recounted.px.totWeight
        { b.recounted.px.lb with wscore := fun i => if i ∈ b.recounted.px.srvs then 0
                                                    else b.recounted.px.lb.wscore i }
        hfit.nodup hc o
      refine ⟨_, hmem, ?_⟩
      rw [hrun]
      show (b.recounted.mapAfter _).srv o = _
      rw [Backend.mapAfter, hcands]
      exact (slot_stable ho).trans hslot
    · intro i hi
      rw [hrun]
      show (b.recounted.mapAfter _).given i _ = _
      rw [Backend.mapAfter, hcands, hfit.given_eq hi]
      exact toNat_recounted b i
    · intro i hi n hn
      rw [Backend.mapScore, Backend.mapAfter, hcands]
      exact hfit.wscore_eq hi hn

/-! ### Examples -/

/-- A server that is up, with weight `w`. -/
def weighted (w : UInt32) (backup : Bool) : Server :=
  { serverS1 with backup := backup, nextEweight := w }

def mapBackend (srvs : List ι) (h : srvs.Nodup) (srv : ι → Server) : Backend ι (LbMap ι) where
  srv := srv
  px := (newProxy srvs h).withLb ⟨fun _ => none, fun _ => 0⟩

/-- Two active servers, with the weights 1 and 3. -/
def oneAndThree : Backend Bool (LbMap Bool) :=
  mapBackend [false, true] nodup_falseTrue fun i => weighted (if i then 3 else 1) false

theorem recalcServerMap_exact_two :
    (oneAndThree.usable false ≠ [] ∧ ∀ i ∈ oneAndThree.participants,
      oneAndThree.weights oneAndThree.participants * (oneAndThree.weightOf i + 1) < 2 ^ 32) ∧
    ExactMap oneAndThree := by
  have hact : oneAndThree.usable false ≠ [] := by decide
  have hfits : ∀ i ∈ oneAndThree.participants,
      oneAndThree.weights oneAndThree.participants * (oneAndThree.weightOf i + 1) < 2 ^ 32 := by
    decide
  exact ⟨⟨hact, hfits⟩, recalcServerMap_exact oneAndThree (.inl hact) hfits⟩

/-- `n` active servers of the highest weight. -/
def fullWeights (n : ℕ) : Backend ℕ (LbMap ℕ) :=
  mapBackend (List.range n) List.nodup_range fun _ => weighted 256 false

theorem usable_fullWeights (n : ℕ) : (fullWeights n).usable false = List.range n := by
  have hin (i : ℕ) : ((fullWeights n).srv i).inGroup false = true := by
    show (weighted 256 false).inGroup false = true
    decide
  exact List.filter_eq_self.mpr fun i _ => hin i

theorem not_exactMap_fullWeights (hpos : 0 < n) (hwrap : n * 256 % 2 ^ 32 = 0) :
    ¬ ExactMap (fullWeights n) := by
  intro h
  have hmem : 0 ∈ (fullWeights n).participants := by
    rw [Backend.participants, usable_fullWeights, if_neg]
    · exact List.mem_range.mpr hpos
    · exact List.ne_nil_of_mem (List.mem_range.mpr hpos)
  have hne : (fullWeights n).usable false ≠ [] := by
    rw [usable_fullWeights]
    exact List.ne_nil_of_mem (List.mem_range.mpr hpos)
  have hparts : (fullWeights n).participants = List.range n := by
    rw [Backend.participants, if_neg hne, usable_fullWeights]
  have hweights : (fullWeights n).weights (List.range n) = n * 256 := by
    have hconst : (List.range n).map (fullWeights n).weightOf = List.replicate n 256 := by
      refine List.eq_replicate_iff.mpr ⟨by simp, fun w hw => ?_⟩
      obtain ⟨i, -, rfl⟩ := List.mem_map.mp hw
      rfl
    rw [Backend.weights, hconst, List.sum_replicate_nat]
  have hzero : (fullWeights n).recounted.px.totWeight.toNat = 0 := by
    rw [(recounted_group _ (.inl hne)).1, hparts, hweights, UInt32.toNat_ofNat']
    exact hwrap
  have hshare := h.shares 0 hmem
  rw [hzero] at hshare
  exact absurd hshare (by decide : ¬ 0 = 256)

/-- Sixteen million servers of the highest weight have no slot at all. -/
theorem not_recalcServerMap_exact :
    ¬ ∀ b : Backend ℕ (LbMap ℕ), b.usable false ≠ [] ∨ b.px.useAllBk = true →
      (∀ i ∈ b.participants, b.weightOf i ≤ 256) → ExactMap b := by
  intro h
  have hpos : 0 < 2 ^ 24 := Nat.two_pow_pos 24
  refine not_exactMap_fullWeights hpos (by decide) (h (fullWeights (2 ^ 24)) (.inl ?_) ?_)
  · rw [usable_fullWeights]
    exact List.ne_nil_of_mem (List.mem_range.mpr hpos)
  · exact fun _ _ => Nat.le_refl 256

end SmartHAProxy
