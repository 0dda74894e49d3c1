/-
Consistent hashing with bounded loads: is there always a server with a free slot (lb_chash.c)?

`chash_server_is_eligible` gives each server a share of all slots.  What the
whole number of slots for a unit of weight leaves over is shared by the
intervals that the cumulative weights and the weights make.  The shares add up
to all slots while these intervals are piled up (`Piled`), which they are when
`recount_servers` has just been called; the callbacks do not call it.

Main results: `groupsPiled_run` and `chash_hasRoom`.
-/
import SmartHAProxy.Lb.Group
import SmartHAProxy.Lb.Random
import SmartHAProxy.Lib.Pile

namespace SmartHAProxy

variable {s : Server} {heap : List Bool}

universe u

variable {ι : Type u} {L : Type*}
variable {l : List ι} {i : ι} {b₀ : Backend ι (Chash ι)} {track : ι → Option ι}

/-! ### Slots -/

/-- `slots` of `chash_server_is_eligible`. -/
def chashSlots (px : Proxy ι L) (s : Server) : UInt32 :=
  let totSlots := UInt32.ofInt (((px.served + 1) * px.hashBalanceFactor + 99).tdiv 100)
  let slotsPerWeight := totSlots / px.totWeight
  let remainder := totSlots % px.totWeight
  let slots := s.curEweight * slotsPerWeight +
    ((s.cumulativeWeight + s.curEweight) * remainder / px.totWeight -
      s.cumulativeWeight * remainder / px.totWeight)
  if slots = 0 then 1 else slots

theorem chashServerIsEligible_iff (px : Proxy ι L) (s : Server) :
    chashServerIsEligible px s = true ↔ s.served < chashSlots px s :=
  decide_eq_true_iff

namespace Backend

variable (b : Backend ι L)

/-- The usable servers that requests go to: the active ones, else the first
backup server or all of them. -/
def inUse : List ι :=
  if b.px.srvAct ≠ 0 then b.members false
  else match b.px.fbck with
    | some i => [i]
    | none => b.members true

/-- The cumulative weight of a server, as a number. -/
def cumulative (i : ι) : ℕ := (b.srv i).cumulativeWeight.toNat

/-- `tot_slots`, as a number. -/
def totSlots : ℕ := (((b.px.served + 1) * b.px.hashBalanceFactor + 99) / 100).toNat

/-- Nothing that `chash_server_is_eligible` computes wraps around. -/
structure NoWrap : Prop where
  slots : (b.px.served + 1) * b.px.hashBalanceFactor + 99 < 2 ^ 31
  weight : (b.inUse.map b.eweight).sum < 2 ^ 32
  share : ∀ i ∈ b.inUse,
    (b.cumulative i + b.eweight i) * (b.totSlots % (b.inUse.map b.eweight).sum) < 2 ^ 32

/-- There are more slots than requests, and a server has a free one: for a
balance factor of 100 at least, if the servers in use serve all requests. -/
def HasRoom : Prop :=
  100 ≤ b.px.hashBalanceFactor → b.px.totWeight ≠ 0 →
    ((b.inUse.map fun i => (b.srv i).served.toNat).sum : ℤ) = b.px.served →
    b.px.served + 1 ≤ ((b.inUse.map fun i => (chashSlots b.px (b.srv i)).toNat).sum : ℤ) ∧
      ∃ i ∈ b.inUse, chashServerIsEligible b.px (b.srv i) = true

end Backend

/-! ### The slots of a server -/

/-- The arithmetic of `chash_server_is_eligible`, in numbers. -/
theorem toNat_slots {tot W w c : UInt32} (hw : w.toNat ≤ W.toNat)
    (hshare : (c.toNat + w.toNat) * (tot.toNat % W.toNat) < 2 ^ 32) :
    (w * (tot / W) + ((c + w) * (tot % W) / W - c * (tot % W) / W)).toNat =
      w.toNat * (tot.toNat / W.toNat) +
        ((c.toNat + w.toNat) * (tot.toNat % W.toNat) / W.toNat -
          c.toNat * (tot.toNat % W.toNat) / W.toNat) := by
  have hlt := tot.toNat_lt
  have hwhole : w.toNat * (tot.toNat / W.toNat) ≤ W.toNat * (tot.toNat / W.toNat) :=
    Nat.mul_le_mul_right _ hw
  have hsplit := Nat.div_add_mod tot.toNat W.toNat
  have hrest : (c.toNat + w.toNat) * (tot.toNat % W.toNat) / W.toNat -
      c.toNat * (tot.toNat % W.toNat) / W.toNat ≤ tot.toNat % W.toNat :=
    show Piled.share (fun _ : Unit => w.toNat) (fun _ => c.toNat) W.toNat
      (tot.toNat % W.toNat) () ≤ _ from Piled.share_le_of_le hw
  have hq : (w * (tot / W)).toNat = w.toNat * (tot.toNat / W.toNat) := by
    rw [UInt32.toNat_mul, UInt32.toNat_div]
    exact Nat.mod_eq_of_lt (by omega)
  have hle : c.toNat * (tot.toNat % W.toNat) ≤ (c.toNat + w.toNat) * (tot.toNat % W.toNat) :=
    Nat.mul_le_mul_right _ (Nat.le_add_right _ _)
  have hlow : (c * (tot % W)).toNat = c.toNat * (tot.toNat % W.toNat) := by
    rw [UInt32.toNat_mul, UInt32.toNat_mod]
    exact Nat.mod_eq_of_lt (Nat.lt_of_le_of_lt hle hshare)
  have hhigh : ((c + w) * (tot % W)).toNat = (c.toNat + w.toNat) * (tot.toNat % W.toNat) := by
    rw [UInt32.toNat_mul, UInt32.toNat_mod, UInt32.toNat_add]
    rcases Nat.eq_zero_or_pos (tot.toNat % W.toNat) with hzero | hpos
    · rw [hzero]
      rfl
    · have hsum : c.toNat + w.toNat < 2 ^ 32 :=
        Nat.lt_of_le_of_lt (Nat.le_mul_of_pos_right _ hpos) hshare
      rw [Nat.mod_eq_of_lt hsum]
      exact Nat.mod_eq_of_lt hshare
  have hsub : c * (tot % W) / W ≤ (c + w) * (tot % W) / W := by
    rw [UInt32.le_iff_toNat_le, UInt32.toNat_div, UInt32.toNat_div, hlow, hhigh]
    exact Nat.div_le_div_right hle
  rw [UInt32.toNat_add, hq, UInt32.toNat_sub_of_le _ _ hsub, UInt32.toNat_div, UInt32.toNat_div,
    hlow, hhigh]
  exact Nat.mod_eq_of_lt (by omega)

theorem le_chashSlots {px : Proxy ι L} {T : ℕ}
    (hT : (UInt32.ofInt (((px.served + 1) * px.hashBalanceFactor + 99).tdiv 100)).toNat = T)
    (hw : s.curEweight.toNat ≤ px.totWeight.toNat)
    (hshare : (s.cumulativeWeight.toNat + s.curEweight.toNat) * (T % px.totWeight.toNat) < 2 ^ 32) :
    s.curEweight.toNat * (T / px.totWeight.toNat) +
        ((s.cumulativeWeight.toNat + s.curEweight.toNat) * (T % px.totWeight.toNat) /
          px.totWeight.toNat - s.cumulativeWeight.toNat * (T % px.totWeight.toNat) /
          px.totWeight.toNat) ≤ (chashSlots px s).toNat := by
  subst hT
  rw [← toNat_slots hw hshare, chashSlots]
  split_ifs with hzero
  · rw [hzero]
    decide
  · exact Nat.le_refl _

/-- The servers in use, of a backend whose intervals are piled up, share all slots. -/
theorem Backend.hasRoom_of_piled {b : Backend ι L} (hwrap : b.NoWrap)
    (hW : b.px.totWeight.toNat = (b.inUse.map b.eweight).sum)
    (hpile : ∃ a l, List.Perm l b.inUse ∧ Piled b.eweight b.cumulative a l) : b.HasRoom := by
  intro hfactor hpos hserved
  obtain ⟨a, l, hperm, hpiled⟩ := hpile
  have hnonneg : 0 ≤ b.px.served := by
    rw [← hserved]
    exact Int.natCast_nonneg _
  -- the number of slots exceeds the number of requests
  have hslots : b.px.served + 1 ≤ ((b.px.served + 1) * b.px.hashBalanceFactor + 99) / 100 := by
    have hmul : (b.px.served + 1) * 100 ≤ (b.px.served + 1) * b.px.hashBalanceFactor :=
      Int.mul_le_mul_of_nonneg_left hfactor (by omega)
    omega
  have hT : (UInt32.ofInt (((b.px.served + 1) * b.px.hashBalanceFactor + 99).tdiv 100)).toNat =
      b.totSlots := by
    have hsmall := hwrap.slots
    rw [UInt32.ofInt, Int.tdiv_eq_ediv_of_nonneg (by omega),
      Int.emod_eq_of_lt (by omega) (by omega), UInt32.toNat_ofNat_of_lt' _]
    · rfl
    · show _ < 2 ^ 32
      omega
  have hWpos : 0 < (b.inUse.map b.eweight).sum := by
    rw [← hW]
    exact Nat.pos_of_ne_zero fun hzero => hpos (UInt32.toNat_inj.mp hzero)
  have hweight := (hperm.map b.eweight).sum_eq
  have hsum := hpiled.sum_slots hweight hWpos b.totSlots
  rw [((hperm.map _).sum_eq : _ = (b.inUse.map _).sum)] at hsum
  have hall : b.totSlots ≤ (b.inUse.map fun i => (chashSlots b.px (b.srv i)).toNat).sum := by
    rw [← hsum]
    apply List.sum_le_sum
    intro i hi
    have hi_le : b.eweight i ≤ (b.inUse.map b.eweight).sum :=
      List.single_le_sum (fun _ _ => Nat.zero_le _) _ (List.mem_map_of_mem hi)
    rw [← hW] at hi_le ⊢
    have hshare := hwrap.share i hi
    rw [← hW] at hshare
    exact le_chashSlots hT hi_le hshare
  have hnum : (b.totSlots : ℤ) = ((b.px.served + 1) * b.px.hashBalanceFactor + 99) / 100 :=
    Int.toNat_of_nonneg (by omega)
  refine ⟨by omega, ?_⟩
  -- otherwise no server serves less than its slots, and all requests fill them
  by_contra hnone
  have hfull : (b.inUse.map fun i => (chashSlots b.px (b.srv i)).toNat).sum ≤
      (b.inUse.map fun i => (b.srv i).served.toNat).sum := by
    apply List.sum_le_sum
    intro i hi
    by_contra hlt
    refine hnone ⟨i, hi, (chashServerIsEligible_iff _ _).mpr ?_⟩
    exact UInt32.lt_iff_toNat_lt.mpr (Nat.lt_of_not_le hlt)
  omega

/-! ### The total weight -/

variable [DecidableEq ι]

/-- **`tot_weight` is the weight of the servers in use**, in a balanced backend. -/
theorem Balanced.toNat_totWeight {Synced : (ι → Standing) → L → UInt32 → UInt32 → Prop}
    {b : Backend ι L} (h : Balanced Synced l b) (hlt : (b.inUse.map b.eweight).sum < 2 ^ 32) :
    b.px.totWeight.toNat = (b.inUse.map b.eweight).sum := by
  obtain rfl := h.srvs
  have hst (i : ι) (hi : i ∈ b.px.srvs) : b.nextStandings i = (b.srv i).curStanding :=
    (h.settled i hi).symm
  have htot := congrArg Tally.totWeight h.tally
  have hact := congrArg Tally.srvAct h.tally
  have hfbck := congrArg Tally.fbck h.tally
  simp only [census, Proxy.tally] at htot hact hfbck
  rw [htot, ← hact, ← hfbck]
  unfold Backend.inUse at hlt ⊢
  split_ifs at hlt ⊢ with hsrv
  · rw [toNat_weight false _ hst]
    exact Nat.mod_eq_of_lt hlt
  · rcases hf : b.px.fbck with - | i
    · simp only [hf] at hlt
      show (weight b.nextStandings true b.px.srvs).toNat = _
      rw [toNat_weight true _ hst]
      exact Nat.mod_eq_of_lt hlt
    · -- the first backup server stands alone
      rw [hf] at hfbck
      have hbackup := isBackup_of_firstBackup hfbck.symm
      have hi : i ∈ b.px.srvs := by
        rw [firstBackup] at hfbck
        split_ifs at hfbck
        exact List.mem_of_find?_eq_some hfbck.symm
      have hnext := nextStanding_eq_of_isBackup hbackup
      have hcur := (h.settled i hi).trans hnext
      have husable : (b.srv i).currentlyUsable = true := by
        by_contra hu
        rw [Server.curStanding_of_not_usable (by simpa using hu)] at hcur
        cases hcur
      rw [Server.curStanding_of_usable husable] at hcur
      have hweight := congrArg Prod.snd (Option.some.inj hcur)
      show (wgt true (b.srv i).nextStanding).toNat = b.eweight i + 0
      rw [hnext]
      exact congrArg UInt32.toNat hweight.symm

/-! ### Steps -/

/-- The intervals of the usable servers of each group are piled up. -/
def Backend.GroupsPiled (b : Backend ι L) : Prop :=
  ∀ backup, ∃ l, List.Perm l (b.members backup) ∧ Piled b.eweight b.cumulative 0 l

/-- A server whose weight or usability changes stands on top of its group: its
cumulative weight is the weight of the other usable servers. -/
def OnTop (b b' : Backend ι L) : Prop :=
  ∀ i ∈ b.px.srvs, (b'.srv i).curStanding ≠ (b.srv i).curStanding →
    b.cumulative i = (((b.members (b.srv i).backup).filter (· ≠ i)).map b.eweight).sum

/-- **One step keeps the intervals piled up.** -/
theorem Backend.GroupsPiled.step {b b' : Backend ι L} (h : b.GroupsPiled) (hi : i ∈ b.px.srvs)
    (hsrv : b'.srv = Function.update b.srv i s) (hrest : s.rest = (b.srv i).rest)
    (hsrvs : b'.px.srvs = b.px.srvs) (htop : OnTop b b') : b'.GroupsPiled := by
  intro backup
  have hbackup : s.backup = (b.srv i).backup := congrArg Server.Rest.backup hrest
  have hself : b'.srv i = s := by rw [hsrv, Function.update_self]
  have hother {j : ι} (hj : j ≠ i) : b'.srv j = b.srv j := by rw [hsrv, Function.update_of_ne hj]
  have hbase (j : ι) : b'.cumulative j = b.cumulative j := by
    by_cases hj : j = i
    · rw [hj, cumulative, hself]
      exact congrArg (fun r => (Server.Rest.cumulativeWeight r).toNat) hrest
    · rw [cumulative, cumulative, hother hj]
  have hweight {j : ι} (hj : j ≠ i) : b'.eweight j = b.eweight j := by
    rw [eweight, eweight, hother hj]
  have hmem {j : ι} (hj : j ≠ i) : j ∈ b'.members backup ↔ j ∈ b.members backup := by
    rw [mem_members, mem_members, hother hj, hsrvs]
  have hperm' {l : List ι} (hl : l.Nodup) (hmem' : ∀ j, j ∈ l ↔ j ∈ b'.members backup) :
      l.Perm (b'.members backup) :=
    (List.perm_ext_iff_of_nodup hl (nodup_members b' backup)).mpr hmem'
  obtain ⟨l, hperm, hpiled⟩ := h backup
  have hl : l.Nodup := hperm.nodup_iff.mpr (nodup_members b backup)
  by_cases hsame : s.curStanding = (b.srv i).curStanding ∨ backup ≠ (b.srv i).backup
  · -- the group has the same members, with the same weights
    have hmemi : i ∈ b'.members backup ↔ i ∈ b.members backup := by
      rw [mem_members, mem_members, hself, hsrvs, hbackup]
      rcases hsame with hstanding | hne
      · refine and_congr_right fun _ => and_congr_left fun _ => ⟨fun hu => ?_, fun hu => ?_⟩
        · exact (currentlyUsable_of_standing hstanding.symm hu).1
        · exact (currentlyUsable_of_standing hstanding hu).1
      · exact ⟨fun hm => absurd hm.2.2.symm hne, fun hm => absurd hm.2.2.symm hne⟩
    have hweighti (hil : i ∈ b.members backup) : b'.eweight i = b.eweight i := by
      obtain ⟨-, husable, hgroup⟩ := mem_members.mp hil
      have hstanding := hsame.resolve_right (not_not.mpr hgroup.symm)
      rw [eweight, eweight, hself, (currentlyUsable_of_standing hstanding husable).2]
    refine ⟨l, hperm' hl fun j => ?_, hpiled.congr (fun j hj => ?_) fun j _ => hbase j⟩
    · rw [hperm.mem_iff]
      by_cases hj : j = i
      · rw [hj, hmemi]
      · rw [hmem hj]
    · by_cases hji : j = i
      · rw [hji]
        exact hweighti (hji ▸ hperm.mem_iff.mp hj)
      · exact hweight hji
  · -- the server is taken off the pile, and put back if it is usable
    rw [not_or, not_not] at hsame
    obtain ⟨hstanding, rfl⟩ := hsame
    have htop' : b.cumulative i = ((l.filter (· ≠ i)).map b.eweight).sum := by
      rw [htop i hi (by rw [hself]; exact hstanding)]
      exact (((hperm.filter _).map _).sum_eq).symm
    have hpos : ∀ j ∈ l, 0 < b.eweight j := by
      intro j hj
      obtain ⟨-, husable, -⟩ := mem_members.mp (hperm.mem_iff.mp hj)
      apply Nat.pos_of_ne_zero
      exact fun hzero => Server.eweight_ne_zero_of_usableWith husable (UInt32.toNat_inj.mp hzero)
    have hbelow : Piled b'.eweight b'.cumulative 0 (l.filter (· ≠ i)) := by
      refine (hpiled.takeOff hl hpos htop').congr (fun j hj => hweight ?_) fun j _ => hbase j
      exact of_decide_eq_true (List.mem_filter.mp hj).2
    have hsum : ((l.filter (· ≠ i)).map b'.eweight).sum =
        ((l.filter (· ≠ i)).map b.eweight).sum := by
      refine congrArg List.sum (List.map_congr_left fun j hj => hweight ?_)
      exact of_decide_eq_true (List.mem_filter.mp hj).2
    by_cases hin : i ∈ b'.members (b.srv i).backup
    · refine ⟨l.filter (· ≠ i) ++ [i], hperm' ?_ fun j => ?_, hbelow.push ?_⟩
      · exact (hl.filter _).append (List.nodup_singleton i) (by simp)
      · by_cases hj : j = i
        · simp [hj, hin]
        · simp [hj, hmem hj, hperm.mem_iff]
      · rw [hbase, hsum, htop']
    · refine ⟨l.filter (· ≠ i), hperm' (hl.filter _) fun j => ?_, hbelow⟩
      by_cases hj : j = i
      · simp [hj, hin]
      · simp [hj, hmem hj, hperm.mem_iff]

/-! ### The start -/

/-- The pending weight of a server, as a number. -/
def Backend.pending (b : Backend ι L) (i : ι) : ℕ := (b.srv i).nextEweight.toNat

/-- The servers of a list that will be usable in a group. -/
def Backend.coming (b : Backend ι L) (backup : Bool) (l : List ι) : List ι :=
  l.filter fun i => (b.srv i).willbeUsable && (b.srv i).backup = backup

def Proxy.totGroup (px : Proxy ι L) (backup : Bool) : UInt32 :=
  if backup then px.totWbck else px.totWact

omit [DecidableEq ι] in
theorem coming_append_of_pos {b : Backend ι L} {backup : Bool} (hw : (b.srv i).willbeUsable = true)
    (hb : (b.srv i).backup = backup) : b.coming backup (l ++ [i]) = b.coming backup l ++ [i] := by
  rw [Backend.coming, List.filter_append, List.filter_cons_of_pos (by simp [hw, hb])]
  rfl

omit [DecidableEq ι] in
theorem coming_append_of_neg {b : Backend ι L} {backup : Bool}
    (h : (b.srv i).willbeUsable = true → (b.srv i).backup ≠ backup) :
    b.coming backup (l ++ [i]) = b.coming backup l := by
  rw [Backend.coming, List.filter_append, List.filter_cons_of_neg]
  · exact List.append_nil _
  · rw [Bool.and_eq_true, decide_eq_true_iff]
    exact fun hin => h hin.1 hin.2

theorem recountServer_usable (c : Backend ι L) (hw : (c.srv i).willbeUsable = true) :
    (recountServer c i).srv = Function.update c.srv i
        { c.srv i with cumulativeWeight := c.px.totGroup (c.srv i).backup } ∧
      ∀ backup, (recountServer c i).px.totGroup backup =
        if backup = (c.srv i).backup then c.px.totGroup backup + (c.srv i).nextEweight
        else c.px.totGroup backup := by
  unfold recountServer
  rw [hw, if_neg (by decide)]
  cases hb : (c.srv i).backup with
  | false =>
    refine ⟨rfl, fun backup => ?_⟩
    cases backup <;> rfl
  | true =>
    refine ⟨rfl, fun backup => ?_⟩
    cases backup <;> rfl

/-- `c` is `b` after the servers of `l` have been counted. -/
structure RecountPiled (b c : Backend ι L) (l : List ι) : Prop where
  counts : OnlyCounts b c
  piled : ∀ backup, Piled b.pending c.cumulative 0 (b.coming backup l)
  total : ∀ backup, (c.px.totGroup backup).toNat = ((b.coming backup l).map b.pending).sum

/-- One more server is put on the pile of its group. -/
theorem RecountPiled.recountServer {b c : Backend ι L} (h : RecountPiled b c l) (hi : i ∉ l)
    (hlt : ∀ backup, ((b.coming backup (l ++ [i])).map b.pending).sum < 2 ^ 32) :
    RecountPiled b (recountServer c i) (l ++ [i]) := by
  have hcounts := h.counts.trans (onlyCounts_recountServer c i)
  have hwill : (c.srv i).willbeUsable = (b.srv i).willbeUsable := by
    rw [h.counts.srv i]
    rfl
  have hbackup : (c.srv i).backup = (b.srv i).backup := by rw [h.counts.srv i]
  have hweight : (c.srv i).nextEweight = (b.srv i).nextEweight := by rw [h.counts.srv i]
  rcases hw : (b.srv i).willbeUsable with - | -
  · -- the server is skipped
    have hskip : SmartHAProxy.recountServer c i = c := by
      unfold SmartHAProxy.recountServer
      rw [hwill, hw]
      rfl
    have hsame (backup : Bool) : b.coming backup (l ++ [i]) = b.coming backup l :=
      coming_append_of_neg fun hu => absurd (hw.symm.trans hu) Bool.false_ne_true
    refine ⟨hcounts, fun backup => ?_, fun backup => ?_⟩
    · rw [hskip, hsame]
      exact h.piled backup
    · rw [hskip, hsame]
      exact h.total backup
  · obtain ⟨hsrv, htot⟩ := recountServer_usable c (hwill.trans hw)
    have hother {backup : Bool} {j : ι} (hj : j ∈ b.coming backup l) :
        (SmartHAProxy.recountServer c i).cumulative j = c.cumulative j := by
      have hne : j ≠ i := fun he => hi (he ▸ List.mem_of_mem_filter hj)
      rw [Backend.cumulative, hsrv, Function.update_of_ne hne]
      rfl
    have hkept (backup : Bool) : Piled b.pending (SmartHAProxy.recountServer c i).cumulative 0
        (b.coming backup l) :=
      (h.piled backup).congr (fun _ _ => rfl) fun j hj => hother hj
    refine ⟨hcounts, fun backup => ?_, fun backup => ?_⟩
    · by_cases hb : (b.srv i).backup = backup
      · rw [coming_append_of_pos hw hb]
        apply (hkept backup).push
        rw [Backend.cumulative, hsrv, Function.update_self, ← h.total, ← hb, ← hbackup]
      · rw [coming_append_of_neg fun _ => hb]
        exact hkept backup
    · by_cases hb : (b.srv i).backup = backup
      · have hlt' := hlt backup
        have htotal := h.total backup
        rw [coming_append_of_pos hw hb, List.map_append, List.sum_append] at hlt' ⊢
        rw [htot, if_pos (hb.symm.trans hbackup.symm), UInt32.toNat_add, htotal, hweight]
        exact Nat.mod_eq_of_lt hlt'
      · rw [coming_append_of_neg fun _ => hb, htot, if_neg fun he => hb (he.trans hbackup).symm]
        exact h.total backup

theorem RecountPiled.foldl {b c : Backend ι L} (l' : List ι) (h : RecountPiled b c l)
    (hl : (l ++ l').Nodup)
    (hlt : ∀ backup, ((b.coming backup (l ++ l')).map b.pending).sum < 2 ^ 32) :
    RecountPiled b (l'.foldl SmartHAProxy.recountServer c) (l ++ l') := by
  induction l' generalizing c l with
  | nil => rwa [List.append_nil]
  | cons i l' ih =>
    rw [List.append_cons] at hl hlt ⊢
    refine ih (h.recountServer ?_ fun backup => ?_) hl hlt
    · have hn := (List.nodup_append.mp hl).1
      exact fun hmem => (List.nodup_append.mp hn).2.2 i hmem i List.mem_cons_self rfl
    · apply Nat.lt_of_le_of_lt _ (hlt backup)
      rw [Backend.coming, Backend.coming, List.filter_append (l ++ [i]), List.map_append,
        List.sum_append]
      exact Nat.le_add_right _ _

theorem Server.Settled.usable (h : s.Settled) :
    s.currentlyUsable = s.willbeUsable ∧
      (s.currentlyUsable = true → s.curEweight = s.nextEweight) := by
  have hs : s.curStanding = s.nextStanding := h
  rcases hc : s.currentlyUsable with - | - <;> rcases hw : s.willbeUsable with - | -
  · exact ⟨rfl, nofun⟩
  · rw [curStanding_of_not_usable hc, nextStanding_of_usable hw] at hs
    cases hs
  · rw [curStanding_of_usable hc, nextStanding_of_not_usable hw] at hs
    cases hs
  · rw [curStanding_of_usable hc, nextStanding_of_usable hw] at hs
    exact ⟨rfl, fun _ => congrArg Prod.snd (Option.some.inj hs)⟩

/-- **`recount_servers` piles the intervals up.** -/
theorem groupsPiled_recount (b : Backend ι L)
    (hsettled : ∀ i ∈ b.px.srvs, ((recountServers b).srv i).Settled)
    (hlt : ∀ backup,
      (((recountServers b).members backup).map (recountServers b).eweight).sum < 2 ^ 32) :
    (recountServers b).GroupsPiled := by
  have hcounts := onlyCounts_recountServers b
  have hwill (i : ι) : ((recountServers b).srv i).willbeUsable = (b.srv i).willbeUsable := by
    rw [hcounts.srv i]
    rfl
  have hbackup (i : ι) : ((recountServers b).srv i).backup = (b.srv i).backup := by
    rw [hcounts.srv i]
  have hmembers (backup : Bool) :
      (recountServers b).members backup = b.coming backup b.px.srvs := by
    rw [Backend.members, hcounts.srvs]
    refine List.filter_congr fun i hi => ?_
    rw [(hsettled i hi).usable.1, hwill, hbackup]
  have hweight {backup : Bool} {i : ι} (hi : i ∈ (recountServers b).members backup) :
      (recountServers b).eweight i = b.pending i := by
    obtain ⟨hmem, husable, -⟩ := mem_members.mp hi
    have hmem' : i ∈ b.px.srvs := hcounts.srvs ▸ hmem
    rw [Backend.eweight, (hsettled i hmem').usable.2 husable, hcounts.srv i]
    rfl
  have hstart : RecountPiled b (recountStart b) [] := by
    refine ⟨⟨fun _ => rfl, rfl, rfl, rfl⟩, fun _ => trivial, fun backup => ?_⟩
    cases backup <;> rfl
  have hlt' (backup : Bool) : ((b.coming backup ([] ++ b.px.srvs)).map b.pending).sum < 2 ^ 32 := by
    rw [List.nil_append, ← hmembers, ← List.map_congr_left fun i hi => hweight hi]
    exact hlt backup
  have hdone := hstart.foldl b.px.srvs (by rw [List.nil_append]; exact b.px.nodup) hlt'
  intro backup
  refine ⟨(recountServers b).members backup, List.Perm.refl _, ?_⟩
  have hpiled := hdone.piled backup
  rw [List.nil_append, ← hmembers] at hpiled
  exact hpiled.congr (fun i hi => hweight hi) fun _ _ => rfl

/-! ### Runs -/

/-- Requests are being served, under a balance factor. -/
def Backend.load (b : Backend ι L) (served : ι → UInt32) (total factor : ℤ) : Backend ι L where
  srv i := { b.srv i with served := served i }
  px := { b.px with served := total, hashBalanceFactor := factor }

/-- A change of status or weight, of a server that stands on top of its group. -/
def ChashTopStep (track : ι → Option ι) (b b' : Backend ι (Chash ι)) : Prop :=
  LbStep .chtree track b b' ∧ OnTop b b'

omit [DecidableEq ι] in
theorem Backend.GroupsPiled.of_eq {L' : Type*} {b : Backend ι L} {b' : Backend ι L'}
    (h : b.GroupsPiled) (hsrv : b'.srv = b.srv) (hsrvs : b'.px.srvs = b.px.srvs) :
    b'.GroupsPiled := by
  have hmembers : b'.members = b.members := by
    funext backup
    rw [members, members, hsrv, hsrvs]
  have hweight : b'.eweight = b.eweight := by
    funext i
    rw [eweight, eweight, hsrv]
  have hbase : b'.cumulative = b.cumulative := by
    funext i
    rw [cumulative, cumulative, hsrv]
  intro backup
  rw [hmembers, hweight, hbase]
  exact h backup

theorem srv_chashInitServerTree {b : Backend ι Unit}
    (hinit : chashInitServerTree heap b = some b₀) :
    b₀.srv = (updateBackendWeight (recountServers b.initEweights)).srv := by
  obtain ⟨c, -, rfl⟩ := Option.map_eq_some_iff.mp hinit
  rfl

theorem balanced_chashInitServerTree {b : Backend ι Unit}
    (hinit : chashInitServerTree heap b = some b₀) : Balanced (fun _ _ _ _ => True) b.px.srvs b₀ :=
  balanced_of_init (k := .chtree) hinit

theorem Balanced.chashStep {b b' : Backend ι (Chash ι)} (h : Balanced (fun _ _ _ _ => True) l b)
    (hstep : LbStep .chtree track b b') : Balanced (fun _ _ _ _ => True) l b' :=
  Balanced.step (k := .chtree) h hstep

theorem groupsPiled_init {b : Backend ι Unit} (hinit : chashInitServerTree heap b = some b₀)
    (hlt : ∀ backup, ((b₀.members backup).map b₀.eweight).sum < 2 ^ 32) : b₀.GroupsPiled := by
  obtain ⟨c, -, rfl⟩ := Option.map_eq_some_iff.mp hinit
  have hbal := balanced_init b
  obtain ⟨w, u, he⟩ := updateBackendWeight_eq (recountServers b.initEweights)
  rw [he] at hbal hlt ⊢
  have hsrvs := (onlyCounts_recountServers b.initEweights).srvs
  apply Backend.GroupsPiled.of_eq (b := recountServers b.initEweights)
  · apply groupsPiled_recount
    · exact fun i hi => hbal.settled i (hbal.srvs ▸ hsrvs ▸ hi)
    · exact hlt
  · rfl
  · rfl

/-- **The intervals stay piled up**, in every run in which the servers whose weight or
usability changes stand on top of their groups. -/
theorem groupsPiled_run {b : Backend ι Unit} {b₁ : Backend ι (Chash ι)}
    (hinit : chashInitServerTree heap b = some b₀)
    (hlt : ∀ backup, ((b₀.members backup).map b₀.eweight).sum < 2 ^ 32)
    (hrun : Relation.ReflTransGen (ChashTopStep track) b₀ b₁) :
    Balanced (fun _ _ _ _ => True) b.px.srvs b₁ ∧ b₁.GroupsPiled := by
  induction hrun with
  | refl => exact ⟨balanced_chashInitServerTree hinit, groupsPiled_init hinit hlt⟩
  | tail _ hstep ih =>
    obtain ⟨hlb, htop⟩ := hstep
    obtain ⟨i, hi, s, hsrv, hrest, hsrvs⟩ := LbStep.frame (k := .chtree) hlb
    exact ⟨ih.1.chashStep hlb, ih.2.step hi hsrv hrest hsrvs htop⟩

/-- **There always is a free slot**, in every run in which the servers whose
weight or usability changes stand on top of their groups, as long as nothing
wraps around. -/
theorem chash_hasRoom {b : Backend ι Unit} {b₁ : Backend ι (Chash ι)}
    (hinit : chashInitServerTree heap b = some b₀)
    (hlt : ∀ backup, ((b₀.members backup).map b₀.eweight).sum < 2 ^ 32)
    (hrun : Relation.ReflTransGen (ChashTopStep track) b₀ b₁) (served : ι → UInt32)
    (total factor : ℤ) (hwrap : (b₁.load served total factor).NoWrap) :
    (b₁.load served total factor).HasRoom := by
  obtain ⟨hbal, hpiled⟩ := groupsPiled_run hinit hlt hrun
  apply Backend.hasRoom_of_piled hwrap (hbal.toNat_totWeight hwrap.weight)
  show ∃ a l, List.Perm l b₁.inUse ∧ Piled b₁.eweight b₁.cumulative a l
  unfold Backend.inUse
  split_ifs with hact
  · exact ⟨0, hpiled false⟩
  · split
    · rename_i i _
      exact ⟨b₁.cumulative i, [i], List.Perm.refl _, rfl, trivial⟩
    · exact ⟨0, hpiled true⟩

/-! ### Three servers -/

abbrev Trio : Type := Option Bool

def trio : List Trio := [some false, some true, none]

theorem nodup_trio : trio.Nodup := by decide

/-- The heavy servers have a weight of 3, the light one has a weight of 1. -/
def heavyAndLight : Backend Trio Unit where
  srv i := { serverS1 with uweight := if i = none then 1 else 3 }
  px := newProxy trio nodup_trio

/-- The servers when the trees have been built. -/
def heavyAndLightStart : Trio → Server :=
  (updateBackendWeight (recountServers heavyAndLight.initEweights)).srv

def reweight (i : Trio) (w : UInt32) (hw : w ≤ srvEwghtMax) : Change Trio :=
  ⟨i, .running, 0, w, hw⟩

theorem heavyAndLight_init : ∃ b₀, chashInitServerTree [] heavyAndLight = some b₀ ∧
    b₀.srv = heavyAndLightStart ∧ b₀.px.srvs = trio := by
  have hsome : (chashInitServerTree [] heavyAndLight).isSome = true := by decide +kernel
  obtain ⟨b₀, hinit⟩ := Option.isSome_iff_exists.mp hsome
  exact ⟨b₀, hinit, srv_chashInitServerTree hinit, (balanced_chashInitServerTree hinit).srvs⟩

theorem srv_reweight (b : Backend Trio (Chash Trio)) (i : Trio) (w : UInt32)
    (hw : w ≤ srvEwghtMax) :
    (chashUpdateServerWeight ((reweight i w hw).apply b) i).srv =
      Function.update b.srv i { b.srv i with
        curState := .running, nextState := .running, curAdmin := 0, nextAdmin := 0
        curEweight := w, nextEweight := w } := by
  rw [chashUpdateServerWeight, srv_updateServerWeight, Change.apply]
  show Function.update (Function.update b.srv i _) i _ = _
  rw [Function.update_idem]
  show Function.update b.srv i ((b.updSrv i _).srv i).lbCommitStatus = _
  rw [Backend.updSrv_srv_self]
  rfl

theorem chashStep_reweight (b : Backend Trio (Chash Trio)) (i : Trio) (w : UInt32)
    (hw : w ≤ srvEwghtMax) (hi : i ∈ b.px.srvs) : LbStep .chtree (fun _ => none) b
      (chashUpdateServerWeight ((reweight i w hw).apply b) i) :=
  LbStep.eweight (k := .chtree) b (reweight i w hw) hi

theorem totals_of_standings {b : Backend Trio (Chash Trio)} {w : Trio → UInt32}
    (hbal : Balanced (fun _ _ _ _ => True) trio b)
    (hst : ∀ i, (b.srv i).nextStanding = some (false, w i)) :
    b.px.totWeight = w (some false) + (w (some true) + (w none + 0)) ∧ b.inUse = trio := by
  have hnext : b.nextStandings = fun i => some (false, w i) := funext hst
  have htally := hbal.tally
  rw [hnext] at htally
  have hact : b.px.srvAct = 3 := congrArg Tally.srvAct htally
  refine ⟨congrArg Tally.totWeight htally, ?_⟩
  rw [Backend.inUse, hact, if_pos (by decide), Backend.members, hbal.srvs, List.filter_eq_self]
  intro i hi
  have hcur : (b.srv i).curStanding = some (false, w i) := (hbal.settled i hi).trans (hst i)
  rcases hu : (b.srv i).currentlyUsable with - | -
  · rw [Server.curStanding_of_not_usable hu] at hcur
    cases hcur
  · rw [Server.curStanding_of_usable hu] at hcur
    have hb : (b.srv i).backup = false := congrArg Prod.fst (Option.some.inj hcur)
    rw [hb]
    rfl

/-- The servers after the light one, which stands on top, has been given a weight of 2. -/
def weighted2 : Trio → Server :=
  Function.update heavyAndLightStart none { heavyAndLightStart none with
    curState := .running, nextState := .running, curAdmin := 0, nextAdmin := 0
    curEweight := 32, nextEweight := 32 }

theorem chash_hasRoom_weighted2 : ∃ b₀ b₁ : Backend Trio (Chash Trio),
    chashInitServerTree [] heavyAndLight = some b₀ ∧ ChashTopStep (fun _ => none) b₀ b₁ ∧
      b₁.srv = weighted2 ∧ (b₁.load (fun _ => 1) 3 101).HasRoom := by
  obtain ⟨b₀, hinit, hstart, hsrvs⟩ := heavyAndLight_init
  have hw : (32 : UInt32) ≤ srvEwghtMax := by decide
  obtain ⟨b₁, hb₁⟩ : ∃ b₁,
      b₁ = chashUpdateServerWeight ((reweight none 32 hw).apply b₀) none := ⟨_, rfl⟩
  have hstep : LbStep .chtree (fun _ => none) b₀ b₁ := by
    rw [hb₁]
    apply chashStep_reweight
    rw [hsrvs]
    decide
  have hsrv : b₁.srv = weighted2 := by
    rw [hb₁, srv_reweight, hstart]
    rfl
  have hlt : ∀ backup, ((b₀.members backup).map b₀.eweight).sum < 2 ^ 32 := by
    unfold Backend.members Backend.eweight
    rw [hstart, hsrvs]
    decide +kernel
  have htop : OnTop b₀ b₁ := by
    unfold OnTop Backend.members Backend.eweight Backend.cumulative
    rw [hsrv, hstart, hsrvs]
    decide +kernel
  have hstanding : ∀ i, (b₁.srv i).nextStanding = some (false, if i = none then 32 else 48) := by
    rw [hsrv]
    rintro (- | - | -) <;> decide +kernel
  obtain ⟨-, huse⟩ := totals_of_standings
    (w := fun i => if i = none then 32 else 48)
    ((balanced_chashInitServerTree hinit).chashStep hstep) hstanding
  have hwrap : (b₁.load (fun _ => 1) 3 101).NoWrap := by
    refine ⟨?_, ?_, ?_⟩
    · show ((3 : ℤ) + 1) * 101 + 99 < 2 ^ 31
      decide
    · show (b₁.inUse.map b₁.eweight).sum < 2 ^ 32
      unfold Backend.eweight
      rw [huse, hsrv]
      decide +kernel
    · show ∀ i ∈ b₁.inUse, (b₁.cumulative i + b₁.eweight i) *
        (((((3 : ℤ) + 1) * 101 + 99) / 100).toNat % (b₁.inUse.map b₁.eweight).sum) < 2 ^ 32
      unfold Backend.eweight Backend.cumulative
      rw [huse, hsrv]
      decide +kernel
  have htopstep : ChashTopStep (fun _ => none) b₀ b₁ := ⟨hstep, htop⟩
  exact ⟨b₀, b₁, hinit, htopstep, hsrv,
    chash_hasRoom hinit hlt (Relation.ReflTransGen.single htopstep) _ _ _ hwrap⟩

/-- The servers after the two heavy ones have been given a weight of 1. -/
def lightened : Trio → Server :=
  let light (s : Server) : Server :=
    { s with
      curState := .running, nextState := .running, curAdmin := 0, nextAdmin := 0
      curEweight := 16, nextEweight := 16 }
  Function.update
    (Function.update heavyAndLightStart (some false) (light (heavyAndLightStart (some false))))
    (some true) (light (heavyAndLightStart (some true)))

theorem not_hasRoom_lightened {b : Backend Trio (Chash Trio)} (hsrv : b.srv = lightened)
    (htot : b.px.totWeight = 48) (huse : b.inUse = trio) :
    ¬ (b.load (fun _ => 1) 3 101).HasRoom := by
  intro hroom
  have hslots (i : Trio) : chashSlots (b.load (fun _ => 1) 3 101).px
      ((b.load (fun _ => 1) 3 101).srv i) = 1 := by
    unfold chashSlots Backend.load
    dsimp only
    rw [htot, hsrv]
    revert i
    rintro (- | - | -) <;> decide +kernel
  have hfactor : (100 : ℤ) ≤ 101 := by decide
  have hweight : b.px.totWeight ≠ 0 := by
    rw [htot]
    decide
  have hserved : (((b.inUse.map fun _ => (1 : UInt32).toNat).sum : ℕ) : ℤ) = 3 := by
    rw [huse]
    rfl
  obtain ⟨hsum, -⟩ := hroom hfactor hweight hserved
  simp only [hslots] at hsum
  replace hsum : (3 : ℤ) + 1 ≤ ((b.inUse.map fun _ => (1 : UInt32).toNat).sum : ℕ) := hsum
  rw [hserved] at hsum
  exact absurd hsum (by decide)

/-- The cumulative weights are not those of the new weights. -/
theorem not_chash_hasRoom :
    ¬ ∀ b₀ b₁ : Backend Trio (Chash Trio), chashInitServerTree [] heavyAndLight = some b₀ →
      Relation.ReflTransGen (LbStep .chtree fun _ => none) b₀ b₁ →
      ∀ (served : Trio → UInt32) (total factor : ℤ), (b₁.load served total factor).HasRoom := by
  intro h
  obtain ⟨b₀, hinit, hstart, hsrvs⟩ := heavyAndLight_init
  have hw : (16 : UInt32) ≤ srvEwghtMax := by decide
  obtain ⟨b₁, hb₁⟩ : ∃ b₁, b₁ =
      chashUpdateServerWeight ((reweight (some false) 16 hw).apply b₀) (some false) := ⟨_, rfl⟩
  obtain ⟨b₂, hb₂⟩ : ∃ b₂, b₂ =
      chashUpdateServerWeight ((reweight (some true) 16 hw).apply b₁) (some true) := ⟨_, rfl⟩
  have hfirst : LbStep .chtree (fun _ => none) b₀ b₁ := by
    rw [hb₁]
    apply chashStep_reweight
    rw [hsrvs]
    decide
  have hbal₁ : Balanced (fun _ _ _ _ => True) trio b₁ :=
    (balanced_chashInitServerTree hinit).chashStep hfirst
  have hsecond : LbStep .chtree (fun _ => none) b₁ b₂ := by
    rw [hb₂]
    apply chashStep_reweight
    rw [hbal₁.srvs]
    decide
  have hsrv : b₂.srv = lightened := by
    rw [hb₂, srv_reweight, hb₁, srv_reweight, hstart]
    rfl
  have hstanding : ∀ i, (b₂.srv i).nextStanding = some (false, 16) := by
    rw [hsrv]
    rintro (- | - | -) <;> decide +kernel
  obtain ⟨htot, huse⟩ := totals_of_standings (w := fun _ => 16) (hbal₁.chashStep hsecond) hstanding
  apply not_hasRoom_lightened hsrv htot huse
  exact h b₀ b₂ hinit ((Relation.ReflTransGen.single hfirst).tail hsecond) _ _ _

end SmartHAProxy
