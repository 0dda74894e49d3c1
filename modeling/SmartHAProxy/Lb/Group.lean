/-
The usable servers of a group, and its weight as a number.

The totals of a proxy are computed in 32 bits; `toNat_weight` reads them as a
sum over the members of the group.
-/
import SmartHAProxy.Lb.Keeps

namespace SmartHAProxy

universe u

variable {ι : Type u} {L : Type*}

namespace Backend

variable (b : Backend ι L)

def members (backup : Bool) : List ι :=
  b.px.srvs.filter fun i => (b.srv i).currentlyUsable && (b.srv i).backup = backup

def eweight (i : ι) : ℕ := (b.srv i).curEweight.toNat

end Backend

theorem mem_members {b : Backend ι L} {backup : Bool} {i : ι} : i ∈ b.members backup ↔
    i ∈ b.px.srvs ∧ (b.srv i).currentlyUsable = true ∧ (b.srv i).backup = backup := by
  rw [Backend.members, List.mem_filter, Bool.and_eq_true, decide_eq_true_iff]

theorem nodup_members (b : Backend ι L) (backup : Bool) : (b.members backup).Nodup :=
  b.px.nodup.filter _

theorem toNat_weight {st : ι → Standing} {b : Backend ι L} (backup : Bool) (l : List ι)
    (hst : ∀ i ∈ l, st i = (b.srv i).curStanding) :
    (weight st backup l).toNat =
      ((l.filter fun i => (b.srv i).currentlyUsable && (b.srv i).backup = backup).map
        b.eweight).sum % 2 ^ 32 := by
  induction l with
  | nil => rfl
  | cons i l ih =>
    have htail := ih fun j hj => hst j (List.mem_cons_of_mem _ hj)
    have hhead := hst i List.mem_cons_self
    have hcons : weight st backup (i :: l) = wgt backup (st i) + weight st backup l := by
      rw [weight, List.map_cons, List.sum_cons]
      rfl
    rw [hcons, UInt32.toNat_add, htail, hhead]
    rcases hu : (b.srv i).currentlyUsable with - | -
    · rw [Server.curStanding_of_not_usable hu, List.filter_cons_of_neg (by simp [hu])]
      show (0 + _) % _ = _
      rw [Nat.zero_add, Nat.mod_mod]
    · rw [Server.curStanding_of_usable hu, List.filter_cons]
      by_cases hb : (b.srv i).backup = backup
      · simp only [wgt, hb, hu, if_true, decide_true, Bool.and_self, List.map_cons, List.sum_cons]
        rw [Nat.add_mod_mod]
        rfl
      · simp only [wgt, hb, hu, if_false, decide_false, Bool.and_false, Bool.false_eq_true]
        show (0 + _) % _ = _
        rw [Nat.zero_add, Nat.mod_mod]

variable [DecidableEq ι]

/-! ### Standings -/

/-- The servers of the list with their committed standings. -/
def standings (l : List ι) (srv : ι → Server) (i : ι) : Standing :=
  if i ∈ l then (srv i).curStanding else none

section Standings

variable {l : List ι} {srv : ι → Server} {i : ι}

theorem standings_commit (hi : i ∈ l) :
    standings l (Function.update srv i (srv i).lbCommitStatus) =
      Function.update (standings l srv) i (srv i).nextStanding := by
  funext j
  by_cases hj : j = i
  · subst hj
    rw [Function.update_self, standings, if_pos hi, Function.update_self]
    rfl
  · rw [Function.update_of_ne hj, standings, standings, Function.update_of_ne hj]

theorem standings_update {s : Server} (hs : s.curStanding = (srv i).curStanding) :
    standings l (Function.update srv i s) = standings l srv := by
  funext j
  by_cases hj : j = i
  · subst hj
    rw [standings, standings, Function.update_self, hs]
  · rw [standings, standings, Function.update_of_ne hj]

theorem usable_of_standings {backup : Bool} (h : (standings l srv i).map Prod.fst = some backup) :
    i ∈ l ∧ (srv i).currentlyUsable = true ∧ (srv i).backup = backup := by
  unfold standings at h
  split_ifs at h with hi
  · rcases hc : (srv i).currentlyUsable with - | -
    · rw [Server.curStanding_of_not_usable hc] at h
      cases h
    · rw [Server.curStanding_of_usable hc] at h
      exact ⟨hi, rfl, Option.some.inj h⟩
  · cases h

end Standings

end SmartHAProxy
