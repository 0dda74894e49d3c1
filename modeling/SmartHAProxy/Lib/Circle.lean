/-
Dates read on a 32-bit clock.

A date is an integer; a clock shows it modulo `2 ^ 32` (`tick`).  What the clock
shows determines the date among those of one turn that starts at a known date
`base` (`dateFrom base`).  Two facts make such readings usable:

* `signBit_sub_iff`: the sign bit of the difference of two readings tells which
  date is earlier, for dates at most half a turn apart;
* `lookupFrom_spec`: a tree ordered by the readings, searched from the reading of
  `base` upwards and then from its start, gives the earliest date of the turn.
-/
import Mathlib.Algebra.Ring.Int.Defs
import Mathlib.Algebra.Ring.Nat
import SmartHAProxy.Lib.EbTree

namespace SmartHAProxy

/-! ### Readings -/

/-- What a 32-bit clock shows at the date `d`. -/
def tick (d : ℤ) : UInt32 := UInt32.ofNat (d % 2 ^ 32).toNat

/-- The first date from `base` on at which the clock shows `k`. -/
def dateFrom (base : ℤ) (k : UInt32) : ℤ := base + ((k.toNat : ℤ) - base) % 2 ^ 32

def signBit (k : UInt32) : Bool := 2 ^ 31 ≤ k.toNat

theorem toNat_tick (d : ℤ) : ((tick d).toNat : ℤ) = d % 2 ^ 32 := by
  have h : (d % 2 ^ 32).toNat < 2 ^ 32 := by omega
  rw [tick, UInt32.toNat_ofNat_of_lt' h]
  omega

theorem dateFrom_lt (base : ℤ) (k : UInt32) : dateFrom base k < base + 2 ^ 32 := by
  rw [dateFrom]
  omega

@[simp] theorem tick_dateFrom (base : ℤ) (k : UInt32) : tick (dateFrom base k) = k := by
  apply UInt32.toNat_inj.mp
  have hk := k.toNat_lt
  have h := toNat_tick (dateFrom base k)
  rw [dateFrom] at h ⊢
  omega

theorem dateFrom_tick {base d : ℤ} (hle : base ≤ d) (hlt : d < base + 2 ^ 32) :
    dateFrom base (tick d) = d := by
  rw [dateFrom, toNat_tick]
  omega

theorem dateFrom_of_le {base base' : ℤ} {k : UInt32} (hle : base ≤ base')
    (hk : base' ≤ dateFrom base k) : dateFrom base' k = dateFrom base k := by
  have hlt := dateFrom_lt base k
  have h : dateFrom base' (tick (dateFrom base k)) = dateFrom base k :=
    dateFrom_tick hk (by omega)
  rwa [tick_dateFrom] at h

theorem tick_sub (d e : ℤ) : tick d - tick e = tick (d - e) := by
  apply UInt32.toNat_inj.mp
  have hd := toNat_tick d
  have he := toNat_tick e
  have hde := toNat_tick (d - e)
  rw [UInt32.toNat_sub]
  omega

theorem tick_add (d e : ℤ) : tick d + tick e = tick (d + e) := by
  apply UInt32.toNat_inj.mp
  have hd := toNat_tick d
  have he := toNat_tick e
  have hde := toNat_tick (d + e)
  rw [UInt32.toNat_add]
  omega

/-- **The sign of a difference tells the order of two dates, not more than half a
turn apart.** -/
theorem signBit_sub_iff {d e : ℤ} (hle : e - 2 ^ 31 ≤ d) (hlt : d < e + 2 ^ 31) :
    signBit (tick d - tick e) = true ↔ d < e := by
  have h := toNat_tick (d - e)
  rw [tick_sub, signBit, decide_eq_true_iff]
  omega

theorem toInt_toInt32 (x : UInt32) :
    x.toInt32.toInt = if x.toNat < 2 ^ 31 then (x.toNat : ℤ) else x.toNat - 2 ^ 32 := by
  show x.toBitVec.toInt = _
  rw [BitVec.toInt_eq_toNat_cond]
  show (if 2 * x.toNat < 2 ^ 32 then (x.toNat : ℤ) else x.toNat - (2 ^ 32 : ℕ)) = _
  split_ifs <;> omega

/-! ### Trees of readings -/

variable {α : Type*}

/-- `eb32_lookup_ge` from `k`, and from the start of the tree if it finds nothing. -/
def EbTree.lookupFrom (t : EbTree UInt32 α) (k : UInt32) : Option (UInt32 × α) :=
  match t.lookupGe k with
  | some n => some n
  | none => t.firstNode

theorem dateFrom_le_dateFrom {base : ℤ} {k l : UInt32} (hkl : k ≤ l)
    (h : tick base ≤ k ∨ l < tick base) : dateFrom base k ≤ dateFrom base l := by
  have hb := toNat_tick base
  have hk := k.toNat_lt
  have hl := l.toNat_lt
  rw [UInt32.le_iff_toNat_le] at hkl h
  rw [UInt32.lt_iff_toNat_lt] at h
  rw [dateFrom, dateFrom]
  omega

theorem dateFrom_le_of_wrap {base : ℤ} {k l : UInt32} (hk : tick base ≤ k) (hl : l < tick base) :
    dateFrom base k ≤ dateFrom base l := by
  have hb := toNat_tick base
  have hk' := k.toNat_lt
  rw [UInt32.le_iff_toNat_le] at hk
  rw [UInt32.lt_iff_toNat_lt] at hl
  rw [dateFrom, dateFrom]
  omega

theorem lookupFrom_eq_none {t : EbTree UInt32 α} {k : UInt32} :
    t.lookupFrom k = none ↔ t.nodes = [] := by
  rw [EbTree.lookupFrom]
  rcases hge : t.lookupGe k with - | n
  · simp [EbTree.firstNode]
  · simp only [reduceCtorEq, false_iff]
    exact List.ne_nil_of_mem (List.mem_of_find?_eq_some hge)

theorem find?_le {l : List (UInt32 × α)} (hl : l.Pairwise fun a b => a.1 ≤ b.1)
    {p : UInt32 × α → Bool} {n m : UInt32 × α} (hn : l.find? p = some n) (hm : m ∈ l)
    (hp : p m = true) : n.1 ≤ m.1 := by
  induction l with
  | nil => simp at hm
  | cons a l ih =>
    rw [List.pairwise_cons] at hl
    rw [List.find?_cons] at hn
    rcases hpa : p a with - | -
    · rw [hpa] at hn
      rcases List.mem_cons.mp hm with rfl | hm
      · rw [hpa] at hp
        cases hp
      · exact ih hl.2 hn hm
    · rw [hpa] at hn
      obtain rfl : a = n := by simpa using hn
      rcases List.mem_cons.mp hm with rfl | hm
      · exact le_rfl
      · exact hl.1 m hm

/-- **The node found from the reading of `base` on has the earliest date of the turn.** -/
theorem lookupFrom_spec {t : EbTree UInt32 α} {base : ℤ} {n : UInt32 × α}
    (h : t.lookupFrom (tick base) = some n) :
    n ∈ t.nodes ∧ ∀ m ∈ t.nodes, dateFrom base n.1 ≤ dateFrom base m.1 := by
  rw [EbTree.lookupFrom] at h
  rcases hge : t.lookupGe (tick base) with - | n'
  · -- no node of this round: the first node of the tree is of the next one
    rw [hge] at h
    have hall : ∀ m ∈ t.nodes, m.1 < tick base := by
      intro m hm
      have hnot := List.find?_eq_none.mp hge m hm
      simpa using hnot
    have hmem : n ∈ t.nodes := List.mem_of_mem_head? h
    refine ⟨hmem, fun m hm => dateFrom_le_dateFrom ?_ (Or.inr (hall m hm))⟩
    apply find?_le t.sorted (p := fun _ => true) ?_ hm rfl
    rw [← List.head?_filter, List.filter_true]
    exact h
  · rw [hge] at h
    obtain rfl : n' = n := by simpa using h
    have hn : tick base ≤ n'.1 := by simpa using List.find?_some hge
    refine ⟨List.mem_of_find?_eq_some hge, fun m hm => ?_⟩
    rcases le_or_gt (tick base) m.1 with hm' | hm'
    · exact dateFrom_le_dateFrom (find?_le t.sorted hge hm (by simpa using hm')) (Or.inl hn)
    · exact dateFrom_le_of_wrap hn hm'

end SmartHAProxy
