/-
A memory as a function from addresses to its cells.

Reads and writes are of blocks of cells.  A write is seen by the reads of its own
place, and by no read of another place.
-/
import Mathlib.Data.List.Basic
import Mathlib.Data.List.GetD

namespace SmartHAProxy

variable {α : Type}
variable {n b k : ℕ} {bs : List α}

/-- The `n` cells from `a` on. -/
def readAt (m : ℕ → α) (a n : ℕ) : List α := (List.range n).map fun i => m (a + i)

/-- The cells from `a` on become `bs`. -/
def writeAt (m : ℕ → α) (a : ℕ) (bs : List α) : ℕ → α := fun x =>
  if a ≤ x then bs.getD (x - a) (m x) else m x

/-- Two blocks of cells have no cell in common. -/
def CellsApart (a n b k : ℕ) : Prop := a + n ≤ b ∨ b + k ≤ a

theorem CellsApart.symm {a : ℕ} (h : CellsApart a n b k) : CellsApart b k a n := Or.symm h

@[simp] theorem length_readAt (m : ℕ → α) (a n : ℕ) : (readAt m a n).length = n := by
  rw [readAt, List.length_map, List.length_range]

@[simp] theorem readAt_zero (m : ℕ → α) (a : ℕ) : readAt m a 0 = [] := rfl

theorem readAt_congr {m m' : ℕ → α} {a : ℕ} (h : ∀ i < n, m (a + i) = m' (b + i)) :
    readAt m a n = readAt m' b n := by
  refine List.map_congr_left fun i hi => ?_
  exact h i (List.mem_range.mp hi)

theorem getElem?_readAt (m : ℕ → α) (a : ℕ) {i : ℕ} (h : i < n) :
    (readAt m a n)[i]? = some (m (a + i)) := by
  rw [readAt, List.getElem?_map, List.getElem?_range h]
  rfl

theorem readAt_add (m : ℕ → α) (a n k : ℕ) :
    readAt m a (n + k) = readAt m a n ++ readAt m (a + n) k := by
  rw [readAt, List.range_add, List.map_append, List.map_map]
  refine congrArg (_ ++ ·) (List.map_congr_left fun i _ => ?_)
  show m (a + (n + i)) = m (a + n + i)
  rw [Nat.add_assoc]

theorem take_readAt (m : ℕ → α) (a : ℕ) (h : k ≤ n) : (readAt m a n).take k = readAt m a k := by
  obtain ⟨d, rfl⟩ := Nat.exists_eq_add_of_le h
  rw [readAt_add, List.take_left' (length_readAt m a k)]

theorem drop_readAt (m : ℕ → α) (a : ℕ) (h : k ≤ n) :
    (readAt m a n).drop k = readAt m (a + k) (n - k) := by
  obtain ⟨d, rfl⟩ := Nat.exists_eq_add_of_le h
  rw [readAt_add, List.drop_left' (length_readAt m a k), Nat.add_sub_cancel_left]

/-! ### Writes -/

@[simp] theorem writeAt_nil (m : ℕ → α) (a : ℕ) : writeAt m a [] = m := by
  funext x
  rw [writeAt]
  split_ifs
  · rfl
  · rfl

theorem writeAt_inside (m : ℕ → α) (a : ℕ) (bs : List α) {i : ℕ} (h : i < bs.length) :
    writeAt m a bs (a + i) = bs[i] := by
  rw [writeAt, if_pos (Nat.le_add_right a i), Nat.add_sub_cancel_left, List.getD_eq_getElem _ _ h]

theorem writeAt_outside (m : ℕ → α) {a x : ℕ} (h : x < a ∨ a + bs.length ≤ x) :
    writeAt m a bs x = m x := by
  rw [writeAt]
  split_ifs with hle
  · exact List.getD_eq_default _ _ (by omega)
  · rfl

theorem readAt_writeAt (m : ℕ → α) (a : ℕ) (bs : List α) :
    readAt (writeAt m a bs) a bs.length = bs := by
  refine List.ext_getElem (length_readAt _ _ _) fun i hi hi' => ?_
  rw [← writeAt_inside m a bs hi', ← Option.some.injEq, ← List.getElem?_eq_getElem,
    getElem?_readAt _ _ hi']

theorem readAt_writeAt_apart (m : ℕ → α) {a : ℕ} (h : CellsApart b n a bs.length) :
    readAt (writeAt m a bs) b n = readAt m b n := by
  refine readAt_congr fun i hi => writeAt_outside m ?_
  rcases h with h | h
  · exact .inl (by omega)
  · exact .inr (by omega)

theorem writeAt_append (m : ℕ → α) (a : ℕ) (bs cs : List α) :
    writeAt (writeAt m a bs) (a + bs.length) cs = writeAt m a (bs ++ cs) := by
  funext x
  rcases Nat.lt_or_ge x a with hlow | hlow
  · rw [writeAt_outside _ (.inl (by omega)), writeAt_outside _ (.inl hlow),
      writeAt_outside _ (.inl hlow)]
  obtain ⟨i, rfl⟩ := Nat.exists_eq_add_of_le hlow
  rcases Nat.lt_or_ge i bs.length with hin | hin
  · rw [writeAt_outside _ (.inl (by omega)), writeAt_inside _ _ _ hin,
      writeAt_inside m a (bs ++ cs) (by rw [List.length_append]; omega),
      List.getElem_append_left hin]
  obtain ⟨j, rfl⟩ := Nat.exists_eq_add_of_le hin
  rw [← Nat.add_assoc]
  rcases Nat.lt_or_ge j cs.length with hin' | hout
  · rw [writeAt_inside _ _ _ hin', Nat.add_assoc,
      writeAt_inside m a (bs ++ cs) (by rw [List.length_append]; omega),
      List.getElem_append_right (Nat.le_add_right _ _)]
    simp only [Nat.add_sub_cancel_left]
  · rw [writeAt_outside _ (.inr (by omega)), writeAt_outside _ (.inr (by omega)),
      writeAt_outside _ (.inr (by rw [List.length_append]; omega))]

/-! ### Blocks of known cells -/

/-- The cells from `a` on are `bs`. -/
def HoldsAt (m : ℕ → α) (a : ℕ) (bs : List α) : Prop := readAt m a bs.length = bs

theorem holdsAt_readAt (m : ℕ → α) (a n : ℕ) : HoldsAt m a (readAt m a n) := by
  rw [HoldsAt, length_readAt]

theorem holdsAt_writeAt (m : ℕ → α) (a : ℕ) (bs : List α) : HoldsAt (writeAt m a bs) a bs :=
  readAt_writeAt m a bs

theorem holdsAt_append {m : ℕ → α} {a : ℕ} {cs : List α} :
    HoldsAt m a (bs ++ cs) ↔ HoldsAt m a bs ∧ HoldsAt m (a + bs.length) cs := by
  rw [HoldsAt, List.length_append, readAt_add]
  constructor
  · exact fun h => List.append_inj h (length_readAt m a bs.length)
  · rintro ⟨hb, hc⟩
    rw [hb, hc]

theorem HoldsAt.writeAt_apart {m : ℕ → α} {a : ℕ} {cs : List α} (h : HoldsAt m b cs)
    (hapart : CellsApart b cs.length a bs.length) : HoldsAt (writeAt m a bs) b cs :=
  (readAt_writeAt_apart m hapart).trans h

/-! ### A part of a block is replaced in its place -/

/-- The `k` cells at `old` become `new`, and the `rest` cells behind them follow: "copy new data
first then move the end". -/
def shrinkAt (m : ℕ → α) (old k : ℕ) (new : List α) (rest : ℕ) : ℕ → α :=
  let m₁ := writeAt m old new
  writeAt m₁ (old + new.length) (readAt m₁ (old + k) rest)

/-- "Move the end first then copy new data". -/
def growAt (m : ℕ → α) (old k : ℕ) (new : List α) (rest : ℕ) : ℕ → α :=
  writeAt (writeAt m (old + new.length) (readAt m (old + k) rest)) old new

variable {m : ℕ → α} {a : ℕ} {pre old new suf : List α}

variable (new) in
theorem holdsAt_shrinkAt (h : HoldsAt m a (pre ++ (old ++ suf))) (hle : new.length ≤ old.length) :
    HoldsAt (shrinkAt m (a + pre.length) old.length new suf.length) a (pre ++ (new ++ suf)) := by
  rw [holdsAt_append, holdsAt_append] at h
  obtain ⟨hpre, -, hsuf⟩ := h
  -- the end is not in the place of the new part
  have hsuf' : HoldsAt (writeAt m (a + pre.length) new) (a + pre.length + old.length) suf :=
    hsuf.writeAt_apart (.inr (by omega))
  rw [shrinkAt, show readAt _ _ suf.length = suf from hsuf', holdsAt_append, holdsAt_append]
  refine ⟨?_, ?_, holdsAt_writeAt _ _ _⟩
  · exact (hpre.writeAt_apart (.inl (by omega))).writeAt_apart (.inl (by omega))
  · exact (holdsAt_writeAt _ _ _).writeAt_apart (.inl (by omega))

variable (new) in
theorem holdsAt_growAt (h : HoldsAt m a (pre ++ (old ++ suf))) :
    HoldsAt (growAt m (a + pre.length) old.length new suf.length) a (pre ++ (new ++ suf)) := by
  rw [holdsAt_append, holdsAt_append] at h
  obtain ⟨hpre, -, hsuf⟩ := h
  rw [growAt, show readAt _ _ suf.length = suf from hsuf, holdsAt_append, holdsAt_append]
  refine ⟨?_, holdsAt_writeAt _ _ _, ?_⟩
  · exact (hpre.writeAt_apart (.inl (by omega))).writeAt_apart (.inl (by omega))
  · exact (holdsAt_writeAt _ _ _).writeAt_apart (.inr (by omega))

theorem shrinkAt_outside {rest x : ℕ} (hle : new.length ≤ k) (h : x < b ∨ b + k + rest ≤ x) :
    shrinkAt m b k new rest x = m x := by
  rw [shrinkAt, writeAt_outside, writeAt_outside]
  · omega
  · rw [length_readAt]
    omega

theorem growAt_outside {rest x : ℕ} (h : x < b ∨ b + new.length + rest ≤ x) :
    growAt m b k new rest x = m x := by
  rw [growAt, writeAt_outside, writeAt_outside]
  · rw [length_readAt]
    omega
  · omega

theorem readAt_writeAt_sub (m : ℕ → α) {w x c : ℕ} (h : 0 < n → CellsApart b n a w) (hx : b ≤ x)
    (hk : x + k ≤ b + n) (hc : a ≤ c) (hbs : c + bs.length ≤ a + w) :
    readAt (writeAt m c bs) x k = readAt m x k := by
  rcases Nat.eq_zero_or_pos k with rfl | hpos
  · rfl
  · have hapart := h (by omega)
    rw [CellsApart] at hapart
    exact readAt_writeAt_apart m (by rw [CellsApart]; omega)

theorem copy_replaced (m : ℕ → α) {o l : ℕ} (new : List α)
    (h : 0 < n + o + k + l → CellsApart b (n + o + k + l) a (n + o + new.length + l)) :
    (let m₁ := writeAt m a (readAt m b n)
     let m₂ := writeAt m₁ (a + n) (readAt m₁ (b + n) o)
     let m₃ := writeAt m₂ (a + n + o) new
     writeAt m₃ (a + n + o + new.length) (readAt m₃ (b + n + o + k) l))
      = writeAt m a
        (readAt m b n ++ (readAt m (b + n) o ++ (new ++ readAt m (b + n + o + k) l))) := by
  have hlen₁ := length_readAt m b n
  have hlen₂ := length_readAt m (b + n) o
  dsimp only
  -- the reads are those of the memory before the writes
  rw [readAt_writeAt_sub (writeAt (writeAt m a _) _ _) h (by omega) (by omega) (by omega)
      (by omega),
    readAt_writeAt_sub (writeAt m a _) h (by omega) (by omega) (by omega)
      (by rw [length_readAt]; omega),
    readAt_writeAt_sub m h (by omega) (by omega) (by omega) (by rw [length_readAt]; omega),
    readAt_writeAt_sub m h (by omega) (by omega) (by omega) (by rw [length_readAt]; omega)]
  have hfirst := writeAt_append m a (readAt m b n) (readAt m (b + n) o)
  rw [hlen₁] at hfirst
  have hsecond := writeAt_append m a (readAt m b n ++ readAt m (b + n) o) new
  rw [List.length_append, hlen₁, hlen₂, ← Nat.add_assoc] at hsecond
  have hthird := writeAt_append m a (readAt m b n ++ readAt m (b + n) o ++ new)
    (readAt m (b + n + o + k) l)
  rw [List.length_append, List.length_append, hlen₁, hlen₂, ← Nat.add_assoc, ← Nat.add_assoc]
    at hthird
  rw [hfirst, hsecond, hthird, List.append_assoc, List.append_assoc]

end SmartHAProxy
