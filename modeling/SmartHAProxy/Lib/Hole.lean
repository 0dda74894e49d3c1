/-
Data with a hole.

Records that are folded in place leave a hole of stale bytes between the folded part and the
rest of the data.  `closed xs n hole` is the data without the hole, which stands behind the
first `n` bytes, or at the end while these are not all there.  Folding one more record moves
the bytes behind its header and enlarges the hole; without the hole, it takes the header away
(`closed_fold`).
-/
import SmartHAProxy.Lib.Memory

namespace SmartHAProxy

variable {α : Type*} {xs : List α} {n hole : ℕ}

/-- The data without the hole of `hole` bytes behind the first `n` ones. -/
def closed (xs : List α) (n hole : ℕ) : List α :=
  (xs.take (xs.length - hole)).take n ++ xs.drop (n + hole)

@[simp] theorem closed_zero (xs : List α) (n : ℕ) : closed xs n 0 = xs := by
  rw [closed, Nat.sub_zero, List.take_length, Nat.add_zero, List.take_append_drop]

theorem closed_of_le (h : n + hole ≤ xs.length) :
    closed xs n hole = xs.take n ++ xs.drop (n + hole) := by
  rw [closed, List.take_take, Nat.min_eq_left (by omega)]

theorem closed_of_ge (h : xs.length ≤ n + hole) :
    closed xs n hole = xs.take (xs.length - hole) := by
  rw [closed, List.take_take, Nat.min_eq_right (by omega), List.drop_eq_nil_of_le h,
    List.append_nil]

theorem length_closed (h : hole ≤ xs.length) : (closed xs n hole).length = xs.length - hole := by
  simp only [closed, List.length_append, List.length_take, List.length_drop]
  omega

theorem drop_closed (h : n + hole ≤ xs.length) (k : ℕ) :
    (closed xs n hole).drop (n + k) = xs.drop (n + hole + k) := by
  have hlen : (xs.take n).length = n := List.length_take_of_le (by omega)
  rw [closed_of_le h, ← List.drop_drop, List.drop_left' hlen, List.drop_drop]

theorem take_closed (h : n + hole ≤ xs.length) {k : ℕ} (hk : k ≤ n) :
    (closed xs n hole).take k = xs.take k := by
  have hlen : (xs.take n).length = n := List.length_take_of_le (by omega)
  rw [closed_of_le h, List.take_append_of_le_length (by omega), List.take_take,
    Nat.min_eq_left hk]

/-- **One more record is folded**: of the `n` bytes the last `pad` ones are dropped, and so are
the `k` bytes behind them, where the record of length `len` begins. -/
theorem closed_fold {pad k len : ℕ} (h : n + hole + k ≤ xs.length) (hpad : pad ≤ n) :
    closed (overwrite xs (n - pad) ((xs.drop (n + hole + k)).take len)) (n + len - pad)
        (hole + (pad + k)) =
      (closed xs n hole).take (n - pad) ++ (closed xs n hole).drop (n + k) := by
  obtain ⟨ys, hys⟩ : ∃ ys, xs.drop (n + hole + k) = ys := ⟨_, rfl⟩
  have hlen : ys.length = xs.length - (n + hole + k) := by rw [← hys, List.length_drop]
  have htake : (ys.take len).length = min len ys.length := List.length_take
  have hpre : (xs.take (n - pad)).length = n - pad := List.length_take_of_le (by omega)
  rw [take_closed (by omega) (Nat.sub_le n pad), drop_closed (by omega), hys]
  obtain ⟨zs, hzs⟩ : ∃ zs, overwrite xs (n - pad) (ys.take len) = zs := ⟨_, rfl⟩
  have hwrite : ys.take len = [] ∨ n - pad + (ys.take len).length ≤ xs.length := by omega
  have hzlen : zs.length = xs.length := by rw [← hzs, length_overwrite hwrite]
  have hzs' : zs = xs.take (n - pad) ++ ys.take len ++ xs.drop (n - pad + (ys.take len).length) :=
    hzs.symm
  have hfront : (xs.take (n - pad) ++ ys.take len).length = n - pad + (ys.take len).length := by
    rw [List.length_append, hpre]
  rw [hzs]
  rcases Nat.lt_or_ge len ys.length with hlt | hge
  · -- the record is all there
    have hrest : zs.drop (n + len - pad + (hole + (pad + k))) = ys.drop len := by
      rw [hzs', List.drop_append, List.drop_eq_nil_of_le (by omega), List.nil_append, hfront, ← hys,
        List.drop_drop, List.drop_drop]
      congr 1
      rw [hys]
      omega
    rw [closed_of_le (by omega), hrest, hzs', List.take_left' (by omega), List.append_assoc,
      List.take_append_drop]
  · rw [closed_of_ge (by omega), hzlen, hzs', List.take_left' (by omega),
      List.take_of_length_le hge]

end SmartHAProxy
