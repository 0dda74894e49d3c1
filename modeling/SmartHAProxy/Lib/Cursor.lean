/-
Parsers that move a cursor over bytes, with the accesses that they should not make.

`Cursor.byte` reads what stands at the cursor, whether or not this is within the bytes; a
read behind them is a fault.  A parser is safe when it makes no fault and leaves the cursor
within the bytes (`Cursor.Safe`), whatever the bytes are.  Safe parsers compose, and a check
of the room followed by as many reads is safe (`Cursor.safe_take`).
-/
import Mathlib.Algebra.Order.Ring.Nat

namespace SmartHAProxy

variable {data : List UInt8} {n : ℕ}

/-- An access that must not happen: a read of a byte behind the end, or of an entry that a
table does not have. -/
inductive MemFault
  | read | index
  deriving DecidableEq

/-- A parser: a fault, or a result or none, and where the cursor is then. -/
def Cursor (α : Type) := List UInt8 → ℕ → Except MemFault (Option α × ℕ)

namespace Cursor

variable {α β : Type}
variable {p : Cursor α} {f : α → Cursor β} {a : α}

/-! ### Operations -/

def fail : Cursor α := fun _ pos => .ok (none, pos)

def fault (e : MemFault) : Cursor α := fun _ _ => .error e

def andThen (p : Cursor α) (f : α → Cursor β) : Cursor β := fun data pos =>
  match p data pos with
  | .error e => .error e
  | .ok (none, pos) => .ok (none, pos)
  | .ok (some a, pos) => f a data pos

instance monadCursor : Monad Cursor where
  pure a := fun _ pos => .ok (some a, pos)
  bind := andThen

def pos : Cursor ℕ := fun _ pos => .ok (some pos, pos)

def stop : Cursor ℕ := fun data pos => .ok (some data.length, pos)

/-- What the difference of the end and the cursor is as a 64-bit number. -/
def room : Cursor ℕ := fun data pos =>
  .ok (some (if pos ≤ data.length then data.length - pos else 2 ^ 64 - (pos - data.length)), pos)

def peek : Cursor UInt8 := fun data pos =>
  match data[pos]? with
  | none => .error .read
  | some b => .ok (some b, pos)

/-- The byte at the cursor, which moves on. -/
def byte : Cursor UInt8 := fun data pos =>
  match data[pos]? with
  | none => .error .read
  | some b => .ok (some b, pos + 1)

def bytes : ℕ → Cursor (List UInt8)
  | 0 => pure []
  | n + 1 => do
    let b ← byte
    let bs ← bytes n
    pure (b :: bs)

def next : Cursor UInt8 := do
  if (← stop) ≤ (← pos) then fail else byte

def take (n : ℕ) : Cursor (List UInt8) := do
  if (← room) < n then fail else bytes n

def rest : Cursor (List UInt8) := do
  bytes (← room)

/-- The bytes that are zero, up to some number: how many. -/
def zeros : ℕ → Cursor ℕ
  | 0 => pure 0
  | n + 1 => do
    if (← pos) < (← stop) then
      if (← peek) = 0 then do
        let _ ← byte
        let k ← zeros n
        pure (k + 1)
      else pure 0
    else pure 0

/-! ### Runs -/

theorem pure_run (a : α) (data : List UInt8) (n : ℕ) :
    (pure a : Cursor α) data n = .ok (some a, n) := rfl

theorem bind_run {m : ℕ} (h : p data n = .ok (some a, m)) : (p >>= f) data n = f a data m := by
  show andThen p f data n = _
  simp only [andThen, h]

theorem bind_run_none {m : ℕ} (h : p data n = .ok (none, m)) :
    (p >>= f) data n = .ok (none, m) := by
  show andThen p f data n = _
  simp only [andThen, h]

theorem byte_run (h : n < data.length) : byte data n = .ok (some data[n], n + 1) := by
  rw [byte, List.getElem?_eq_getElem h]

theorem peek_run (h : n < data.length) : peek data n = .ok (some data[n], n) := by
  rw [peek, List.getElem?_eq_getElem h]

theorem room_run (h : n ≤ data.length) : room data n = .ok (some (data.length - n), n) := by
  rw [room, if_pos h]

theorem bytes_run {k : ℕ} (h : n + k ≤ data.length) :
    bytes k data n = .ok (some ((data.drop n).take k), n + k) := by
  induction k generalizing n with
  | zero => rfl
  | succ k ih =>
    have hn : n < data.length := by omega
    rw [bytes, bind_run (byte_run hn), bind_run (ih (by omega)), pure_run,
      List.drop_eq_getElem_cons hn, List.take_succ_cons, Nat.add_assoc, Nat.add_comm 1 k]

/-! ### Safety -/

/-- From a cursor within the bytes, no fault, and the cursor stays there and never moves
back. -/
def Safe (p : Cursor α) : Prop :=
  ∀ (data : List UInt8) (n : ℕ), n ≤ data.length →
    ∃ r m, p data n = .ok (r, m) ∧ n ≤ m ∧ m ≤ data.length

theorem safe_pure (a : α) : Safe (pure a : Cursor α) :=
  fun _ n h => ⟨some a, n, rfl, le_refl n, h⟩

theorem safe_fail : Safe (fail : Cursor α) :=
  fun _ n h => ⟨none, n, rfl, le_refl n, h⟩

theorem Safe.bind (hp : Safe p) (hf : ∀ a, Safe (f a)) : Safe (p >>= f) := by
  intro data n hn
  obtain ⟨r, m, hrun, hnm, hm⟩ := hp data n hn
  rcases r with - | a
  · exact ⟨none, m, bind_run_none hrun, hnm, hm⟩
  · obtain ⟨r, k, hrun', hmk, hk⟩ := hf a data m hm
    exact ⟨r, k, (bind_run hrun).trans hrun', hnm.trans hmk, hk⟩

theorem Safe.ite {q : Cursor α} {c : Prop} [Decidable c] (hp : Safe p) (hq : Safe q) :
    Safe (if c then p else q) := by
  split_ifs
  · exact hp
  · exact hq

theorem safe_next : Safe next := by
  intro data n hn
  rcases Nat.lt_or_eq_of_le hn with hlt | rfl
  · refine ⟨some data[n], n + 1, ?_, Nat.le_succ n, hlt⟩
    show (if data.length ≤ n then fail else byte : Cursor UInt8) data n = _
    rw [if_neg (Nat.not_le.mpr hlt), byte_run hlt]
  · refine ⟨none, data.length, ?_, le_refl _, le_refl _⟩
    show (if data.length ≤ data.length then fail else byte : Cursor UInt8) data _ = _
    rw [if_pos (le_refl _)]
    rfl

/-- **A check of the room, and as many reads.** -/
theorem safe_take (k : ℕ) : Safe (take k) := by
  intro data n hn
  rw [take, bind_run (room_run hn)]
  split_ifs with hk
  · exact ⟨none, n, rfl, le_refl n, hn⟩
  · exact ⟨_, n + k, bytes_run (by omega), Nat.le_add_right n k, by omega⟩

theorem safe_rest : Safe rest := by
  intro data n hn
  rw [rest, bind_run (room_run hn)]
  exact ⟨_, n + (data.length - n), bytes_run (by omega), by omega, by omega⟩

theorem safe_zeros (k : ℕ) : Safe (zeros k) := by
  induction k with
  | zero => exact safe_pure 0
  | succ k ih =>
    intro data n hn
    rcases Nat.lt_or_eq_of_le hn with hlt | rfl
    · have hstep : zeros (k + 1) data n =
          (if data[n] = 0 then do
            let _ ← byte
            let k ← zeros k
            pure (k + 1)
          else pure 0 : Cursor ℕ) data n := by
        show (if n < data.length then _ else pure 0 : Cursor ℕ) data n = _
        rw [if_pos hlt, bind_run (peek_run hlt)]
      rw [hstep]
      split_ifs
      · obtain ⟨r, m, hrun, hnm, hm⟩ := ih.bind (f := fun k => pure (k + 1))
          (fun k => safe_pure _) data (n + 1) hlt
        exact ⟨r, m, (bind_run (byte_run hlt)).trans hrun, Nat.le_of_succ_le hnm, hm⟩
      · exact ⟨some 0, n, rfl, le_refl n, hn⟩
    · refine ⟨some 0, data.length, ?_, le_refl _, le_refl _⟩
      show (if data.length < data.length then _ else pure 0 : Cursor ℕ) data _ = _
      rw [if_neg (lt_irrefl _)]
      rfl

/-! ### What is read -/

/-- The parser reads `a` off the bytes `bs`, whatever follows. -/
def ReadsFirst (p : Cursor α) (bs : List UInt8) (a : α) : Prop :=
  ∀ pre rest : List UInt8,
    p (pre ++ (bs ++ rest)) pre.length = .ok (some a, (pre ++ bs).length)

/-- The parser reads `a` off the bytes `bs`, which are the last ones. -/
def ReadsAll (p : Cursor α) (bs : List UInt8) (a : α) : Prop :=
  ∀ pre : List UInt8, p (pre ++ bs) pre.length = .ok (some a, (pre ++ bs).length)

theorem ReadsFirst.all {bs : List UInt8} (h : ReadsFirst p bs a) : ReadsAll p bs a := by
  intro pre
  have hrun := h pre []
  rwa [List.append_nil] at hrun

theorem ReadsFirst.bind {bs bs' : List UInt8} {b : β} (h : ReadsFirst p bs a)
    (h' : ReadsAll (f a) bs' b) : ReadsAll (p >>= f) (bs ++ bs') b := by
  intro pre
  rw [bind_run (h pre bs'), ← List.append_assoc]
  exact h' (pre ++ bs)

theorem readsAll_pure (a : α) : ReadsAll (pure a : Cursor α) [] a := by
  intro pre
  rw [List.append_nil]
  rfl

theorem readsFirst_take (data : List UInt8) : ReadsFirst (take data.length) data data := by
  intro pre rest
  have hlen : pre.length ≤ (pre ++ (data ++ rest)).length := by
    rw [List.length_append]
    omega
  have hfit : pre.length + data.length ≤ (pre ++ (data ++ rest)).length := by
    simp only [List.length_append]
    omega
  rw [take, bind_run (room_run hlen), if_neg (by omega),
    bytes_run hfit, List.drop_left, List.take_left, List.length_append]

theorem readsFirst_next (b : UInt8) : ReadsFirst next [b] b := by
  intro pre rest
  have hlt : pre.length < (pre ++ ([b] ++ rest)).length := by
    rw [List.length_append, List.length_append, List.length_singleton]
    omega
  have hget : (pre ++ ([b] ++ rest))[pre.length] = b := by
    rw [List.getElem_append_right (Nat.le_refl _)]
    simp
  show (if (pre ++ ([b] ++ rest)).length ≤ pre.length then fail else byte :
    Cursor UInt8) _ _ = _
  rw [if_neg (Nat.not_le.mpr hlt), byte_run hlt, hget, List.length_append,
    List.length_singleton]

theorem readsAll_rest (data : List UInt8) : ReadsAll rest data data := by
  intro pre
  have hlen : pre.length ≤ (pre ++ data).length := by
    rw [List.length_append]
    omega
  have hroom : (pre ++ data).length - pre.length = data.length := by
    rw [List.length_append, Nat.add_sub_cancel_left]
  rw [rest, bind_run (room_run hlen), hroom,
    bytes_run (by rw [List.length_append]), List.drop_left, List.take_length,
    List.length_append]

theorem zeros_run (k : ℕ) (pre : List UInt8) :
    zeros k (pre ++ List.replicate k 0) pre.length =
      .ok (some k, (pre ++ List.replicate k 0).length) := by
  induction k generalizing pre with
  | zero =>
    rw [List.replicate_zero, List.append_nil]
    rfl
  | succ k ih =>
    have hlt : pre.length < (pre ++ List.replicate (k + 1) 0).length := by
      rw [List.length_append, List.length_replicate]
      omega
    have hget : (pre ++ List.replicate (k + 1) (0 : UInt8))[pre.length] = 0 := by
      rw [List.getElem_append_right (Nat.le_refl _), List.getElem_replicate]
    have hsplit : pre ++ List.replicate (k + 1) (0 : UInt8) =
        (pre ++ [0]) ++ List.replicate k 0 := by
      rw [List.append_assoc, List.replicate_succ, List.singleton_append]
    have hpos : pre.length + 1 = (pre ++ [(0 : UInt8)]).length := by
      rw [List.length_append, List.length_singleton]
    show (if pre.length < (pre ++ List.replicate (k + 1) 0).length then _ else pure 0 :
      Cursor ℕ) _ _ = _
    rw [if_pos hlt, bind_run (peek_run hlt), hget, if_pos rfl,
      bind_run (byte_run hlt), hpos, hsplit, bind_run (ih (pre ++ [0])),
      pure_run]

end Cursor

end SmartHAProxy
