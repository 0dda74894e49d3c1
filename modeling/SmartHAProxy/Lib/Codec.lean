/-
Builders that fill a buffer and parsers that read it back.

A builder checks the room in front of the end of its buffer before it writes, or does not;
memory itself has no end, so that the model keeps what has been written apart from the size
of the buffer and from the position.  `Builds f bs` says that `f` writes exactly `bs`, where
they fit, and `Parses p bs a` that `p` reads `a` off them and stops behind.  Both compose.
-/
import Mathlib.Algebra.Ring.Nat
import SmartHAProxy.Lib.Memory

namespace SmartHAProxy

/-! ### Big-endian numbers -/

/-- The low `n` bytes of a number, the most significant one first. -/
def beBytes : ℕ → ℕ → List UInt8
  | 0, _ => []
  | n + 1, v => UInt8.ofNat (v >>> (8 * n)) :: beBytes n v

/-- The number whose bytes follow `v`. -/
def beFold (v : ℕ) (bs : List UInt8) : ℕ := bs.foldl (fun v b => (v <<< 8) ||| b.toNat) v

@[simp] theorem length_beBytes (n v : ℕ) : (beBytes n v).length = n := by
  induction n with
  | zero => rfl
  | succ n ih => rw [beBytes, List.length_cons, ih]

theorem shiftLeft_or_byte (v : ℕ) (b : UInt8) : (v <<< 8) ||| b.toNat = v * 256 + b.toNat := by
  rw [← Nat.shiftLeft_add_eq_or_of_lt b.toNat_lt, Nat.shiftLeft_eq]

theorem beFold_beBytes (n v w : ℕ) : beFold w (beBytes n v) = w * 2 ^ (8 * n) + v % 2 ^ (8 * n) := by
  induction n generalizing w with
  | zero => simp [beFold, beBytes, Nat.mod_one]
  | succ n ih =>
    have hstep : beFold w (beBytes (n + 1) v) =
        beFold ((w <<< 8) ||| (UInt8.ofNat (v >>> (8 * n))).toNat) (beBytes n v) := rfl
    have hbyte : (UInt8.ofNat (v >>> (8 * n))).toNat = v / 2 ^ (8 * n) % 256 := by
      rw [UInt8.toNat_ofNat', Nat.shiftRight_eq_div_pow]
    have hmod : v % 2 ^ (8 * (n + 1)) = v / 2 ^ (8 * n) % 256 * 2 ^ (8 * n) + v % 2 ^ (8 * n) := by
      have hpow : 2 ^ (8 * (n + 1)) = 2 ^ (8 * n) * 256 := by
        rw [Nat.mul_succ, Nat.pow_add]
      rw [hpow, Nat.mod_mul, Nat.add_comm, Nat.mul_comm (2 ^ (8 * n))]
    have hpow : 2 ^ (8 * (n + 1)) = 256 * 2 ^ (8 * n) := by
      rw [Nat.mul_succ, Nat.pow_add, Nat.mul_comm]
    rw [hstep, ih, shiftLeft_or_byte, hbyte, hmod, hpow, Nat.add_mul, Nat.mul_assoc,
      Nat.add_assoc]

/-! ### Buffers -/

/-- A buffer that is being filled: the memory from its start on, as far as it has been
written, the current position, and the offset of its end. -/
structure OutBuf where
  out : List UInt8
  pos : ℕ
  size : ℕ
  deriving DecidableEq

namespace OutBuf

/-- A buffer of `size` bytes into which `l` has been written. -/
def of (l : List UInt8) (size : ℕ) : OutBuf := ⟨l, l.length, size⟩

/-- `end - *buf`. -/
def room (b : OutBuf) : ℕ := b.size - b.pos

/-- `memcpy (*buf, data, len)`. -/
def write (b : OutBuf) (data : List UInt8) : OutBuf :=
  { b with out := overwrite b.out b.pos data }

/-- `*buf += n`. -/
def skip (b : OutBuf) (n : ℕ) : OutBuf := { b with pos := b.pos + n }

def put (b : OutBuf) (data : List UInt8) : OutBuf := (b.write data).skip data.length

@[simp] theorem room_of (l : List UInt8) (size : ℕ) : (of l size).room = size - l.length := rfl

theorem write_of (l data : List UInt8) (size : ℕ) :
    (of l size).write data = ⟨l ++ data, l.length, size⟩ := by
  show OutBuf.mk (overwrite l l.length data) _ _ = _
  rw [overwrite, List.take_length, List.drop_of_length_le (Nat.le_add_right _ _), List.append_nil]
  rfl

@[simp] theorem put_of (l data : List UInt8) (size : ℕ) :
    (of l size).put data = of (l ++ data) size := by
  rw [put, write_of, of, List.length_append]
  rfl

end OutBuf

/-! ### Builders -/

/-- The builder writes `bs` if they fit, and fails if not. -/
def Builds (f : OutBuf → Option OutBuf) (bs : List UInt8) : Prop :=
  ∀ l size, l.length ≤ size →
    f (.of l size) = if l.length + bs.length ≤ size then some (.of (l ++ bs) size) else none

theorem builds_nil : Builds some [] := by
  intro l size h
  rw [List.append_nil, List.length_nil, Nat.add_zero, if_pos h]

theorem Builds.bind {f g : OutBuf → Option OutBuf} {bs cs : List UInt8} (hf : Builds f bs)
    (hg : Builds g cs) : Builds (fun b => (f b).bind g) (bs ++ cs) := by
  intro l size h
  show (f (.of l size)).bind g = _
  rw [hf l size h, List.length_append, ← Nat.add_assoc]
  by_cases hbs : l.length + bs.length ≤ size
  · rw [if_pos hbs, Option.bind_some, hg _ _ (by rwa [List.length_append]), List.length_append,
      List.append_assoc]
  · rw [if_neg hbs, if_neg (fun hcs => hbs (by omega))]
    rfl

theorem builds_put (data : List UInt8) :
    Builds (fun b => if b.room < data.length then none else some (b.put data)) data := by
  intro l size h
  show (if (OutBuf.of l size).room < _ then none else some ((OutBuf.of l size).put data)) = _
  rw [OutBuf.room_of, OutBuf.put_of]
  by_cases hfit : l.length + data.length ≤ size
  · rw [if_neg (by omega), if_pos hfit]
  · rw [if_pos (by omega), if_neg hfit]

theorem Builds.eq_some {f : OutBuf → Option OutBuf} {bs l : List UInt8} {size : ℕ} {b : OutBuf}
    (hf : Builds f bs) (h : l.length ≤ size) (hb : f (.of l size) = some b) :
    l.length + bs.length ≤ size ∧ b = .of (l ++ bs) size := by
  rw [hf l size h] at hb
  split_ifs at hb with hfit
  · exact ⟨hfit, (Option.some.inj hb).symm⟩

/-! ### Parsers -/

/-- The parser reads `a` off `bs` and leaves what follows. -/
def Parses {α : Type*} (p : List UInt8 → Option (α × List UInt8)) (bs : List UInt8) (a : α) :
    Prop :=
  ∀ rest, p (bs ++ rest) = some (a, rest)

end SmartHAProxy
