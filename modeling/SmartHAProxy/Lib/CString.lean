/-
C strings and the few functions of the C library that parse them.

A C string is kept as the list of its bytes without the terminator, so
`strlen` is `List.length` and `strcmp` is equality.  A text file is a list of
bytes as well.  `char` is signed on the platforms considered here, hence
`charVal`: a byte from 128 on counts as negative.

Pointers that may be NULL are options, and what the C standard leaves
undefined (a NULL dereference, an access outside an array, a copy that does
not fit its destination) is a `Fault`: a run that reaches one has no result.
-/
import Mathlib.Data.List.Basic
import Mathlib.Data.List.TakeWhile

namespace SmartHAProxy

/-- The content of a C string, or of a file. -/
abbrev CStr := List UInt8

def bytes (s : String) : CStr := s.toList.map fun c => UInt8.ofNat c.toNat

/-- The value of a (signed) `char`. -/
def charVal (b : UInt8) : Int := b.toInt8.toInt

/-- What a C program may run into instead of a result. -/
inductive Fault
  | nullPointer
  | outOfBounds
  | overflow
  deriving DecidableEq, Repr

/-! ### strcpy, strcat, strchr -/

/-- Copying `src` and its terminator into a buffer of `room` bytes. -/
def strcpy (room : ℕ) (src : CStr) : Except Fault CStr :=
  if src.length < room then .ok src else .error .overflow

/-- `strchr (s, c) != NULL`.  The terminator counts as part of the string. -/
def strchr (s : CStr) (c : UInt8) : Bool := c = 0 || s.contains c

theorem strcpy_eq_ok {room : ℕ} {src s : CStr} :
    strcpy room src = .ok s ↔ src.length < room ∧ s = src := by
  unfold strcpy
  split_ifs with h
  · simp [h, eq_comm]
  · simp [h]

theorem strchr_eq_true {s : CStr} {c : UInt8} (hc : c ≠ 0) :
    strchr s c = true ↔ c ∈ s := by
  simp [strchr, hc]

/-! ### strtok -/

/-- One call of `strtok` with a single delimiter: skip delimiters, cut the
token at the next delimiter, and remember what follows it.  `none` is the
NULL pointer, returned when only delimiters are left. -/
def strtok (delim : UInt8) (s : CStr) : Option (CStr × CStr) :=
  match s.dropWhile (· == delim) with
  | [] => none
  | c :: cs =>
    let tok := (c :: cs).takeWhile (· != delim)
    some (tok, (c :: cs).drop (tok.length + 1))

theorem strtok_delim (delim : UInt8) (s : CStr) : strtok delim (delim :: s) = strtok delim s := by
  rw [strtok, strtok, List.dropWhile_cons_of_pos (by simp)]

/-- A non-empty column that ends the string is the next token. -/
theorem strtok_last {delim : UInt8} {col : CStr} (hne : col ≠ []) (hcol : delim ∉ col) :
    strtok delim col = some (col, []) := by
  have hall : ∀ b ∈ col, (b != delim) = true := fun b hb => by
    simpa using fun h : b = delim => hcol (h ▸ hb)
  obtain ⟨c, cs, rfl⟩ := List.exists_cons_of_ne_nil hne
  have hc : ¬(c == delim) = true := by simpa using hall c List.mem_cons_self
  have hskip : (c :: cs).dropWhile (· == delim) = c :: cs := List.dropWhile_cons_of_neg hc
  rw [strtok, hskip]
  simp only [List.takeWhile_eq_self_iff.mpr hall]
  rw [List.drop_eq_nil_of_le (Nat.le_succ _)]

/-- A non-empty column followed by a delimiter is the next token. -/
theorem strtok_column {delim : UInt8} {col : CStr} (hne : col ≠ []) (hcol : delim ∉ col)
    (rest : CStr) : strtok delim (col ++ delim :: rest) = some (col, rest) := by
  have hall : ∀ b ∈ col, (b != delim) = true := fun b hb => by
    simpa using fun h : b = delim => hcol (h ▸ hb)
  obtain ⟨c, cs, rfl⟩ := List.exists_cons_of_ne_nil hne
  have hc : ¬(c == delim) = true := by simpa using hall c List.mem_cons_self
  have htake : (c :: (cs ++ delim :: rest)).takeWhile (· != delim) = c :: cs := by
    rw [← List.cons_append, List.takeWhile_append_of_pos hall]
    simp
  have hskip : (c :: (cs ++ delim :: rest)).dropWhile (· == delim)
      = c :: (cs ++ delim :: rest) := List.dropWhile_cons_of_neg hc
  rw [strtok, List.cons_append, hskip]
  simp only [htake]
  simp

/-! ### fgets -/

/-- The bytes one `fgets` into a buffer of `room` bytes consumes: at most
`room - 1`, and none after a newline. -/
def fgetsRow : ℕ → List UInt8 → List UInt8
  | 0, _ => []
  | _ + 1, [] => []
  | room + 1, b :: bs => if b = 10 then [b] else b :: fgetsRow room bs

theorem fgetsRow_length_pos (room : ℕ) (b : UInt8) (bs : List UInt8) :
    0 < (fgetsRow (room + 1) (b :: bs)).length := by
  simp only [fgetsRow]
  split_ifs <;> simp

/-- The successive rows `fgets` delivers, reading at most `fuel` of them. -/
def fgetsRows (room : ℕ) : ℕ → List UInt8 → List (List UInt8)
  | 0, _ => []
  | _ + 1, [] => []
  | fuel + 1, b :: bs =>
    let row := fgetsRow (room - 1) (b :: bs)
    row :: fgetsRows room fuel ((b :: bs).drop row.length)

/-- The rows of a whole file.  Every row has at least one byte, so the length
of the file is fuel enough (`fgetsRows_fuel`). -/
def fgetsAll (room : ℕ) (file : List UInt8) : List (List UInt8) :=
  fgetsRows room file.length file

theorem fgetsRows_fuel {room : ℕ} (hroom : 2 ≤ room) :
    ∀ {fuel fuel' : ℕ} {file : List UInt8}, file.length ≤ fuel → file.length ≤ fuel' →
      fgetsRows room fuel file = fgetsRows room fuel' file
  | 0, fuel', file, h, _ => by
    obtain rfl : file = [] := List.length_eq_zero_iff.mp (by omega)
    cases fuel' <;> rfl
  | fuel + 1, 0, file, _, h' => by
    obtain rfl : file = [] := List.length_eq_zero_iff.mp (by omega)
    rfl
  | fuel + 1, fuel' + 1, [], _, _ => rfl
  | fuel + 1, fuel' + 1, b :: bs, h, h' => by
    simp only [List.length_cons] at h h'
    obtain ⟨r, hr⟩ : ∃ r, room - 1 = r + 1 := ⟨room - 2, by omega⟩
    have hpos := fgetsRow_length_pos r b bs
    have hlen : ((b :: bs).drop (fgetsRow (room - 1) (b :: bs)).length).length
        ≤ bs.length := by
      rw [hr, List.length_drop, List.length_cons]
      omega
    simp only [fgetsRows]
    rw [fgetsRows_fuel hroom (by omega : _ ≤ fuel) (by omega : _ ≤ fuel')]

/-- A line that fits is delivered whole. -/
theorem fgetsRow_line {room : ℕ} {line rest : List UInt8} (hnl : (10 : UInt8) ∉ line)
    (hfit : line.length < room) :
    fgetsRow room (line ++ 10 :: rest) = line ++ [10] := by
  induction line generalizing room with
  | nil =>
    obtain ⟨room, rfl⟩ := Nat.exists_eq_succ_of_ne_zero (Nat.ne_zero_of_lt hfit)
    rfl
  | cons b bs ih =>
    obtain ⟨room, rfl⟩ := Nat.exists_eq_succ_of_ne_zero (Nat.ne_zero_of_lt hfit)
    have hb : b ≠ 10 := fun h => hnl (h ▸ List.mem_cons_self)
    rw [List.cons_append, fgetsRow, if_neg hb,
      ih (fun h => hnl (List.mem_cons_of_mem b h)) (Nat.lt_of_succ_lt_succ hfit)]
    rfl

/-- Reading a file whose first line fits. -/
theorem fgetsAll_line {room : ℕ} {line rest : List UInt8} (hnl : (10 : UInt8) ∉ line)
    (hfit : line.length + 1 < room) :
    fgetsAll room (line ++ 10 :: rest) = (line ++ [10]) :: fgetsAll room rest := by
  have hrow : fgetsRow (room - 1) (line ++ 10 :: rest) = line ++ [10] :=
    fgetsRow_line hnl (by omega)
  have hdrop : (line ++ 10 :: rest).drop (line ++ [10]).length = rest := by
    rw [show line ++ 10 :: rest = (line ++ [10]) ++ rest by simp, List.drop_left]
  obtain ⟨b, bs, hb⟩ : ∃ b bs, line ++ 10 :: rest = b :: bs := by
    rcases line with - | ⟨b, bs⟩ <;> simp
  have hlen : (line ++ 10 :: rest).length = bs.length + 1 := by rw [hb]; rfl
  have hrest : rest.length ≤ bs.length := by
    simp only [List.length_append, List.length_cons] at hlen
    omega
  rw [fgetsAll, hlen, hb, fgetsRows]
  rw [← hb, hrow, hdrop, fgetsAll, fgetsRows_fuel (by omega) hrest (Nat.le_refl _)]

end SmartHAProxy
