/-
Decoding arbitrary bytes, and the limits of the round trip.

A length that comes from the other side is added to the address before it is
compared with the end.  The sum may wrap around, and what wraps around is always
accepted: a decoding call stays inside exactly when its sum does not wrap
(`spoeDecodeBuffer_safe_iff`, `spoeDecodeData_safe_iff`).

The round trip has limits as well: the strings that do not make it are those of
`2 ^ 32 - 1` bytes or more, and those that are as long with their type and length
(`roundTrips_iff`).
-/
import SmartHAProxy.Spoe.RoundTrip

namespace SmartHAProxy

variable {data : List UInt8} {n buf : ℕ} {type : UInt8}

/-! ### What a typed data takes -/

/-- The bytes of the number at the start of the data, and its value. -/
def varintAt (data : List UInt8) : Option (ℕ × ℕ) :=
  (decodeVarint data).map fun r => (data.length - r.2.length, r.1.toNat)

/-- The bytes that a typed data takes by its type and the length it announces,
whether they are there or not. -/
def spoeExtent : List UInt8 → Option ℕ
  | [] => none
  | type :: data =>
    match spoeType type with
    | 2 | 3 | 4 | 5 => (varintAt data).map fun r => 1 + r.1
    | 6 => some 5
    | 7 => some 17
    | 8 | 9 => (varintAt data).map fun r => 1 + r.1 + r.2
    | _ => some 1

/-- The length announced for a string is the error code of `spoe_decode_buffer`. -/
def announcesError : List UInt8 → Bool
  | [] => false
  | type :: data =>
    (spoeType type == 8 || spoeType type == 9) &&
      match varintAt data with
      | some (_, sz) => sz % 2 ^ 32 == 2 ^ 32 - 1
      | none => false

/-- A call that fails does not move `*buf`, one that succeeds takes what is there. -/
def BufferRead.Safe (r : BufferRead) (buf : ℕ) (data : List UInt8) : Prop :=
  (r.ret = -1 → r.buf = buf) ∧
    (r.ret ≠ -1 → buf ≤ r.str ∧ r.str + r.len.toNat ≤ buf + data.length)

def DataRead.Safe (r : DataRead) (buf : ℕ) (data : List UInt8) : Prop :=
  (r.ret = -1 → r.buf = buf) ∧
    (r.ret ≠ -1 → ∃ n, spoeExtent data = some n ∧ n ≤ data.length)

theorem varintAt_le {sz : ℕ} (h : varintAt data = some (n, sz)) :
    0 < n ∧ n ≤ data.length ∧ sz < 2 ^ 64 ∧ (n = 1 → sz < 240) := by
  obtain ⟨⟨v, rest⟩, hd, heq⟩ := Option.map_eq_some_iff.mp h
  obtain ⟨rfl, rfl⟩ : data.length - rest.length = n ∧ v.toNat = sz := by simpa using heq
  have hlt := (decodeVarint_suffix hd).2
  refine ⟨by omega, by omega, v.toNat_lt, fun hone => ?_⟩
  rcases data with - | ⟨b, data⟩
  · simp [decodeVarint] at hd
  · rw [decodeVarint] at hd
    split_ifs at hd with hb
    · obtain ⟨rfl, -⟩ : b.toUInt64 = v ∧ _ := by simpa using hd
      rw [UInt8.lt_iff_toNat_lt] at hb
      rw [UInt8.toNat_toUInt64]
      simpa using hb
    · -- a first byte from 240 on is followed by another one
      have hloop := (decodeVarintLoop_suffix hd).2
      simp only [List.length_cons] at hone
      omega

theorem spoeDecodeVarint_eq (h : data.length + 1 < 2 ^ 32) :
    spoeDecodeVarint data = decodeVarint data := by
  rw [spoeDecodeVarint]
  rcases hd : decodeVarint data with - | ⟨v, rest⟩
  · rfl
  · have hlt := (decodeVarint_suffix hd).2
    simp only
    rw [if_neg]
    rw [toInt_eq_neg_one_iff]
    omega

theorem spoeDecodeBuffer_eq (h : data.length + 1 < 2 ^ 32) (buf : ℕ) :
    spoeDecodeBuffer buf data =
      match varintAt data with
      | none => ⟨-1, buf, 0, 0⟩
      | some (n, sz) =>
        if buf + data.length < (buf + n + sz) % 2 ^ 64 then ⟨-1, buf, 0, 0⟩
        else ⟨toInt sz, (buf + n + sz) % 2 ^ 64, buf + n, UInt64.ofNat sz⟩ := by
  rw [spoeDecodeBuffer, spoeDecodeVarint_eq h, varintAt]
  rcases decodeVarint data with - | ⟨v, rest⟩
  · rfl
  · simp

theorem lt_wrap_iff {a l : ℕ} (ha : a + l < 2 ^ 64) (hn : n ≤ l + 2 ^ 64) :
    a + l < (a + n) % 2 ^ 64 ↔ a + n < 2 ^ 64 ∧ l < n := by
  constructor
  · intro h
    by_cases hw : a + n < 2 ^ 64
    · rw [Nat.mod_eq_of_lt hw] at h
      omega
    · omega
  · rintro ⟨hw, hlt⟩
    rw [Nat.mod_eq_of_lt hw]
    omega

/-- **A string is decoded inside the data exactly when its end does not wrap
around.** -/
theorem spoeDecodeBuffer_safe_iff (hdata : data.length + 1 < 2 ^ 32)
    (hbuf : buf + data.length < 2 ^ 64) :
    (spoeDecodeBuffer buf data).Safe buf data ↔
      ∀ n sz, varintAt data = some (n, sz) → buf + n + sz < 2 ^ 64 := by
  rw [spoeDecodeBuffer_eq hdata buf]
  rcases hv : varintAt data with - | ⟨n, sz⟩
  · simp [BufferRead.Safe]
  · obtain ⟨hn, hn', hsz, hone⟩ := varintAt_le hv
    have hcmp := lt_wrap_iff (n := n + sz) hbuf (by omega)
    rw [← Nat.add_assoc] at hcmp
    have hlen : (UInt64.ofNat sz).toNat = sz := UInt64.toNat_ofNat_of_lt' hsz
    have hspec : (∀ n' sz', some (n, sz) = some (n', sz') → buf + n' + sz' < 2 ^ 64)
        ↔ buf + n + sz < 2 ^ 64 := by
      constructor
      · exact fun h => h n sz rfl
      · rintro h n' sz' heq
        cases heq
        exact h
    rw [hspec]
    simp only
    by_cases hw : buf + n + sz < 2 ^ 64
    · refine iff_of_true ?_ hw
      split_ifs with hgt
      · exact ⟨fun _ => rfl, fun h => absurd rfl h⟩
      · have hfit : n + sz ≤ data.length := by
          have hnot := mt hcmp.mpr hgt
          omega
        simp only [BufferRead.Safe, toInt_eq_neg_one_iff, hlen]
        exact ⟨fun h => by omega, fun _ => ⟨by omega, by omega⟩⟩
    · refine iff_of_false ?_ hw
      rw [if_neg fun h => hw (hcmp.mp h).1]
      simp only [BufferRead.Safe, hlen]
      rintro ⟨herror, hok⟩
      by_cases hret : toInt sz = -1
      · -- it reports an error, but has moved
        have hmoved := herror hret
        rw [toInt_eq_neg_one_iff] at hret
        omega
      · have := (hok hret).2
        omega

theorem safe_take_iff (smp : Option Filled) (hdata : data.length + 1 < 2 ^ 32)
    (hbuf : buf + data.length < 2 ^ 64) (hn : n ≤ data.length + 2 ^ 64)
    (hext : spoeExtent data = some n) :
    (if buf + data.length < (buf + n) % 2 ^ 64 then DataRead.error buf
      else .finish buf ((buf + n) % 2 ^ 64) smp).Safe buf data ↔ buf + n < 2 ^ 64 := by
  have hcmp := lt_wrap_iff hbuf hn
  by_cases hw : buf + n < 2 ^ 64
  · refine iff_of_true ?_ hw
    split_ifs with hgt
    · exact ⟨fun _ => rfl, fun h => absurd rfl h⟩
    · have hfit : n ≤ data.length := by
        have hnot := mt hcmp.mpr hgt
        omega
      refine ⟨fun h => ?_, fun _ => ⟨n, hext, hfit⟩⟩
      rw [DataRead.finish, toInt_eq_neg_one_iff, Nat.mod_eq_of_lt hw] at h
      omega
  · refine iff_of_false ?_ hw
    rw [if_neg fun h => hw (hcmp.mp h).1]
    rintro ⟨herror, hok⟩
    by_cases hret : (DataRead.finish buf ((buf + n) % 2 ^ 64) smp).ret = -1
    · have hmoved : (buf + n) % 2 ^ 64 = buf := herror hret
      rw [DataRead.finish, toInt_eq_neg_one_iff, hmoved] at hret
      omega
    · obtain ⟨n', hext', hle⟩ := hok hret
      rw [hext, Option.some.injEq] at hext'
      omega

theorem safe_finish {smp : Option Filled} (hdata : data.length + 1 < 2 ^ 32)
    (hext : spoeExtent data = some n) (hn : n ≤ data.length) :
    (DataRead.finish buf (buf + n) smp).Safe buf data := by
  refine ⟨fun h => ?_, fun _ => ⟨n, hext, hn⟩⟩
  rw [DataRead.finish, toInt_eq_neg_one_iff] at h
  omega

theorem safe_error (buf : ℕ) (data : List UInt8) : (DataRead.error buf).Safe buf data :=
  ⟨fun _ => rfl, fun h => absurd rfl h⟩

theorem extent_iff (hext : spoeExtent data = some n) (herr : announcesError data = false) :
    (∀ n', spoeExtent data = some n' → buf + n' < 2 ^ 64 ∨ announcesError data = true)
      ↔ buf + n < 2 ^ 64 := by
  rw [hext, herr]
  simp

theorem safe_int (hdata : data.length + 1 + 1 < 2 ^ 32)
    (hext : spoeExtent (type :: data) = (varintAt data).map fun r => 1 + r.1) :
    (match decodeVarint data with
      | none => DataRead.error buf
      | some (v, rest) => .finish buf (buf + 1 + (data.length - rest.length)) (some (.sint v))).Safe
        buf (type :: data) := by
  rcases hd : decodeVarint data with - | ⟨v, rest⟩
  · exact safe_error buf _
  · have hat : varintAt data = some (data.length - rest.length, v.toNat) := by
      rw [varintAt, hd]
      rfl
    rw [hat] at hext
    simp only
    rw [Nat.add_assoc]
    exact safe_finish hdata hext (by simp only [List.length_cons]; omega)

/-- Strings, with the two ways of being refused. -/
theorem safe_string_iff (smp : BufferRead → Option Filled) (hdata : data.length + 1 + 1 < 2 ^ 32)
    (hbuf : buf + (data.length + 1) < 2 ^ 64) (htype : spoeType type = 8 ∨ spoeType type = 9)
    (hext : spoeExtent (type :: data) = (varintAt data).map fun r => 1 + r.1 + r.2) :
    (let r := spoeDecodeBuffer (buf + 1) data
      if r.ret = -1 then DataRead.error buf else .finish buf r.buf (smp r)).Safe buf (type :: data) ↔
      ∀ n, spoeExtent (type :: data) = some n →
        buf + n < 2 ^ 64 ∨ announcesError (type :: data) = true := by
  rw [spoeDecodeBuffer_eq (by omega) (buf + 1)]
  rcases hv : varintAt data with - | ⟨n, sz⟩
  · rw [hext, hv]
    refine iff_of_true ?_ (by simp)
    exact safe_error buf _
  · obtain ⟨hn, hn', hsz, -⟩ := varintAt_le hv
    have herr : announcesError (type :: data) = true ↔ toInt sz = -1 := by
      rw [toInt_eq_neg_one_iff, announcesError, hv]
      have hor : (spoeType type == 8 || spoeType type == 9) = true := by
        rcases htype with h | h <;> simp [h]
      rw [hor, Bool.true_and]
      simp only [beq_iff_eq]
      omega
    have hspec : (∀ n', spoeExtent (type :: data) = some n' →
        buf + n' < 2 ^ 64 ∨ announcesError (type :: data) = true)
          ↔ buf + (1 + n + sz) < 2 ^ 64 ∨ toInt sz = -1 := by
      rw [← herr, hext, hv]
      simp
    have hassoc : buf + 1 + n + sz = buf + (1 + n + sz) := by omega
    have hend : buf + 1 + data.length = buf + (type :: data).length := by
      rw [List.length_cons]
      omega
    rw [hspec]
    simp only [hassoc, hend]
    by_cases hret : toInt sz = -1
    · -- the length is the error code
      refine iff_of_true ?_ (Or.inr hret)
      by_cases hgt : buf + (type :: data).length < (buf + (1 + n + sz)) % 2 ^ 64
      · rw [if_pos hgt, if_pos rfl]
        exact safe_error buf _
      · rw [if_neg hgt, if_pos hret]
        exact safe_error buf _
    · rw [or_iff_left hret]
      rw [hv] at hext
      have hn64 : 1 + n + sz ≤ (type :: data).length + 2 ^ 64 := by
        simp only [List.length_cons]
        omega
      have htake := fun smp => safe_take_iff smp (show (type :: data).length + 1 < 2 ^ 32 from hdata)
        hbuf hn64 hext
      by_cases hgt : buf + (type :: data).length < (buf + (1 + n + sz)) % 2 ^ 64
      · have hle := htake none
        rw [if_pos hgt] at hle
        rw [if_pos hgt, if_pos rfl]
        exact hle
      · have hle := htake (smp ⟨toInt sz, (buf + (1 + n + sz)) % 2 ^ 64, buf + 1 + n, UInt64.ofNat sz⟩)
        rw [if_neg hgt] at hle
        rw [if_neg hgt, if_neg hret]
        exact hle

/-- **A typed data is decoded inside the data exactly when its end does not wrap
around**, or its length happens to be an error code. -/
theorem spoeDecodeData_safe_iff (hdata : data.length + 1 < 2 ^ 32)
    (hbuf : buf + data.length < 2 ^ 64) :
    (spoeDecodeData buf data).Safe buf data ↔
      ∀ n, spoeExtent data = some n → buf + n < 2 ^ 64 ∨ announcesError data = true := by
  rcases data with - | ⟨type, data⟩
  · exact iff_of_true (safe_error buf []) (by simp [spoeExtent])
  · have hdata' := hdata
    have hbuf' := hbuf
    rw [List.length_cons] at hdata' hbuf'
    have hvarint : spoeDecodeVarint data = decodeVarint data := spoeDecodeVarint_eq (by omega)
    -- data of one byte, and integers: what is accepted is there
    have hone : ∀ smp, spoeExtent (type :: data) = some 1 → announcesError (type :: data) = false →
        ((DataRead.finish buf (buf + 1) smp).Safe buf (type :: data) ↔
          ∀ n, spoeExtent (type :: data) = some n →
            buf + n < 2 ^ 64 ∨ announcesError (type :: data) = true) := by
      intro smp hext herr
      refine iff_of_true (safe_finish hdata hext (by simp)) ?_
      rw [extent_iff hext herr]
      omega
    have hint : spoeExtent (type :: data) = (varintAt data).map (fun r => 1 + r.1) →
        ∀ n, spoeExtent (type :: data) = some n →
          buf + n < 2 ^ 64 ∨ announcesError (type :: data) = true := by
      intro hext n hn
      rw [hext] at hn
      obtain ⟨⟨k, sz⟩, hk, rfl⟩ := Option.map_eq_some_iff.mp hn
      have hle := (varintAt_le hk).2.1
      exact Or.inl (by simp only; omega)
    -- addresses
    have hend : buf + 1 + data.length = buf + (type :: data).length := by
      rw [List.length_cons]
      omega
    have haddr : ∀ k smp, k ≤ 16 → spoeExtent (type :: data) = some (1 + k) →
        announcesError (type :: data) = false →
        ((if buf + 1 + data.length < (buf + 1 + k) % 2 ^ 64 then DataRead.error buf
          else .finish buf ((buf + 1 + k) % 2 ^ 64) smp).Safe buf (type :: data) ↔
          ∀ n, spoeExtent (type :: data) = some n →
            buf + n < 2 ^ 64 ∨ announcesError (type :: data) = true) := by
      intro k smp hk hext herr
      rw [extent_iff hext herr, hend, Nat.add_assoc]
      exact safe_take_iff smp hdata hbuf (by omega) hext
    obtain ⟨t, ht⟩ : ∃ t, spoeType type = t := ⟨_, rfl⟩
    rw [spoeDecodeData, ht]
    simp only [hvarint]
    have hext := show spoeExtent (type :: data) = _ by rw [spoeExtent, ht]
    have herr := show announcesError (type :: data) = _ by rw [announcesError, ht]
    obtain - | - | - | - | - | - | - | - | - | - | t := t
    · exact hone _ hext herr
    · exact hone _ hext herr
    · exact iff_of_true (safe_int hdata' hext) (hint hext)
    · exact iff_of_true (safe_int hdata' hext) (hint hext)
    · exact iff_of_true (safe_int hdata' hext) (hint hext)
    · exact iff_of_true (safe_int hdata' hext) (hint hext)
    · exact haddr 4 _ (by omega) hext herr
    · exact haddr 16 _ (by omega) hext herr
    · exact safe_string_iff (fun r => some (if type = 0x08 then .str r.str r.len
        else .bin r.str r.len)) hdata' hbuf' (Or.inl ht) hext
    · exact safe_string_iff (fun r => some (if type = 0x08 then .str r.str r.len
        else .bin r.str r.len)) hdata' hbuf' (Or.inr ht) hext
    · exact hone _ hext herr

/-! ### The limits of the round trip -/

theorem exists_string {smp : Option Sample} (h : spoeSize smp ≠ 0) :
    ∃ type str, (spoeType type = 8 ∨ spoeType type = 9) ∧ spoeSize smp = str.area.length ∧
      spoeForm smp = type :: (varint str.area.length ++ str.area) ∧
      ∀ ctx room, spoeEncodeTyped smp ctx 0 room = spoeEncodeFrag type str ctx 0 room := by
  rcases smp with - | (v | v | a | a | str | str | ⟨m, str⟩ | -)
  · exact absurd rfl h
  · exact absurd rfl h
  · exact absurd rfl h
  · exact absurd rfl h
  · exact absurd rfl h
  · exact ⟨0x08, str, Or.inl rfl, rfl, rfl, fun _ _ => rfl⟩
  · exact ⟨0x09, str, Or.inr rfl, rfl, rfl, fun _ _ => rfl⟩
  · exact absurd rfl h
  · exact absurd rfl h

theorem spoeDecodeData_cut (htype : spoeType type = 8 ∨ spoeType type = 9) (hn : 0 < n)
    (hn' : n < 2 ^ 64) (hret : (spoeDecodeData 0 (type :: varint n)).ret ≠ -1) :
    (spoeDecodeData 0 (type :: varint n)).buf ≠ 0 + (type :: varint n).length := by
  have hv := varint_length_le hn'
  have hat : varintAt (varint n) = some ((varint n).length, n) := by
    have hdec := decodeVarint_varint hn' []
    rw [List.append_nil] at hdec
    rw [varintAt, hdec, Option.map_some, UInt64.toNat_ofNat_of_lt' hn']
    rfl
  have hbuffer := spoeDecodeBuffer_eq (show (varint n).length + 1 < 2 ^ 32 by omega) 1
  rw [hat] at hbuffer
  simp only at hbuffer
  have hread := spoeDecodeData_eq_buffer htype 0 (varint n)
  simp only [Nat.zero_add] at hread
  rw [hread] at hret ⊢
  by_cases herror : (spoeDecodeBuffer 1 (varint n)).ret = -1
  · rw [if_pos herror] at hret
    exact absurd rfl hret
  · rw [if_neg herror]
    show (spoeDecodeBuffer 1 (varint n)).buf ≠ _
    rw [hbuffer] at herror ⊢
    split_ifs at herror ⊢ with hgt
    · exact absurd rfl herror
    · rw [List.length_cons]
      show (1 + (varint n).length + n) % 2 ^ 64 ≠ _
      omega

/-- **A sample makes the round trip exactly when neither its length nor that of its
form is an error code, and its length fits in the context.** -/
theorem roundTrips_iff {smp : Option Sample} (hmeth : isMeth smp = false) :
    RoundTrips smp ↔ spoeSize smp + 1 < 2 ^ 32 ∧ spoeSize smp + 7 ≠ 2 ^ 32 := by
  refine ⟨fun htrip => ?_, fun h => roundTrips_of_size hmeth h.1 h.2⟩
  by_contra hcond
  have hne : spoeSize smp ≠ 0 := by omega
  obtain ⟨type, str, htype, hsize, -, hsmp⟩ := exists_string hne
  rw [hsize] at hcond hne
  have hv := varint_length_le str.length_lt
  by_cases hlong : 2 ^ 32 ≤ str.area.length
  · -- nothing but the length is sent
    have hfit : 0 + (type :: varint str.area.length ++ []).length < 2 ^ 64 := by
      rw [List.append_nil, List.length_cons]
      omega
    obtain ⟨⟨hret, hbuf, -⟩, -⟩ := htrip _ _ _ (spoeEncodeRun_long hsmp hlong) 0 [] hfit
    rw [List.append_nil] at hret hbuf
    exact spoeDecodeData_cut htype (by omega) str.length_lt hret hbuf
  · -- a length that is refused, or a total that is
    have hlow : 2 ^ 32 - 12 ≤ str.area.length := by omega
    obtain ⟨rooms, out, hrun⟩ := exists_spoeEncodeRun hsmp hlow (by omega)
    obtain rfl := spoeEncodeRun_str hsmp (by omega) hrun
    have hfit : 0 + 1 + (varint str.area.length ++ str.area ++ []).length < 2 ^ 64 := by
      rw [List.append_nil, List.length_append]
      omega
    have htop := varint_length_top hlow (by omega)
    have hread := spoeDecodeData_string htype str.length_lt hfit
    obtain ⟨⟨hret, -, -⟩, -⟩ := htrip _ _ _ hrun 0 []
      (by rw [List.cons_append, List.length_cons]; omega)
    rw [List.cons_append, hread] at hret
    by_cases herror : toInt str.area.length = -1
    · rw [if_pos herror] at hret
      exact hret rfl
    · rw [if_neg herror] at hret
      rw [toInt_eq_neg_one_iff] at herror
      apply hret
      rw [DataRead.finish, toInt_eq_neg_one_iff]
      omega

/-- **Typed data under fragmentation.**  A sample makes the round trip, however it is
cut, exactly when neither its length nor that of its form is an error code and its
length fits in the context; a failing call leaves `*buf` alone.  On arbitrary bytes,
skipping is decoding, and decoding stays inside exactly when no end wraps around. -/
theorem spoe_data_iff (smp : Option Sample) (hmeth : isMeth smp = false) (buf : ℕ) (data : List UInt8)
    (hdata : data.length + 1 < 2 ^ 32) (hbuf : buf + data.length < 2 ^ 64) :
    (RoundTrips smp ↔ spoeSize smp + 1 < 2 ^ 32 ∧ spoeSize smp + 7 ≠ 2 ^ 32) ∧
      (∀ ctx buf room r, spoeEncodeData smp ctx buf room = some r → r.ret = -1 → r.buf = buf) ∧
      ((spoeDecodeBuffer buf data).Safe buf data ↔
        ∀ n sz, varintAt data = some (n, sz) → buf + n + sz < 2 ^ 64) ∧
      ((spoeDecodeData buf data).Safe buf data ↔
        ∀ n, spoeExtent data = some n → buf + n < 2 ^ 64 ∨ announcesError data = true) ∧
      spoeSkipData buf data = ((spoeDecodeData buf data).ret, (spoeDecodeData buf data).buf) := by
  refine ⟨roundTrips_iff hmeth, fun ctx buf room r h hret => ?_, ?_⟩
  · exact spoeEncodeData_error hmeth h hret
  · exact ⟨spoeDecodeBuffer_safe_iff hdata hbuf, spoeDecodeData_safe_iff hdata hbuf,
      spoeSkipData_eq buf data⟩

/-- A short string, and a string decoded where it is. -/
theorem spoe_data_iff_short :
    RoundTrips (some (.str ⟨[97, 98], by decide⟩)) ∧
      (spoeDecodeData 4096 [0x08, 1, 97]).Safe 4096 [0x08, 1, 97] := by
  obtain ⟨hencode, -, -, hdecode, -⟩ := spoe_data_iff (some (.str ⟨[97, 98], by decide⟩)) rfl
    4096 [0x08, 1, 97] (by decide) (by decide)
  refine ⟨hencode.mpr ⟨by decide, by decide⟩, hdecode.mpr fun n hn => Or.inl ?_⟩
  obtain rfl : n = 3 := by
    have hext : spoeExtent [0x08, 1, 97] = some 3 := by decide +kernel
    rw [hext, Option.some.injEq] at hn
    exact hn.symm
  decide

/-- A string that announces `2 ^ 64 - 2` bytes, of which none is there. -/
def sampleEndless : List UInt8 := [0x08, 254, 240, 254, 254, 254, 254, 254, 254, 254, 14]

/-- It is accepted, and a string of `2 ^ 32` bytes may be sent without any of them. -/
theorem not_spoe_data_safe :
    ¬ (spoeDecodeData 4096 sampleEndless).Safe 4096 sampleEndless ∧
      ∃ h : (List.replicate (2 ^ 32) (0 : UInt8)).length < 2 ^ 64,
        ¬ RoundTrips (some (.str ⟨List.replicate (2 ^ 32) 0, h⟩)) := by
  constructor
  · rintro ⟨-, hok⟩
    obtain ⟨n, hext, hle⟩ := hok (by decide +kernel)
    have hext' : spoeExtent sampleEndless = some (2 ^ 64 + 9) := by decide +kernel
    rw [hext', Option.some.injEq] at hext
    have hlen : sampleEndless.length = 11 := rfl
    omega
  · refine ⟨by rw [List.length_replicate]; decide, ?_⟩
    rw [roundTrips_iff rfl]
    simp only [spoeSize, List.length_replicate]
    omega

end SmartHAProxy
