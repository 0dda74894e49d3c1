/-
What the HPACK encoder writes, the decoder reads.

Integers and strings first, then one header with anything behind it
(`decodeField_hpackBytes`), then a list of headers.  The decoder enters the
headers with a name of the static table into its dynamic table, but the encoder
never refers to an entry of it.
-/
import SmartHAProxy.Hpack.Decode
import SmartHAProxy.Hpack.Encode
import SmartHAProxy.Hpack.Refine

namespace SmartHAProxy

variable {huffDec : HuffDec} {dht : HpackDht} {size data : ℕ} {rest : List UInt8}

/-! ### Integers -/

theorem toNat_or_128 (code : ℕ) : (UInt8.ofNat (code ||| 128)).toNat = code % 128 + 128 := by
  have hmod : (code ||| 128) % 2 ^ 8 = code % 2 ^ 8 ||| 128 := Nat.or_mod_two_pow
  have hall : ∀ k < 256, k ||| 128 = k % 128 + 128 := by decide +kernel
  show (code ||| 128) % 2 ^ 8 = _
  rw [hmod, hall (code % 2 ^ 8) (Nat.mod_lt _ (by decide))]
  omega

theorem varIntLoop_encodeLenLoop (code : ℕ) :
    ∀ {ret shift : ℕ}, shift < 32 → ret + code * 2 ^ shift < 2 ^ 32 →
      varIntLoop ret shift (encodeLenLoop code ++ rest) = .ok (some (ret + code * 2 ^ shift, rest)) := by
  induction code using Nat.strongRecOn with
  | ind code ih =>
    intro ret shift hshift hlt
    rw [encodeLenLoop]
    split_ifs with hmore
    · have hdiv : code >>> 7 = code / 128 := by rw [Nat.shiftRight_eq_div_pow]
      have hpow : 2 ^ (shift + 7) = 128 * 2 ^ shift := by rw [Nat.pow_add, Nat.mul_comm]
      -- the low bits, and the others with a larger shift
      have hsum : code % 128 * 2 ^ shift + code / 128 * 2 ^ (shift + 7) = code * 2 ^ shift := by
        rw [hpow, ← Nat.mul_assoc, ← Nat.add_mul]
        congr 1
        omega
      have hshift' : shift + 7 < 32 := by
        by_contra hlarge
        have hge : 2 ^ 32 ≤ 2 ^ (shift + 7) := Nat.pow_le_pow_right (by decide) (by omega)
        have hmul : 2 ^ (shift + 7) ≤ code * 2 ^ shift := by
          rw [hpow]
          exact Nat.mul_le_mul_right _ hmore
        omega
      rw [List.cons_append, varIntLoop, if_neg (by omega), toNat_or_128]
      dsimp only
      rw [if_pos (by omega), hdiv, Nat.add_mod_right, Nat.mod_mod, Nat.mod_eq_of_lt (by omega),
        ih _ (by omega) hshift' (by omega), Nat.add_assoc, hsum]
    · have hcode : (UInt8.ofNat code).toNat = code := by
        show code % 256 = code
        omega
      rw [List.singleton_append, varIntLoop, if_neg (by omega), hcode]
      dsimp only
      rw [if_neg (by omega), Nat.mod_eq_of_lt (a := code) (by omega), Nat.mod_eq_of_lt hlt]

theorem getVarInt_hpackEncodeLen {len : ℕ} (h : len ≤ hpackMaxLen) :
    getVarInt 7 (hpackEncodeLen len ++ rest) = .ok (some (len, rest)) := by
  have hmax : len ≤ 2097278 := h
  rw [hpackEncodeLen]
  split_ifs with hshort
  · have hlen : (UInt8.ofNat len).toNat = len := by
      show len % 256 = len
      omega
    rw [List.singleton_append, getVarInt, hlen, Nat.mod_eq_of_lt (by omega), if_pos (by omega)]
  · rw [List.cons_append, getVarInt, if_neg (by decide)]
    show varIntLoop 127 0 _ = _
    have hsum : 127 + (len - 127) * 2 ^ 0 = len := by omega
    rw [varIntLoop_encodeLenLoop _ (by decide) (by omega), hsum]

theorem hpackEncodeLen_cons (len : ℕ) :
    ∃ c cs, hpackEncodeLen len = c :: cs ∧ c.toNat < 128 := by
  rw [hpackEncodeLen]
  split_ifs with hshort
  · refine ⟨_, [], rfl, ?_⟩
    show len % 256 < 128
    omega
  · exact ⟨127, _, rfl, by decide⟩

/-! ### Strings -/

theorem readString_hpackString {s : CStr} (h : s.length ≤ hpackMaxLen) :
    readString huffDec size data (hpackString s ++ rest) = pure (s, rest, data) := by
  obtain ⟨c, cs, hcons, hc⟩ := hpackEncodeLen_cons s.length
  have hraw : hpackString s ++ rest = hpackEncodeLen s.length ++ (s ++ rest) := by
    rw [hpackString, List.append_assoc]
  have hvar : readVarInt 7 (hpackEncodeLen s.length ++ (s ++ rest)) = pure (s.length, s ++ rest) := by
    rw [readVarInt, getVarInt_hpackEncodeLen h]
  have hhuff : ¬ ((hpackEncodeLen s.length ++ (s ++ rest)).headD 0).toNat ≥ 128 := by
    rw [hcons]
    exact Nat.not_le_of_lt hc
  have hne : hpackEncodeLen s.length ++ (s ++ rest) ≠ [] := by
    rw [hcons]
    exact List.cons_ne_nil _ _
  rw [hraw, readString]
  simp only [if_neg hne, hvar, pure_bind, hhuff, if_false]
  rw [if_neg (by rw [List.length_append]; omega)]
  simp

/-! ### Names of the static table -/

/-- From `pos` on, the stream names entries of the static table. -/
def streamNames (len : ℕ) : ℕ → ℕ → Bool
  | 0, _ => true
  | fuel + 1, pos =>
    let idx := (hpackEncStream.getD (pos + 1) 0).toNat
    decide (0 < idx) && decide (idx < hpackShtSize) &&
      decide ((hpackEncStream.drop (pos + 2)).take len = (hpackSht.getD idx ([], [])).1) &&
      (if (hpackEncStream.getD (pos + 2 + len) 0).toNat = len then streamNames len fuel (pos + 2 + len)
        else true)

theorem streamNames_posLen : ∀ len < 32, 0 ≤ hpackPosLen.getD len (-1) →
    streamNames len hpackEncStream.length (hpackPosLen.getD len (-1)).toNat = true := by
  decide +kernel

theorem staticSearch_spec {n : CStr} {idx : UInt8} :
    ∀ {fuel pos : ℕ}, streamNames n.length fuel pos = true → staticSearch n fuel pos = some idx →
      0 < idx.toNat ∧ idx.toNat < hpackShtSize ∧ (hpackSht.getD idx.toNat ([], [])).1 = n := by
  intro fuel
  induction fuel with
  | zero =>
    intro pos _ h
    cases h
  | succ fuel ih =>
    intro pos hnames h
    simp only [streamNames, Bool.and_eq_true, decide_eq_true_eq] at hnames
    obtain ⟨⟨⟨hpos, hlt⟩, hname⟩, hnext⟩ := hnames
    simp only [staticSearch] at h
    split_ifs at h with hfound hmore
    · obtain rfl := Option.some.inj h
      exact ⟨hpos, hlt, hname.symm.trans hfound⟩
    · rw [if_pos hmore] at hnext
      exact ih hnext h

theorem staticIdx_spec {n : CStr} {idx : UInt8} (h : staticIdx n = some idx) :
    0 < idx.toNat ∧ idx.toNat < hpackShtSize ∧ (hpackSht.getD idx.toNat ([], [])).1 = n := by
  have hlen := length_lt_of_staticIdx h
  have hcount : hpackPosLen.length = 32 := rfl
  rw [staticIdx, hcount, if_neg (Nat.not_le_of_lt hlen)] at h
  dsimp only at h
  split_ifs at h with hpos
  exact staticSearch_spec (streamNames_posLen n.length hlen hpos) h

/-! ### One header -/

theorem toNat_or_64 : ∀ k < 62, (UInt8.ofNat k ||| 0x40).toNat = k + 64 := by decide +kernel

theorem and_sub_16_ne_zero : ∀ k < 62, 0 < k →
    (UInt8.ofNat k ||| 0x40) &&& ((UInt8.ofNat k ||| 0x40) - 0x10) ≠ 0 := by decide +kernel

variable (huffDec dht size data rest) in
/-- **One header**, with anything behind it. -/
theorem decodeField_hpackBytes (ret : ℕ) {n v : CStr} (hn : n.length ≤ hpackMaxLen)
    (hv : v.length ≤ hpackMaxLen) :
    ∃ c raw mustIndex, hpackBytes n v ++ rest = c :: raw ∧
      decodeField huffDec dht size data ret c raw = pure ⟨some (.str n, v, mustIndex), rest, data⟩ := by
  rw [hpackBytes, hpackName]
  rcases hidx : staticIdx n with - | idx
  · refine ⟨0, hpackString n ++ (hpackString v ++ rest), false, by simp, ?_⟩
    have hbranch : decodeField huffDec dht size data ret 0 (hpackString n ++ (hpackString v ++ rest))
        = decodeLiteral huffDec size data 0 (hpackString n ++ (hpackString v ++ rest)) := by
      rw [decodeField, if_neg (by decide), if_neg (by decide), if_pos (by decide)]
    rw [hbranch, decodeLiteral, readString_hpackString hn, pure_bind]
    dsimp only
    rw [readString_hpackString hv, pure_bind]
    rfl
  · obtain ⟨hpos, hlt, hname⟩ := staticIdx_spec hidx
    have hlt' : idx.toNat < 62 := hlt
    have hof : UInt8.ofNat idx.toNat = idx := UInt8.ofNat_toNat
    have hbyte := toNat_or_64 idx.toNat hlt'
    have hand := and_sub_16_ne_zero idx.toNat hlt' hpos
    rw [hof] at hbyte hand
    refine ⟨idx ||| 0x40, hpackString v ++ rest, true, by simp, ?_⟩
    have hbranch : decodeField huffDec dht size data ret (idx ||| 0x40) (hpackString v ++ rest)
        = decodeIdxName huffDec dht size data (idx ||| 0x40) ((idx ||| 0x40) :: (hpackString v ++ rest)) := by
      rw [decodeField, if_neg (by omega), if_neg (by omega), if_neg hand]
    have hmust : decide ((idx ||| 0x40).toNat ≥ 0x41) = true := decide_eq_true (by omega)
    have hvar : readVarInt 6 ((idx ||| 0x40) :: (hpackString v ++ rest))
        = pure (idx.toNat, hpackString v ++ rest) := by
      rw [readVarInt, getVarInt, hbyte, if_pos (by omega)]
      dsimp only
      congr 2
      omega
    have hne : hpackString v ++ rest ≠ [] := by
      obtain ⟨c, cs, hcons, -⟩ := hpackEncodeLen_cons v.length
      rw [hpackString, hcons]
      exact List.cons_ne_nil _ _
    have hvalid : hpackValidIdx dht idx.toNat = true := by
      rw [hpackValidIdx, decide_eq_true_eq]
      omega
    have hidxname : idxName dht size data idx.toNat true = pure (.str n, data) := by
      have hlook : hpackIdxToName dht idx.toNat = n := by
        rw [hpackIdxToName, if_pos hlt, hname]
      rw [idxName, if_neg (by simp)]
      simp only [hpackAllocString, if_pos hlt, pure_bind, hlook]
    rw [hbranch, decodeIdxName]
    simp only [hmust, if_true, hvar, pure_bind, if_neg hne, hvalid, readString_hpackString hv, hidxname]
    rfl

/-! ### Lists of headers -/

/-- A table that the decoder may have: a size that can be configured, and entries where
they belong. -/
structure DecoderTable (dht : HpackDht) : Prop where
  size : dht.size ≤ 65567
  layout : ∃ p f, Layout dht p f

theorem DecoderTable.insert (h : DecoderTable dht) {n v : CStr} (hn : n.length ≤ hpackMaxLen)
    (hv : v.length ≤ hpackMaxLen) :
    ∃ dht', hpackDhtInsert dht n v = .ok dht' ∧ DecoderTable dht' := by
  obtain ⟨hsize, p, f, hl⟩ := h
  have hmax : hpackMaxLen = 2097278 := rfl
  have hcost : rfcCost (n, v) = n.length + v.length + 32 := rfl
  have hfits : EntryFits dht.size (n, v) := by
    refine ⟨?_, fun hle => ?_, fun hle => ?_⟩
    · show n.length + v.length < 2 ^ 31
      omega
    · show n.length < 2 ^ 16
      omega
    · show v.length < 2 ^ 16
      omega
  have htable : dht.size ≤ hpackMaxSize := Nat.le_trans hsize (by decide)
  obtain ⟨dht', f', hrun, hl', hsize'⟩ := hpackDhtInsert_spec hl htable hfits
  exact ⟨dht', hrun, by rw [hsize']; exact hsize, _, f', hl'⟩

theorem DecoderTable.indexField (h : DecoderTable dht) {n v : CStr} (hn : n.length ≤ hpackMaxLen)
    (hv : v.length ≤ hpackMaxLen) (mustIndex : Bool) :
    ∃ dht', indexField dht (.str n) v mustIndex = pure dht' ∧ DecoderTable dht' := by
  cases mustIndex with
  | false => exact ⟨dht, rfl, h⟩
  | true =>
    obtain ⟨dht', hrun, htable⟩ := h.insert hn hv
    refine ⟨dht', ?_, htable⟩
    rw [SmartHAProxy.indexField, hrun]
    rfl

variable (huffDec size data) in
/-- Each turn of the loop reads one header. -/
theorem decodeLoop_hpackBlock (listSize : ℕ) (hs : List HpackEntry) :
    ∀ {dht : HpackDht} {fuel : ℕ} (list : List (HpackHdrName × CStr)), DecoderTable dht →
      (∀ h ∈ hs, h.1.length ≤ hpackMaxLen ∧ h.2.length ≤ hpackMaxLen) →
      list.length + hs.length < listSize → (hpackBlock hs).length ≤ fuel →
      ∃ dht', decodeLoop huffDec listSize size fuel dht data list (hpackBlock hs)
          = pure (list ++ hs.map (fun h => (.str h.1, h.2)), dht') ∧ DecoderTable dht' := by
  induction hs with
  | nil =>
    intro dht fuel list htable _ hlist _
    refine ⟨dht, ?_, htable⟩
    have hend : ¬ list.length ≥ listSize := by
      rw [List.length_nil] at hlist
      omega
    rw [hpackBlock, List.flatMap_nil, List.map_nil, List.append_nil]
    cases fuel <;> rw [decodeLoop, if_neg hend]
  | cons h hs ih =>
    intro dht fuel list htable hlen hlist hfuel
    obtain ⟨hn, hv⟩ := hlen h List.mem_cons_self
    have hblock : hpackBlock (h :: hs) = hpackBytes h.1 h.2 ++ hpackBlock hs := List.flatMap_cons
    obtain ⟨c, raw, mustIndex, hcons, hfield⟩ :=
      decodeField_hpackBytes huffDec dht size data (hpackBlock hs) list.length hn hv
    obtain ⟨dht₁, hindex, htable₁⟩ := htable.indexField hn hv mustIndex
    rw [List.length_cons] at hlist
    rw [hblock, hcons] at hfuel ⊢
    obtain ⟨fuel, rfl⟩ : ∃ k, fuel = k + 1 := ⟨fuel - 1, by
      rw [List.length_cons] at hfuel
      omega⟩
    have hrest : (hpackBlock hs).length ≤ fuel := by
      have hname : 0 < (hpackBytes h.1 h.2).length := by
        have := length_hpackEncodeLen_pos h.2.length
        rw [hpackBytes, List.length_append, length_hpackString]
        omega
      rw [← hcons, List.length_append] at hfuel
      omega
    obtain ⟨dht', hrun, htable'⟩ := ih (list ++ [(.str h.1, h.2)]) htable₁
      (fun h' hh' => hlen h' (List.mem_cons_of_mem h hh')) (by
        rw [List.length_append, List.length_singleton]
        omega) hrest
    refine ⟨dht', ?_, htable'⟩
    have hroom : ¬ list.length ≥ listSize := by omega
    rw [decodeLoop, hfield, pure_bind]
    simp only [if_neg hroom, hindex, pure_bind]
    rw [hrun, List.append_assoc]
    rfl

/-- **Round trip**: what was encoded is decoded, and a header that is not encoded leaves the
length of the data, with no byte written outside the area.  A header is encoded if it has
room and its strings are not longer than 2097278 bytes. -/
theorem hpack_round_trip (huffDec : HuffDec) :
    (∀ (dht : HpackDht) (hs : List HpackEntry) (out out' : Chunk) (listSize size : ℕ),
      DecoderTable dht → encodeAll out hs = .ok (some out') → hs.length < listSize →
      ∃ dht', hpackDecodeFrame huffDec dht ((out'.area.drop out.data).take (out'.data - out.data))
          listSize size = pure (hs.map (fun h => (.str h.1, h.2)), dht') ∧ DecoderTable dht') ∧
    ∀ (out : Chunk) (n v : CStr), out.IntSized →
      ∃ done out', hpackEncodeHeader out n v = .ok (done, out') ∧ out'.size = out.size ∧
        (done = false → out'.data = out.data) ∧
        (done = true ↔ (n.length ≤ hpackMaxLen ∧ v.length ≤ hpackMaxLen) ∧
          out.data + (hpackBytes n v).length ≤ out.size) := by
  constructor
  · intro dht hs out out' listSize size htable henc hlist
    obtain ⟨hlen, hfits, harea, hdata⟩ := encodeAll_spec henc
    have hframe : (out'.area.drop out.data).take (out'.data - out.data) = hpackBlock hs := by
      rw [hdata, Nat.add_sub_cancel_left, harea]
      rcases hfits with rfl | hfits
      · rfl
      · exact take_drop_overwrite (Nat.le_trans (Nat.le_add_right _ _) hfits) _
    rw [hframe, hpackDecodeFrame]
    exact decodeLoop_hpackBlock huffDec size 0 listSize hs [] htable hlen
      (by rw [List.length_nil]; omega) (Nat.le_refl _)
  · intro out n v hint
    obtain ⟨⟨done, out'⟩, hrun, henc⟩ := hpackEncodeHeader_spec hint n v
    refine ⟨done, out', hrun, henc.size, fun hfalse => ?_, henc.fits⟩
    have hdata : out'.data = if done then _ else out.data := henc.data
    rw [hdata, hfalse]
    rfl

/-- A header with a name of the static table, and one with a new name. -/
theorem hpack_round_trip_host :
    ∃ out' dht', encodeAll ⟨List.replicate 16 0, 0⟩ [(bytes "host", [97]), (bytes "x", [])]
        = .ok (some out') ∧
      hpackDecodeFrame (fun _ _ => none) (hpackDhtInit (hpackAlloc 4096) 4096)
          ((out'.area.drop 0).take (out'.data - 0)) 3 16
        = pure ([(.str (bytes "host"), [97]), (.str (bytes "x"), [])], dht') := by
  have hfits : ((encodeAll ⟨List.replicate 16 0, 0⟩ [(bytes "host", [97]), (bytes "x", [])]).toOption.bind
      id).isSome = true := by decide +kernel
  have henc : ∃ out', encodeAll ⟨List.replicate 16 0, 0⟩ [(bytes "host", [97]), (bytes "x", [])]
      = .ok (some out') := by
    rcases hrun : encodeAll _ _ with e | (- | out')
    · rw [hrun] at hfits
      exact Bool.noConfusion hfits
    · rw [hrun] at hfits
      exact Bool.noConfusion hfits
    · exact ⟨out', rfl⟩
  have htable : DecoderTable (hpackDhtInit (hpackAlloc 4096) 4096) :=
    ⟨show 4096 ≤ 65567 by decide, [], 0, layout_init _ List.length_replicate⟩
  obtain ⟨out', hout'⟩ := henc
  obtain ⟨dht', hdec, -⟩ := (hpack_round_trip fun _ _ => none).1 _ _ _ _ 3 16 htable hout' (by decide)
  exact ⟨out', dht', hout', hdec⟩

end SmartHAProxy
