/-
The other end of an HPACK connection: an encoder that follows RFC 7541.

An encoder has a dynamic table of its own, with a maximum size that it may change
between two header blocks; the next block announces the change.  It may use any
representation for a header, and code any string with Huffman codes.  The decoder
checks the announcements and forgets them.

An encoder that reduces its maximum evicts entries that the decoder keeps, and what is
too large for the encoder may enter the decoder's table.  Still the encoder's table is
the beginning of the decoder's (`Coupled`) after each field, because a table that was
given less room is the beginning of one that was given more (`rfcKeep_isPrefix`).  So
the fields mean the same on both sides.

What can go wrong is that a string or a header has no room, and this is found, unless
the decoder takes the beginning of a coded string for the string (`HuffCut`).  The
temporary chunk is used up by the strings of the block, so the room of each string
(`codedFields`) and the condition (`RfcBlock.Whole`) are about the fields alone.

* `decodeField_emit`: one field, by the representations.
* `hpackDecodeFrame_block`: a block, or the beginning of one.
* `hpack_updates_harmless`: all blocks of a connection.
* `not_hpack_updates_harmless`: a block with a string that is cut.
-/
import SmartHAProxy.Hpack.HuffStr
import SmartHAProxy.Hpack.RoundTrip

namespace SmartHAProxy

variable {bs : List RfcBlock} {idx : ℕ} {e : HpackEntry}

/-! ### Tables with different room -/

theorem rfcKeep_isPrefix {p q : List HpackEntry} (h : p <+: q) :
    ∀ {m n : ℕ}, m ≤ n → rfcKeep m p <+: rfcKeep n q := by
  induction p generalizing q with
  | nil =>
    intro m n _
    exact List.nil_prefix
  | cons e p ih =>
    intro m n hmn
    rcases q with - | ⟨e', q⟩
    · exact absurd (List.prefix_nil.mp h) (List.cons_ne_nil e p)
    · obtain ⟨rfl, hpq⟩ := List.cons_prefix_cons.mp h
      rw [rfcKeep, rfcKeep]
      by_cases hroom : rfcCost e ≤ m
      · rw [if_pos hroom, if_pos (Nat.le_trans hroom hmn)]
        exact List.cons_prefix_cons.mpr ⟨rfl, ih hpq (Nat.sub_le_sub_right hmn _)⟩
      · rw [if_neg hroom]
        exact List.nil_prefix

theorem rfcKeep_isPrefix_self (m : ℕ) (p : List HpackEntry) : rfcKeep m p <+: p := by
  induction p generalizing m with
  | nil => exact List.nil_prefix
  | cons e p ih =>
    rw [rfcKeep]
    split_ifs with hroom
    · exact List.cons_prefix_cons.mpr ⟨rfl, ih _⟩
    · exact List.nil_prefix

theorem rfcInsert_isPrefix {p q : List HpackEntry} (h : p <+: q) {m n : ℕ} (hmn : m ≤ n)
    (e : HpackEntry) : rfcInsert m p e <+: rfcInsert n q e :=
  rfcKeep_isPrefix (List.cons_prefix_cons.mpr ⟨rfl, h⟩) hmn

/-! ### Representations -/

/-- A string literal, and whether it is coded. -/
structure RfcStr where
  huff : Bool
  str : CStr
  deriving DecidableEq, Repr

/-- The name of a literal: by an index, or a string. -/
inductive RfcName
  | idx (idx : ℕ)
  | str (s : RfcStr)
  deriving DecidableEq, Repr

/-- With incremental indexing, without indexing, never indexed. -/
inductive RfcKind
  | incremental
  | without
  | never
  deriving DecidableEq, Repr

/-- How a header is represented (RFC 7541, 6). -/
inductive RfcField
  | indexed (idx : ℕ)
  | literal (kind : RfcKind) (name : RfcName) (value : RfcStr)
  deriving DecidableEq, Repr

/-- A header block.  The maximum was changed to `changes` since the last block, and the
block announces `updates` of them: the smallest and the last. -/
structure RfcBlock where
  changes : List ℕ
  updates : List ℕ
  fields : List RfcField

/-! ### Bytes -/

/-- An integer with a prefix of `b` bits, in a byte with the opcode `op` (RFC 7541, 5.1). -/
def rfcInt (b op v : ℕ) : List UInt8 :=
  if v < 2 ^ b - 1 then [UInt8.ofNat (op + v)]
  else UInt8.ofNat (op + (2 ^ b - 1)) :: encodeLenLoop (v - (2 ^ b - 1))

def RfcStr.bytes (s : RfcStr) : List UInt8 :=
  if s.huff then rfcInt 7 0x80 (huffEnc s.str).length ++ huffEnc s.str
  else rfcInt 7 0 s.str.length ++ s.str

def RfcKind.op : RfcKind → ℕ
  | .incremental => 0x40
  | .without => 0
  | .never => 0x10

def RfcKind.bits : RfcKind → ℕ
  | .incremental => 6
  | .without => 4
  | .never => 4

def RfcField.bytes : RfcField → List UInt8
  | .indexed idx => rfcInt 7 0x80 idx
  | .literal kind (.idx idx) value => rfcInt kind.bits kind.op idx ++ value.bytes
  | .literal kind (.str name) value =>
    UInt8.ofNat kind.op :: (name.bytes ++ value.bytes)

def RfcBlock.bytes (b : RfcBlock) : List UInt8 :=
  b.updates.flatMap (rfcInt 5 0x20) ++ b.fields.flatMap RfcField.bytes

/-! ### The encoder -/

/-- The dynamic table of an encoder, the newest entry first, and its maximum size. -/
structure HpackPeer where
  max : ℕ
  table : List HpackEntry

/-- The maximum becomes `max`, and entries are evicted (RFC 7541, 4.3). -/
def HpackPeer.resize (s : HpackPeer) (max : ℕ) : HpackPeer := ⟨max, rfcKeep max s.table⟩

/-- The entry with the index `idx` (RFC 7541, 2.3.3). -/
def HpackPeer.lookup (s : HpackPeer) (idx : ℕ) : Option HpackEntry :=
  if idx = 0 then none
  else if idx < hpackShtSize then some (hpackSht.getD idx ([], []))
  else s.table[idx - hpackShtSize]?

def HpackPeer.nameOf (s : HpackPeer) : RfcName → Option CStr
  | .idx idx => (s.lookup idx).map Prod.fst
  | .str n => some n.str

/-- Only a literal with incremental indexing enters the table. -/
def HpackPeer.index (s : HpackPeer) (e : HpackEntry) : RfcKind → HpackPeer
  | .incremental => { s with table := rfcInsert s.max s.table e }
  | .without => s
  | .never => s

/-- The header that a field means, and the table afterwards; `none` for an index without
an entry. -/
def HpackPeer.emit (s : HpackPeer) : RfcField → Option (HpackEntry × HpackPeer)
  | .indexed idx => (s.lookup idx).map fun e => (e, s)
  | .literal kind name value =>
    (s.nameOf name).map fun n => ((n, value.str), s.index (n, value.str) kind)

def HpackPeer.emitFields : HpackPeer → List RfcField → Option (List HpackEntry × HpackPeer)
  | s, [] => some ([], s)
  | s, fd :: fds =>
    (s.emit fd).bind fun r => (r.2.emitFields fds).map fun r' => (r.1 :: r'.1, r'.2)

/-- The changes stay below `size`, and no others are announced. -/
def RfcBlock.Within (size : ℕ) (b : RfcBlock) : Prop :=
  (∀ v ∈ b.changes, v ≤ size) ∧ ∀ v ∈ b.updates, v ∈ b.changes

/-- A block: first the changes, then its fields. -/
def HpackPeer.emitBlock (s : HpackPeer) (b : RfcBlock) : Option (List HpackEntry × HpackPeer) :=
  (b.changes.foldl HpackPeer.resize s).emitFields b.fields

def HpackPeer.emitBlocks : HpackPeer → List RfcBlock → Option (List (List HpackEntry) × HpackPeer)
  | s, [] => some ([], s)
  | s, b :: bs =>
    (s.emitBlock b).bind fun r => (r.2.emitBlocks bs).map fun r' => (r.1 :: r'.1, r'.2)

/-! ### The room of strings -/

/-- What a string takes from the temporary chunk: what is decoded, and a zero byte. -/
def RfcStr.used (s : RfcStr) : ℕ := if s.huff then s.str.length + 1 else 0

/-- What is copied of an entry: nothing, if it is static. -/
def copied (idx : ℕ) (s : CStr) : ℕ := if idx < hpackShtSize then 0 else s.length + 1

/-- What a field with the header `e` takes from the chunk. -/
def RfcField.used (e : HpackEntry) : RfcField → ℕ
  | .indexed idx => copied idx e.2 + copied idx e.1
  | .literal _ (.idx idx) value => value.used + copied idx e.1
  | .literal _ (.str name) value => name.used + value.used

/-- A coded string and the room for it, in a chunk of `size` bytes with `data` in use. -/
def RfcStr.coded (size data : ℕ) (s : RfcStr) : List (CStr × ℕ) :=
  if s.huff then [(s.str, size - (data + 1))] else []

def RfcField.coded (size data : ℕ) : RfcField → List (CStr × ℕ)
  | .indexed _ => []
  | .literal _ (.idx _) value => value.coded size data
  | .literal _ (.str name) value => name.coded size data ++ value.coded size (data + name.used)

def codedFields (size : ℕ) : ℕ → List RfcField → List HpackEntry → List (CStr × ℕ)
  | data, fd :: fds, e :: es => fd.coded size data ++ codedFields size (data + fd.used e) fds es
  | _, _, _ => []

/-- Each string is read as a whole, or not at all. -/
def NoneCut (strs : List (CStr × ℕ)) : Prop := ∀ r ∈ strs, ¬ HuffCut r.1 r.2

instance decidableNoneCut (strs : List (CStr × ℕ)) : Decidable (NoneCut strs) :=
  inferInstanceAs (Decidable (∀ r ∈ strs, _))

/-- No string of a block with the headers `es` is cut.  The chunk is empty at the beginning. -/
def RfcBlock.Whole (size : ℕ) (b : RfcBlock) (es : List HpackEntry) : Prop :=
  NoneCut (codedFields size 0 b.fields es)

instance decidableWhole (size : ℕ) (b : RfcBlock) (es : List HpackEntry) :
    Decidable (b.Whole size es) :=
  inferInstanceAs (Decidable (NoneCut _))

theorem noneCut_append {strs strs' : List (CStr × ℕ)} :
    NoneCut (strs ++ strs') ↔ NoneCut strs ∧ NoneCut strs' := List.forall_mem_append

/-! ### Lists of fields -/

theorem HpackPeer.emitFields_cons {s s' : HpackPeer} {fd : RfcField} {fds : List RfcField}
    {es : List HpackEntry} (h : s.emitFields (fd :: fds) = some (es, s')) :
    ∃ e s₁ es', s.emit fd = some (e, s₁) ∧ s₁.emitFields fds = some (es', s') ∧ es = e :: es' := by
  rw [emitFields, Option.bind_eq_some_iff] at h
  obtain ⟨⟨e, s₁⟩, hemit, h⟩ := h
  obtain ⟨⟨es', s₂⟩, hrest, heq⟩ := Option.map_eq_some_iff.mp h
  obtain ⟨rfl, rfl⟩ := Prod.mk.inj heq
  exact ⟨e, s₁, es', hemit, hrest, rfl⟩

theorem HpackPeer.emitBlocks_cons {s s' : HpackPeer} {b : RfcBlock} {ess : List (List HpackEntry)}
    (h : s.emitBlocks (b :: bs) = some (ess, s')) :
    ∃ es s₁ ess', s.emitBlock b = some (es, s₁) ∧ s₁.emitBlocks bs = some (ess', s') ∧
      ess = es :: ess' := by
  rw [emitBlocks, Option.bind_eq_some_iff] at h
  obtain ⟨⟨es, s₁⟩, hemit, h⟩ := h
  obtain ⟨⟨ess', s₂⟩, hrest, heq⟩ := Option.map_eq_some_iff.mp h
  obtain ⟨rfl, rfl⟩ := Prod.mk.inj heq
  exact ⟨es, s₁, ess', hemit, hrest, rfl⟩

variable {dht : HpackDht} {s s' : HpackPeer} {size data ret : ℕ} {rest : List UInt8}

/-! ### A value, or a lack of room -/

/-- The call returns a value with the property `P`, or says that there is no room. -/
def OrFull {α : Type} (P : α → Prop) (x : HpackM α) : Prop :=
  x = throw .tooLarge ∨ x = throw .huffman ∨ ∃ a, x = pure a ∧ P a

theorem OrFull.pure {α : Type} {P : α → Prop} {a : α} (h : P a) : OrFull P (pure a : HpackM α) :=
  .inr (.inr ⟨a, rfl, h⟩)

theorem OrFull.bind {α β : Type} {P : α → Prop} {Q : β → Prop} {x : HpackM α} {f : α → HpackM β}
    (h : OrFull P x) (hf : ∀ a, P a → OrFull Q (f a)) : OrFull Q (x >>= f) := by
  rcases h with rfl | rfl | ⟨a, rfl, ha⟩
  · exact .inl rfl
  · exact .inr (.inl rfl)
  · rw [pure_bind]
    exact hf a ha

/-! ### Integers -/

theorem toNat_ofNat {n : ℕ} (h : n < 256) : (UInt8.ofNat n).toNat = n := Nat.mod_eq_of_lt h

theorem getVarInt_rfcInt {b op v : ℕ} (hop : op % 2 ^ b = 0) (hle : op + 2 ^ b ≤ 256)
    (hv : v < 2 ^ 32) : getVarInt b (rfcInt b op v ++ rest) = .ok (some (v, rest)) := by
  have hpos : 0 < 2 ^ b := Nat.two_pow_pos b
  obtain ⟨j, rfl⟩ := Nat.dvd_of_mod_eq_zero hop
  rw [rfcInt]
  split_ifs with hshort
  · have hmod : (2 ^ b * j + v) % 2 ^ b = v := by
      rw [Nat.mul_add_mod]
      exact Nat.mod_eq_of_lt (by omega)
    rw [List.singleton_append, getVarInt, toNat_ofNat (by omega), hmod, if_pos (by omega)]
  · have hmod : (2 ^ b * j + (2 ^ b - 1)) % 2 ^ b = 2 ^ b - 1 := by
      rw [Nat.mul_add_mod]
      exact Nat.mod_eq_of_lt (by omega)
    have hsum : 2 ^ b - 1 + (v - (2 ^ b - 1)) * 2 ^ 0 = v := by
      rw [pow_zero, Nat.mul_one]
      omega
    rw [List.cons_append, getVarInt, toNat_ofNat (by omega), hmod, if_neg (by simp),
      varIntLoop_encodeLenLoop _ (by decide) (by omega), hsum]

theorem readVarInt_rfcInt (b op v : ℕ) (rest : List UInt8) (hop : op % 2 ^ b = 0)
    (hle : op + 2 ^ b ≤ 256) (hv : v < 2 ^ 32) :
    readVarInt b (rfcInt b op v ++ rest) = pure (v, rest) := by
  rw [readVarInt, getVarInt_rfcInt hop hle hv]

theorem rfcInt_cons (b op v : ℕ) (hb : 0 < b) (hle : op + 2 ^ b ≤ 256) :
    ∃ c cs, rfcInt b op v = c :: cs ∧ op ≤ c.toNat ∧ c.toNat < op + 2 ^ b ∧
      (0 < v → op < c.toNat) := by
  have hpow : 2 ^ 1 ≤ 2 ^ b := Nat.pow_le_pow_right (by decide) hb
  rw [rfcInt]
  split_ifs with hshort
  · refine ⟨_, [], rfl, ?_⟩
    rw [toNat_ofNat (by omega)]
    omega
  · refine ⟨_, _, rfl, ?_⟩
    rw [toNat_ofNat (by omega)]
    omega

/-! ### Strings -/

theorem chunkNewstr_orFull :
    OrFull (fun data' => data' = data + 1 ∧ data' < size) (chunkNewstr size data) := by
  rw [chunkNewstr]
  split_ifs with hfull
  · exact .inl rfl
  · exact .pure ⟨rfl, Nat.lt_of_not_le hfull⟩

theorem hpackAllocString_orFull {str : CStr} :
    OrFull (fun data' => data' = data + copied idx str) (hpackAllocString size data idx str) := by
  rw [hpackAllocString, copied]
  split_ifs with hstatic
  · exact .pure rfl
  · refine chunkNewstr_orFull.bind fun data' hdata => ?_
    split_ifs
    · exact .inl rfl
    · rw [hdata.1]
      exact .pure (by omega)

theorem RfcStr.bytes_ne_nil (str : RfcStr) : str.bytes ≠ [] := by
  rw [bytes]
  split_ifs
  · obtain ⟨c, cs, hcons, -⟩ := rfcInt_cons 7 0x80 (huffEnc str.str).length
      (by decide) (by decide)
    rw [hcons]
    exact List.cons_ne_nil _ _
  · obtain ⟨c, cs, hcons, -⟩ := rfcInt_cons 7 0 str.str.length (by decide) (by decide)
    rw [hcons]
    exact List.cons_ne_nil _ _

theorem readString_bytes (str : RfcStr) (hcut : NoneCut (str.coded size data))
    (hlen : str.bytes.length < 2 ^ 32) :
    OrFull (fun r => r.1 = str.str ∧ r.2.1 = rest ∧ r.2.2 = data + str.used)
      (readString huffDecStr size data (str.bytes ++ rest)) := by
  have hne : str.bytes ++ rest ≠ [] := by
    exact List.append_ne_nil_of_left_ne_nil str.bytes_ne_nil _
  rw [readString]
  simp only [if_neg hne]
  rw [RfcStr.coded] at hcut
  rw [RfcStr.bytes] at hlen ⊢
  rw [RfcStr.used]
  by_cases hcoded : str.huff = true
  · rw [if_pos hcoded] at hlen hcut ⊢
    rw [if_pos hcoded]
    rw [List.length_append] at hlen
    obtain ⟨c, cs, hcons, hge, -⟩ := rfcInt_cons 7 0x80 (huffEnc str.str).length
      (by decide) (by decide)
    have hflag : ((rfcInt 7 0x80 (huffEnc str.str).length ++ huffEnc str.str ++ rest).headD 0).toNat
        ≥ 128 := by
      rw [hcons]
      exact hge
    rw [List.append_assoc] at hflag ⊢
    simp only [readVarInt_rfcInt 7 0x80 (huffEnc str.str).length (huffEnc str.str ++ rest)
      (by decide) (by decide) (by omega), pure_bind, hflag, if_true]
    rw [if_neg (by rw [List.length_append]; omega), List.take_left, List.drop_left]
    show OrFull _ (chunkNewstr size data >>= _)
    refine chunkNewstr_orFull.bind fun data' hdata => ?_
    obtain ⟨rfl, hdata⟩ := hdata
    rcases hdec : huffDecStr (huffEnc str.str) (size - (data + 1)) with - | s'
    · exact .inr (.inl rfl)
    · obtain rfl := huffDecStr_huffEnc (Nat.sub_pos_of_lt hdata) hdec (hcut _ List.mem_cons_self)
      exact .pure ⟨rfl, rfl, by dsimp only; omega⟩
  · rw [if_neg hcoded] at hlen ⊢
    rw [if_neg hcoded]
    rw [List.length_append] at hlen
    obtain ⟨c, cs, hcons, -, hlt, -⟩ := rfcInt_cons 7 0 str.str.length (by decide) (by decide)
    have hflag : ¬((rfcInt 7 0 str.str.length ++ str.str ++ rest).headD 0).toNat ≥ 128 := by
      rw [hcons]
      exact Nat.not_le_of_lt hlt
    rw [List.append_assoc] at hflag ⊢
    simp only [readVarInt_rfcInt 7 0 str.str.length (str.str ++ rest) (by decide) (by decide)
      (by omega), pure_bind, hflag, if_false]
    rw [if_neg (by rw [List.length_append]; omega), List.take_left, List.drop_left]
    exact .pure ⟨rfl, rfl, rfl⟩

/-! ### Names -/

/-- `h2_phdr_to_str` -/
def h2PhdrToStr (phdr : ℕ) : CStr :=
  match phdr with
  | 0 => bytes ":NONE"
  | 1 => bytes ":authority"
  | 2 => bytes ":method"
  | 3 => bytes ":path"
  | 4 => bytes ":scheme"
  | 5 => bytes ":status"
  | 6 => bytes "Host"
  | _ => bytes ":UNKNOWN"

/-- The name that an entry of the list stands for. -/
def HpackHdrName.toStr : HpackHdrName → CStr
  | .str s => s
  | .phdr n => h2PhdrToStr n

theorem h2PhdrToStr_hpackIdxToPhdr : ∀ idx < 15, 0 < idx → hpackIdxToPhdr idx ≠ 0 →
    h2PhdrToStr (hpackIdxToPhdr idx) = (hpackSht.getD idx ([], [])).1 := by decide +kernel

theorem idxName_orFull (hpos : 0 < idx) (mustIndex : Bool) :
    OrFull (fun r => r.1.toStr = hpackIdxToName dht idx ∧
        (mustIndex = true → r.1 = .str (hpackIdxToName dht idx)) ∧
        r.2 = data + copied idx (hpackIdxToName dht idx))
      (idxName dht size data idx mustIndex) := by
  rw [idxName]
  split_ifs with hphdr
  · obtain ⟨hfalse, hphdr⟩ := hphdr
    have hidx : idx < 15 := by
      by_contra hge
      exact hphdr (if_pos (by omega))
    have hstatic : idx < hpackShtSize := Nat.lt_trans hidx (by decide)
    refine .pure ⟨?_, fun htrue => absurd (hfalse.symm.trans htrue) Bool.false_ne_true, ?_⟩
    · rw [hpackIdxToName, if_pos hstatic]
      exact h2PhdrToStr_hpackIdxToPhdr idx hidx hpos hphdr
    · rw [copied, if_pos hstatic]
      rfl
  · exact hpackAllocString_orFull.bind fun data' hdata => .pure ⟨rfl, fun _ => rfl, hdata⟩

/-! ### Two tables -/

/-- The encoder has less room than the decoder, and its table is the beginning of the
decoder's, whose size can be configured. -/
structure Coupled (s : HpackPeer) (dht : HpackDht) : Prop where
  max_le : s.max ≤ dht.size
  size_le : dht.size ≤ 65567
  shown : ∃ p f, Layout dht p f ∧ s.table <+: p

/-- What the encoder's table has is in the decoder's at the same place, and an index means
the same on both sides. -/
structure InStep (s : HpackPeer) (dht : HpackDht) : Prop where
  table : ∃ p, Refines dht p ∧ s.table <+: p
  valid : ∀ idx e, s.lookup idx = some e → hpackValidIdx dht idx = true
  name : ∀ idx e, s.lookup idx = some e → hpackIdxToName dht idx = e.1
  value : ∀ idx e, s.lookup idx = some e → hpackIdxToValue dht idx = e.2

theorem Coupled.table_le (h : Coupled s dht) : dht.size ≤ hpackMaxSize :=
  Nat.le_trans h.size_le (by decide)

theorem Coupled.inStep (h : Coupled s dht) : InStep s dht := by
  obtain ⟨p, f, hl, hp⟩ := h.shown
  have href := hl.refines h.table_le
  -- an index is one of the static table, or it has its entry in both tables
  have hidx {idx : ℕ} {e : HpackEntry} (hlook : s.lookup idx = some e) :
      (idx < hpackShtSize ∧ hpackSht.getD idx ([], []) = e) ∨
        ∃ j, idx = hpackShtSize + j ∧ p[j]? = some e := by
    rw [HpackPeer.lookup] at hlook
    split_ifs at hlook with hzero hstatic
    · exact .inl ⟨hstatic, Option.some.inj hlook⟩
    · obtain ⟨q, rfl⟩ := hp
      refine .inr ⟨idx - hpackShtSize, by omega, ?_⟩
      have hj : idx - hpackShtSize < s.table.length := (List.getElem?_eq_some_iff.mp hlook).1
      rw [List.getElem?_append_left hj]
      exact hlook
  refine ⟨⟨p, href, hp⟩, fun idx e hlook => ?_, fun idx e hlook => ?_, fun idx e hlook => ?_⟩
  · rcases hidx hlook with ⟨hstatic, -⟩ | ⟨j, rfl, hj⟩
    · rw [hpackValidIdx, decide_eq_true_eq]
      omega
    · rw [href.valid, decide_eq_true_eq]
      exact (List.getElem?_eq_some_iff.mp hj).1
  · rcases hidx hlook with ⟨hstatic, rfl⟩ | ⟨j, rfl, hj⟩
    · rw [hpackIdxToName, if_pos hstatic]
    · exact href.name j e hj
  · rcases hidx hlook with ⟨hstatic, rfl⟩ | ⟨j, rfl, hj⟩
    · rw [hpackIdxToValue, if_pos hstatic]
    · exact href.value j e hj

theorem Coupled.resize (h : Coupled s dht) {max : ℕ} (hmax : max ≤ dht.size) :
    Coupled (s.resize max) dht := by
  obtain ⟨p, f, hl, hp⟩ := h.shown
  exact ⟨hmax, h.size_le, p, f, hl, (rfcKeep_isPrefix_self max s.table).trans hp⟩

theorem Coupled.resizes {changes : List ℕ} (h : Coupled s dht) (hc : ∀ v ∈ changes, v ≤ dht.size) :
    Coupled (changes.foldl HpackPeer.resize s) dht := by
  induction changes generalizing s with
  | nil => exact h
  | cons v changes ih =>
    exact ih (h.resize (hc v List.mem_cons_self)) fun v' hv' => hc v' (List.mem_cons_of_mem v hv')

theorem Coupled.insert (h : Coupled s dht) (he : entryLen e < 2 ^ 31) :
    ∃ dht', hpackDhtInsert dht e.1 e.2 = .ok dht' ∧ dht'.size = dht.size ∧
      Coupled (s.index e .incremental) dht' := by
  obtain ⟨p, f, hl, hp⟩ := h.shown
  have hcost : rfcCost e = e.1.length + e.2.length + 32 := rfl
  have hsize := h.size_le
  obtain ⟨dht', f', hrun, hl', hsize'⟩ := hpackDhtInsert_spec hl h.table_le
    ⟨he, fun hle => by omega, fun hle => by omega⟩
  refine ⟨dht', hrun, hsize', ?_, ?_, _, f', hl', rfcInsert_isPrefix hp h.max_le e⟩
  · rw [hsize']
    exact h.max_le
  · rw [hsize']
    exact hsize

theorem Coupled.index (h : Coupled s dht) (he : entryLen e < 2 ^ 31) (kind : RfcKind)
    (name : HpackHdrName) (hname : kind = .incremental → name = .str e.1) :
    ∃ dht', indexField dht name e.2 (decide (kind = .incremental)) = pure dht' ∧
      dht'.size = dht.size ∧ Coupled (s.index e kind) dht' := by
  cases kind with
  | incremental =>
    obtain ⟨dht', hrun, hsize, hcoupled⟩ := h.insert he
    refine ⟨dht', ?_, hsize, hcoupled⟩
    rw [hname rfl]
    show ExceptT.lift (hpackDhtInsert dht e.1 e.2) = _
    rw [hrun]
    rfl
  | without => exact ⟨dht, by cases name <;> rfl, rfl, h⟩
  | never => exact ⟨dht, by cases name <;> rfl, rfl, h⟩

theorem Coupled.lookup_lt (h : Coupled s dht) (hlook : s.lookup idx = some e) :
    0 < idx ∧ idx < 2 ^ 32 := by
  obtain ⟨p, f, hl, -⟩ := h.shown
  have hvalid := h.inStep.valid idx e hlook
  have hlen := hl.length_lt
  have hsize := h.size_le
  rw [hpackValidIdx, decide_eq_true_eq, hl.used] at hvalid
  have hshort : hpackShtSize = 62 := rfl
  rw [HpackPeer.lookup] at hlook
  split_ifs at hlook <;> omega

/-! ### One field -/

/-- What the decoder makes of a field: the header `e`, which it indexes if the encoder does.
It has `data` bytes of the chunk in use. -/
def ReadsAs (dht : HpackDht) (rest : List UInt8) (data : ℕ) (e : HpackEntry) (s' : HpackPeer)
    (field : HpackField) : Prop :=
  field.raw = rest ∧ field.data = data ∧ ∃ name mustIndex dht', field.hdr = some (name, e.2, mustIndex) ∧
    name.toStr = e.1 ∧ indexField dht name e.2 mustIndex = pure dht' ∧ dht'.size = dht.size ∧
    Coupled s' dht'

theorem and_sub_ne_zero_of_index : ∀ k < 128, k ≠ 0 ∧ k ≠ 16 ∧ k ≠ 64 ∧ (k < 32 ∨ 64 ≤ k) →
    UInt8.ofNat k &&& (UInt8.ofNat k - 0x10) ≠ 0 := by decide +kernel

theorem RfcKind.op_bits (kind : RfcKind) :
    kind.op % 2 ^ kind.bits = 0 ∧ kind.op + 2 ^ kind.bits ≤ 128 ∧ 0 < kind.bits := by
  cases kind <;> decide

theorem decodeField_indexed (h : Coupled s dht) (hlook : s.lookup idx = some e) :
    ∃ c raw, rfcInt 7 0x80 idx ++ rest = c :: raw ∧
      OrFull (ReadsAs dht rest (data + RfcField.used e (.indexed idx)) e s)
        (decodeField huffDecStr dht size data ret c raw) := by
  obtain ⟨hpos, hlt⟩ := h.lookup_lt hlook
  obtain ⟨c, cs, hcons, -, -, hop⟩ := rfcInt_cons 7 0x80 idx (by decide) (by decide)
  have hc : 0x80 < c.toNat := hop hpos
  have hne : c ≠ 0x80 := fun heq => absurd hc (by rw [heq]; decide)
  refine ⟨c, cs ++ rest, by rw [hcons]; rfl, ?_⟩
  rw [decodeField, if_pos (Nat.le_of_lt hc), if_neg hne, ← List.cons_append, ← hcons, decodeIndexed,
    readVarInt_rfcInt 7 0x80 idx rest (by decide) (by decide) hlt, pure_bind]
  dsimp only
  rw [h.inStep.valid idx e hlook, if_neg Bool.noConfusion, h.inStep.value idx e hlook]
  refine hpackAllocString_orFull.bind fun data' hdata => ?_
  refine (idxName_orFull hpos false).bind fun r hr =>
    .pure ⟨rfl, ?_, r.1, false, dht, rfl, ?_, ?_, rfl, h⟩
  · dsimp only
    rw [hr.2.2, hdata, h.inStep.name idx e hlook, RfcField.used, Nat.add_assoc]
  · rw [hr.1, h.inStep.name idx e hlook]
  · cases r.1 <;> rfl

theorem decodeField_literal (h : Coupled s dht) (kind : RfcKind) (name value : RfcStr)
    (hcut : NoneCut (name.coded size data ++ value.coded size (data + name.used)))
    (he : entryLen (name.str, value.str) < 2 ^ 31) (hname : name.bytes.length < 2 ^ 32)
    (hvalue : value.bytes.length < 2 ^ 32) :
    OrFull (ReadsAs dht rest (data + (name.used + value.used)) (name.str, value.str)
        (s.index (name.str, value.str) kind))
      (decodeField huffDecStr dht size data ret (UInt8.ofNat kind.op)
        (name.bytes ++ (value.bytes ++ rest))) := by
  have hbranch : decodeField huffDecStr dht size data ret (UInt8.ofNat kind.op)
        (name.bytes ++ (value.bytes ++ rest))
      = decodeLiteral huffDecStr size data (UInt8.ofNat kind.op)
        (name.bytes ++ (value.bytes ++ rest)) := by
    cases kind <;> rfl
  have hmust : decide (UInt8.ofNat kind.op = 0x40) = decide (kind = .incremental) := by
    cases kind <;> rfl
  obtain ⟨hcutName, hcutValue⟩ := noneCut_append.mp hcut
  rw [hbranch, decodeLiteral]
  refine (readString_bytes name hcutName hname).bind fun r hr => ?_
  obtain ⟨n, raw, data₁⟩ := r
  obtain ⟨rfl, rfl, rfl⟩ := hr
  refine (readString_bytes value hcutValue hvalue).bind fun r hr => ?_
  obtain ⟨v, raw, data₂⟩ := r
  obtain ⟨rfl, rfl, rfl⟩ := hr
  obtain ⟨dht', hindex, hsize, hcoupled⟩ := h.index he kind (.str name.str) fun _ => rfl
  refine .pure ⟨rfl, Nat.add_assoc .., .str name.str, _, dht', rfl, rfl, ?_, hsize, hcoupled⟩
  dsimp only
  rw [hmust]
  exact hindex

/-- "literal header field -- indexed name" -/
theorem decodeField_idxName (h : Coupled s dht) (kind : RfcKind) (hlook : s.lookup idx = some e)
    (value : RfcStr) (hcut : NoneCut (value.coded size data))
    (he : entryLen (e.1, value.str) < 2 ^ 31) (hvalue : value.bytes.length < 2 ^ 32) :
    ∃ c raw, rfcInt kind.bits kind.op idx ++ (value.bytes ++ rest) = c :: raw ∧
      OrFull (ReadsAs dht rest (data + (value.used + copied idx e.1)) (e.1, value.str)
          (s.index (e.1, value.str) kind))
        (decodeField huffDecStr dht size data ret c raw) := by
  obtain ⟨hpos, hlt⟩ := h.lookup_lt hlook
  obtain ⟨hop, hle, hbits⟩ := kind.op_bits
  obtain ⟨c, cs, hcons, -, hhigh, hlow⟩ := rfcInt_cons kind.bits kind.op idx hbits
    (by omega)
  have hc : kind.op < c.toNat := hlow hpos
  -- the ranges of the first byte are apart
  have hrange : c.toNat ≠ 0 ∧ c.toNat ≠ 16 ∧ c.toNat ≠ 64 ∧ (c.toNat < 32 ∨ 64 ≤ c.toNat) := by
    cases kind <;> simp only [RfcKind.op, RfcKind.bits] at hc hhigh <;> omega
  have hand := and_sub_ne_zero_of_index c.toNat (by omega) hrange
  rw [UInt8.ofNat_toNat] at hand
  have hmust : decide (c.toNat ≥ 0x41) = decide (kind = .incremental) := by
    rw [decide_eq_decide]
    cases kind <;> simp only [RfcKind.op, RfcKind.bits] at hc hhigh <;> simp <;> omega
  have hwidth : (if decide (kind = .incremental) = true then 6 else 4) = kind.bits := by
    cases kind <;> rfl
  have hvar := readVarInt_rfcInt _ _ idx (value.bytes ++ rest) hop
    (Nat.le_trans hle (by decide)) hlt
  refine ⟨c, cs ++ (value.bytes ++ rest), by rw [hcons]; rfl, ?_⟩
  rw [decodeField, if_neg (by omega), if_neg (by omega), if_neg hand, ← List.cons_append, ← hcons,
    decodeIdxName, hmust]
  dsimp only
  rw [hwidth, hvar, pure_bind]
  dsimp only
  rw [if_neg (List.append_ne_nil_of_left_ne_nil value.bytes_ne_nil _),
    h.inStep.valid idx e hlook, if_neg Bool.noConfusion]
  refine (readString_bytes value hcut hvalue).bind fun r hr => ?_
  obtain ⟨v, raw, data₁⟩ := r
  obtain ⟨rfl, rfl, rfl⟩ := hr
  refine (idxName_orFull hpos _).bind fun r hr => ?_
  rw [h.inStep.name idx e hlook] at hr
  obtain ⟨dht', hindex, hsize, hcoupled⟩ := h.index he kind r.1
    fun hkind => hr.2.1 (decide_eq_true hkind)
  exact .pure ⟨rfl, hr.2.2.trans (Nat.add_assoc ..), r.1, _, dht', rfl, hr.1, hindex, hsize,
    hcoupled⟩

variable (size data ret rest) in
/-- **One field**, with anything behind it. -/
theorem decodeField_emit (h : Coupled s dht) {fd : RfcField} (hemit : s.emit fd = some (e, s'))
    (hcut : NoneCut (fd.coded size data)) (he : entryLen e < 2 ^ 31)
    (hlen : fd.bytes.length < 2 ^ 32) :
    ∃ c raw, fd.bytes ++ rest = c :: raw ∧
      OrFull (ReadsAs dht rest (data + fd.used e) e s')
        (decodeField huffDecStr dht size data ret c raw) := by
  cases fd with
  | indexed idx =>
    obtain ⟨e', hlook, heq⟩ := Option.map_eq_some_iff.mp hemit
    obtain ⟨rfl, rfl⟩ := Prod.mk.inj heq
    exact decodeField_indexed h hlook
  | literal kind name value =>
    obtain ⟨n, hn, heq⟩ := Option.map_eq_some_iff.mp hemit
    obtain ⟨rfl, rfl⟩ := Prod.mk.inj heq
    cases name with
    | idx idx =>
      obtain ⟨e', hlook, rfl⟩ := Option.map_eq_some_iff.mp hn
      rw [RfcField.bytes, List.length_append] at hlen
      rw [RfcField.bytes, List.append_assoc]
      exact decodeField_idxName h kind hlook value hcut he (by omega)
    | str name =>
      obtain rfl := Option.some.inj hn
      rw [RfcField.bytes, List.length_cons, List.length_append] at hlen
      rw [RfcField.bytes, List.cons_append, List.append_assoc]
      exact ⟨_, _, rfl, decodeField_literal h kind name value hcut he (by omega) (by omega)⟩

variable (size data rest) in
theorem decodeField_update {v : ℕ} (hv : v ≤ dht.size) (hsize : dht.size ≤ 65567) :
    ∃ c raw, rfcInt 5 0x20 v ++ rest = c :: raw ∧
      decodeField huffDecStr dht size data 0 c raw = pure ⟨none, rest, data⟩ := by
  obtain ⟨c, cs, hcons, hlow, hhigh, -⟩ := rfcInt_cons 5 0x20 v (by decide) (by decide)
  have hrange : c.toNat ≥ 0x20 ∧ c.toNat ≤ 0x3f := ⟨hlow, Nat.le_of_lt_succ hhigh⟩
  refine ⟨c, cs ++ rest, by rw [hcons]; rfl, ?_⟩
  rw [decodeField, if_neg (by omega), if_pos hrange, ← List.cons_append, ← hcons, decodeSizeUpdate,
    readVarInt_rfcInt 5 0x20 v rest (by decide) (by decide) (by omega)]
  simp only [ne_eq, not_true_eq_false, if_false, pure_bind, gt_iff_lt, Nat.not_lt.mpr hv]

/-! ### The loop -/

/-- The headers of a list, by their names. -/
def readable (list : List (HpackHdrName × CStr)) : List HpackEntry :=
  list.map fun h => (h.1.toStr, h.2)

/-- The loop that had `list` went on for the headers `es` and stands before `rest`. -/
def StandsBefore (listSize size : ℕ) (dht : HpackDht)
    (list : List (HpackHdrName × CStr)) (rest : List UInt8) (es : List HpackEntry) (s' : HpackPeer)
    (x : HpackM (List (HpackHdrName × CStr) × HpackDht)) : Prop :=
  x = throw .tooLarge ∨ x = throw .huffman ∨ ∃ fuel data out dht', rest.length ≤ fuel ∧
    x = decodeLoop huffDecStr listSize size fuel dht' data (list ++ out) rest ∧ readable out = es ∧
    dht'.size = dht.size ∧ Coupled s' dht'

variable (size data rest) in
theorem decodeLoop_updates (listSize : ℕ) (hsize : dht.size ≤ 65567) {us : List ℕ}
    (hus : ∀ v ∈ us, v ≤ dht.size) {fuel : ℕ}
    (hfuel : (us.flatMap (rfcInt 5 0x20) ++ rest).length ≤ fuel) :
    ∃ fuel', rest.length ≤ fuel' ∧
      decodeLoop huffDecStr listSize size fuel dht data [] (us.flatMap (rfcInt 5 0x20) ++ rest)
        = decodeLoop huffDecStr listSize size fuel' dht data [] rest := by
  induction us generalizing fuel with
  | nil => exact ⟨fuel, hfuel, rfl⟩
  | cons v us ih =>
    obtain ⟨c, raw, hcons, hfield⟩ := decodeField_update size data
      (us.flatMap (rfcInt 5 0x20) ++ rest) (hus v List.mem_cons_self) hsize
    rw [List.flatMap_cons, List.append_assoc, hcons] at hfuel ⊢
    obtain ⟨fuel, rfl⟩ : ∃ k, fuel = k + 1 := ⟨fuel - 1, by
      rw [List.length_cons] at hfuel
      omega⟩
    have hraw : (us.flatMap (rfcInt 5 0x20) ++ rest).length ≤ fuel := by
      obtain ⟨c', cs, hint, -⟩ := rfcInt_cons 5 0x20 v (by decide) (by decide)
      have hlen := congrArg List.length hcons
      rw [hint, List.length_append, List.length_cons] at hlen
      omega
    obtain ⟨fuel', hle, hrun⟩ := ih (fun v' hv' => hus v' (List.mem_cons_of_mem v hv')) hraw
    refine ⟨fuel', hle, ?_⟩
    rw [decodeLoop, List.length_nil, hfield, pure_bind]
    exact hrun

theorem decodeLoop_fields (listSize size : ℕ) {fds : List RfcField} :
    ∀ {s : HpackPeer} {dht : HpackDht} {es : List HpackEntry} (fuel data : ℕ)
      (list : List (HpackHdrName × CStr)), Coupled s dht → s.emitFields fds = some (es, s') →
      NoneCut (codedFields size data fds es) → (∀ e ∈ es, entryLen e < 2 ^ 31) →
      (fds.flatMap RfcField.bytes).length < 2 ^ 32 →
      (fds.flatMap RfcField.bytes ++ rest).length ≤ fuel →
      StandsBefore listSize size dht list rest es s'
        (decodeLoop huffDecStr listSize size fuel dht data list
          (fds.flatMap RfcField.bytes ++ rest)) := by
  induction fds with
  | nil =>
    intro s dht es fuel data list h hemit _ _ _ hfuel
    obtain ⟨rfl, rfl⟩ := Prod.mk.inj (Option.some.inj hemit)
    refine .inr (.inr ⟨fuel, data, [], dht, hfuel, ?_, rfl, rfl, h⟩)
    rw [List.append_nil]
    rfl
  | cons fd fds ih =>
    intro s dht es fuel data list h hemit hcut hes hlen hfuel
    obtain ⟨e, s₁, es', hone, hmore, rfl⟩ := HpackPeer.emitFields_cons hemit
    obtain ⟨hcut₁, hcut⟩ := noneCut_append.mp hcut
    rw [List.flatMap_cons, List.length_append] at hlen
    rw [List.flatMap_cons, List.append_assoc] at hfuel ⊢
    obtain ⟨c, raw, hcons, hfield⟩ := decodeField_emit size data list.length
      (fds.flatMap RfcField.bytes ++ rest) h hone hcut₁ (hes e List.mem_cons_self) (by omega)
    have hpos : 0 < fd.bytes.length := by
      obtain ⟨c', raw', hcons', -⟩ := decodeField_emit size data list.length []
        h hone hcut₁ (hes e List.mem_cons_self) (by omega)
      rw [List.append_nil] at hcons'
      rw [hcons']
      exact Nat.succ_pos _
    rw [List.length_append] at hfuel
    obtain ⟨fuel, rfl⟩ : ∃ k, fuel = k + 1 := ⟨fuel - 1, by omega⟩
    rw [hcons, decodeLoop]
    rcases hfield with hthrow | hthrow | ⟨field, hread, hraw, hdata, name, mustIndex, dht₁, hhdr,
        hname, hindex, hsize₁, hcoupled⟩
    · rw [hthrow]
      exact .inl rfl
    · rw [hthrow]
      exact .inr (.inl rfl)
    · rw [hread, pure_bind, hhdr, hraw, hdata]
      dsimp only
      rcases Nat.lt_or_ge list.length listSize with hroom | hfull
      · rw [if_neg (Nat.not_le_of_lt hroom), hindex, pure_bind]
        -- one header more in the list
        rcases ih fuel (data + fd.used e) (list ++ [(name, e.2)]) hcoupled hmore hcut
            (fun e' he' => hes e' (List.mem_cons_of_mem e he')) (by omega) (by omega)
          with hthrow | hthrow | ⟨fuel', data', out, dht', hle, hrun, hout, hsize', hcoupled'⟩
        · exact .inl hthrow
        · exact .inr (.inl hthrow)
        · refine .inr (.inr ⟨fuel', data', (name, e.2) :: out, dht', hle, ?_, ?_,
            hsize'.trans hsize₁, hcoupled'⟩)
          · rw [List.append_assoc] at hrun
            exact hrun
          · rw [readable, List.map_cons, ← readable, hout, hname]
      · rw [if_pos hfull]
        exact .inl rfl

variable (rest) in
/-- **A block**, or the beginning of one: the changes of the maximum, their announcements, and
fields. -/
theorem hpackDecodeFrame_block (listSize size : ℕ) (h : Coupled s dht) {b : RfcBlock}
    {es : List HpackEntry} (hb : b.Within dht.size) (hemit : s.emitBlock b = some (es, s'))
    (hcut : b.Whole size es) (hes : ∀ e ∈ es, entryLen e < 2 ^ 31)
    (hlen : (b.bytes ++ rest).length < 2 ^ 32) :
    StandsBefore listSize size dht [] rest es s'
      (hpackDecodeFrame huffDecStr dht (b.bytes ++ rest) listSize size) := by
  obtain ⟨hchanges, hupdates⟩ := hb
  have hbytes : b.bytes ++ rest = b.updates.flatMap (rfcInt 5 0x20)
      ++ (b.fields.flatMap RfcField.bytes ++ rest) := List.append_assoc ..
  rw [hbytes] at hlen ⊢
  obtain ⟨fuel, hfuel, hrun⟩ := decodeLoop_updates size 0
    (b.fields.flatMap RfcField.bytes ++ rest) listSize h.size_le
    (fun v hv => hchanges v (hupdates v hv)) (Nat.le_refl _)
  rw [hpackDecodeFrame, hrun]
  simp only [List.length_append] at hlen
  exact decodeLoop_fields listSize size fuel 0 [] (h.resizes hchanges) hemit hcut hes (by omega)
    hfuel

/-! ### Connections -/

/-- The blocks of a connection, all decoded with one table. -/
def decodeBlocks (listSize size : ℕ) :
    HpackDht → List (List UInt8) → HpackM (List (List (HpackHdrName × CStr)) × HpackDht)
  | dht, [] => pure ([], dht)
  | dht, raw :: raws => do
    let (list, dht) ← hpackDecodeFrame huffDecStr dht raw listSize size
    let (lists, dht) ← decodeBlocks listSize size dht raws
    pure (list :: lists, dht)

theorem decodeBlocks_emitBlocks (listSize size : ℕ) :
    ∀ {s : HpackPeer} {dht : HpackDht} {ess : List (List HpackEntry)}, Coupled s dht →
      (∀ b ∈ bs, b.Within dht.size ∧ b.bytes.length < 2 ^ 32) →
      s.emitBlocks bs = some (ess, s') → (∀ p ∈ bs.zip ess, p.1.Whole size p.2) →
      (∀ es ∈ ess, ∀ e ∈ es, entryLen e < 2 ^ 31) →
      OrFull (fun r => r.1.map readable = ess ∧ r.2.size = dht.size ∧ Coupled s' r.2)
        (decodeBlocks listSize size dht (bs.map RfcBlock.bytes)) := by
  induction bs with
  | nil =>
    intro s dht ess h _ hemit _ _
    obtain ⟨rfl, rfl⟩ := Prod.mk.inj (Option.some.inj hemit)
    exact .pure ⟨rfl, rfl, h⟩
  | cons b bs ih =>
    intro s dht ess h hbs hemit hcut hess
    obtain ⟨es, s₁, ess', hone, hmore, rfl⟩ := HpackPeer.emitBlocks_cons hemit
    obtain ⟨hwithin, hlen⟩ := hbs b List.mem_cons_self
    rw [List.zip_cons_cons] at hcut
    have hblock := hpackDecodeFrame_block [] listSize size h hwithin hone
      (hcut _ List.mem_cons_self) (hess es List.mem_cons_self) (by rwa [List.append_nil])
    rw [List.append_nil] at hblock
    rw [List.map_cons, decodeBlocks]
    -- the loop is at the end of the block, where the number of headers is tested
    have hframe : OrFull (fun r => readable r.1 = es ∧ r.2.size = dht.size ∧ Coupled s₁ r.2)
        (hpackDecodeFrame huffDecStr dht b.bytes listSize size) := by
      rcases hblock with hthrow | hthrow | ⟨fuel, data, out, dht', -, hrun, hout, hsize, hcoupled⟩
      · exact .inl hthrow
      · exact .inr (.inl hthrow)
      · rw [hrun]
        have hend : decodeLoop huffDecStr listSize size fuel dht' data ([] ++ out) []
            = if out.length ≥ listSize then throw .tooLarge else pure (out, dht') := by
          cases fuel <;> rfl
        rw [hend]
        split_ifs
        · exact .inl rfl
        · exact .pure ⟨hout, hsize, hcoupled⟩
    refine hframe.bind fun r hr => ?_
    obtain ⟨list, dht'⟩ := r
    obtain ⟨hlist, hsize, hcoupled⟩ := hr
    dsimp only at hlist hsize hcoupled ⊢
    rw [← hsize] at hbs ⊢
    refine (ih hcoupled (fun b' hb' => hbs b' (List.mem_cons_of_mem b hb')) hmore
      (fun p hp => hcut p (List.mem_cons_of_mem _ hp))
      fun es' hes' => hess es' (List.mem_cons_of_mem es hes')).bind fun r' hr' => .pure ?_
    obtain ⟨hlists, hsize', hcoupled'⟩ := hr'
    refine ⟨?_, hsize', hcoupled'⟩
    rw [List.map_cons, hlist, hlists]

/-- **Updates of the table size are harmless**: whatever blocks an encoder has sent, and however
much of the next one, its table is the beginning of the decoder's, and each index means the
same on both sides.  The headers were read as they were meant, if no coded string is cut. -/
theorem hpack_updates_harmless (dht₀ : HpackDht) {dhtSize max : ℕ}
    (harea : dht₀.area.length = dhtSize) (hdht : dhtSize ≤ 65567) (hmax : max ≤ dhtSize)
    (listSize size : ℕ) {ess : List (List HpackEntry)}
    (hbs : ∀ b ∈ bs, b.Within dhtSize ∧ b.bytes.length < 2 ^ 32)
    (hemit : HpackPeer.emitBlocks ⟨max, []⟩ bs = some (ess, s))
    (hcut : ∀ p ∈ bs.zip ess, p.1.Whole size p.2)
    (hess : ∀ es ∈ ess, ∀ e ∈ es, entryLen e < 2 ^ 31) :
    OrFull (fun r => r.1.map readable = ess ∧ InStep s r.2 ∧
        ∀ b es s' rest, b.Within dhtSize → s.emitBlock b = some (es, s') → b.Whole size es →
          (∀ e ∈ es, entryLen e < 2 ^ 31) → (b.bytes ++ rest).length < 2 ^ 32 →
          hpackDecodeFrame huffDecStr r.2 (b.bytes ++ rest) listSize size = throw .tooLarge ∨
          hpackDecodeFrame huffDecStr r.2 (b.bytes ++ rest) listSize size = throw .huffman ∨
          ∃ fuel data list dht', rest.length ≤ fuel ∧
            hpackDecodeFrame huffDecStr r.2 (b.bytes ++ rest) listSize size
              = decodeLoop huffDecStr listSize size fuel dht' data list rest ∧
            readable list = es ∧ InStep s' dht')
      (decodeBlocks listSize size (hpackDhtInit dht₀ dhtSize)
        (bs.map RfcBlock.bytes)) := by
  have hinit : Coupled ⟨max, []⟩ (hpackDhtInit dht₀ dhtSize) :=
    ⟨hmax, hdht, [], 0, layout_init dht₀ harea, List.prefix_rfl⟩
  have hblocks := decodeBlocks_emitBlocks listSize size hinit hbs hemit hcut hess
  rcases hblocks with hthrow | hthrow | ⟨r, hrun, hlists, hsize, hcoupled⟩
  · exact .inl hthrow
  · exact .inr (.inl hthrow)
  refine .inr (.inr ⟨r, hrun, hlists, hcoupled.inStep,
    fun b es s' rest hb hone hwhole hes hlen => ?_⟩)
  have hsize' : r.2.size = dhtSize := hsize
  rw [← hsize'] at hb
  rcases hpackDecodeFrame_block rest listSize size hcoupled hb hone hwhole hes hlen
    with hthrow | hthrow | ⟨fuel, data, out, dht', hfuel, hframe, hout, -, hcoupled'⟩
  · exact .inl hthrow
  · exact .inr (.inl hthrow)
  · exact .inr (.inr ⟨fuel, data, out, dht', hfuel, hframe, hout, hcoupled'.inStep⟩)

/-- The maximum is reduced to 33, and the next entry is too large for the encoder. -/
def reducedBlocks : List RfcBlock :=
  [⟨[], [], [.literal .incremental (.str ⟨false, [120]⟩) ⟨true, [97]⟩]⟩,
    ⟨[33], [33], [.literal .incremental (.str ⟨false, [121]⟩) ⟨false, [98]⟩,
      .literal .incremental (.str ⟨false, []⟩) ⟨false, [99]⟩, .indexed 62]⟩]

theorem hpack_updates_harmless_reduced :
    ∃ lists dht, decodeBlocks 8 64 (hpackDhtInit (hpackAlloc 80) 80)
        (reducedBlocks.map RfcBlock.bytes) = pure (lists, dht) ∧
      lists.map readable = [[([120], [97])], [([121], [98]), ([], [99]), ([], [99])]] ∧
      InStep ⟨33, [([], [99])]⟩ dht := by
  have hok : ((decodeBlocks 8 64 (hpackDhtInit (hpackAlloc 80) 80)
      (reducedBlocks.map RfcBlock.bytes)).run.toOption.bind Except.toOption).isSome
        = true := by decide +kernel
  have hbs : ∀ b ∈ reducedBlocks, b.Within 80 ∧ b.bytes.length < 2 ^ 32 := by
    intro b hb
    simp only [reducedBlocks, List.mem_cons, List.not_mem_nil, or_false] at hb
    rcases hb with rfl | rfl
    · exact ⟨⟨by decide, by decide⟩, by decide +kernel⟩
    · exact ⟨⟨by decide, by decide⟩, by decide +kernel⟩
  have hemit : HpackPeer.emitBlocks ⟨80, []⟩ reducedBlocks = some
      ([[([120], [97])], [([121], [98]), ([], [99]), ([], [99])]], ⟨33, [([], [99])]⟩) := rfl
  rcases hpack_updates_harmless (hpackAlloc 80) List.length_replicate (by decide)
      (Nat.le_refl _) 8 64 hbs hemit (by decide +kernel) (by decide +kernel)
    with hthrow | hthrow | ⟨r, hrun, hlists, hstep, -⟩
  · rw [hthrow] at hok
    exact Bool.noConfusion hok
  · rw [hthrow] at hok
    exact Bool.noConfusion hok
  · exact ⟨r.1, r.2, hrun, hlists, hstep⟩

/-- A block that leaves one byte of a chunk of 16384 bytes for the string "!a". -/
def cutBlock : RfcBlock :=
  ⟨[], [], .literal .incremental (.str ⟨false, [121]⟩) ⟨false, List.replicate 3273 98⟩ ::
    (List.replicate 5 (.indexed 62) ++ [.literal .without (.idx 62) ⟨false, []⟩,
      .literal .incremental (.str ⟨false, [120]⟩) ⟨true, [33, 97]⟩])⟩

/-- The string is cut: the first entry has the value "!a" for the encoder, and "!" for the
decoder. -/
theorem not_hpack_updates_harmless : cutBlock.Within 4096 ∧ ∃ ess s lists dht,
    HpackPeer.emitBlocks ⟨4096, []⟩ [cutBlock] = some (ess, s) ∧
    decodeBlocks 202 16384 (hpackDhtInit (hpackAlloc 4096) 4096) [cutBlock.bytes]
      = pure (lists, dht) ∧
    s.lookup 62 = some ([120], [33, 97]) ∧ hpackIdxToValue dht 62 = [33] ∧ ¬ InStep s dht := by
  have hemit : (HpackPeer.emitBlocks ⟨4096, []⟩ [cutBlock]).map (fun r => r.2.lookup 62)
      = some (some ([120], [33, 97])) := by decide +kernel
  have hdec : ((decodeBlocks 202 16384 (hpackDhtInit (hpackAlloc 4096) 4096)
      [cutBlock.bytes]).run.toOption.bind Except.toOption).map (fun r => hpackIdxToValue r.2 62)
        = some [33] := by decide +kernel
  obtain ⟨⟨ess, s⟩, hrun, hlook⟩ := Option.map_eq_some_iff.mp hemit
  refine ⟨⟨by decide, by decide⟩, ess, s, ?_⟩
  rcases hx : decodeBlocks 202 16384 (hpackDhtInit (hpackAlloc 4096) 4096) [cutBlock.bytes]
    with f | e | ⟨lists, dht⟩
  · rw [hx] at hdec
    cases hdec
  · rw [hx] at hdec
    cases hdec
  · rw [hx] at hdec
    have hvalue : hpackIdxToValue dht 62 = [33] := Option.some.inj hdec
    refine ⟨lists, dht, hrun, rfl, hlook, hvalue, fun hstep => ?_⟩
    have hne := hvalue.symm.trans (hstep.value 62 _ hlook)
    exact absurd hne (by decide)

end SmartHAProxy
