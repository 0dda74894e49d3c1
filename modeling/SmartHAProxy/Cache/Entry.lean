/-
The entries of the HTTP cache (cache.c).

Entries are found by the first 32 bits of their hash.  Entries with the same 32 bits are
duplicates in the tree: other resources, or variants of one resource, which have a
secondary key that stands for the request headers the response varies on.

An entry is named by a number; `obj` is the memory of the entries.
-/
import Mathlib.Algebra.Ring.Nat
import SmartHAProxy.Lib.CString
import SmartHAProxy.Lib.EbDup

namespace SmartHAProxy

/-! ### Entries -/

abbrev CacheHash := {h : CStr // h.length = 20}

/-- `HTTP_CACHE_SEC_KEY_LEN` bytes. -/
abbrev CacheSecKey := {k : CStr // k.length = 8}

/-- `struct cache_entry`, as far as it is looked up. -/
structure CacheEntry where
  expire : UInt32
  key : UInt32
  hash : CacheHash
  secondaryKey : CacheSecKey
  secondaryKeySignature : UInt32
  secondaryEntriesCount : UInt32
  lastClearTs : UInt32

/-- `struct cache`, the memory of the entries and `now.tv_sec`. -/
structure Cache where
  entries : EbTree UInt32 ℕ
  maxSecondaryEntries : UInt32
  obj : ℕ → CacheEntry
  now : ℕ

/-- `read_u32`, of a little endian machine. -/
def readU32 (p : CStr) : UInt32 :=
  (p.getD 0 0).toUInt32 ||| (p.getD 1 0).toUInt32 <<< (8 : UInt32) |||
    (p.getD 2 0).toUInt32 <<< (16 : UInt32) ||| (p.getD 3 0).toUInt32 <<< (24 : UInt32)

/-! ### Secondary keys -/

def varyEncodingOther : UInt32 := 1 <<< (10 : UInt32)

/-- `accept_encoding_bitmap_cmp`: whether the result is not zero. -/
def acceptEncodingBitmapCmp (ref new : CStr) : Bool :=
  let refBitmap := readU32 ref
  let newBitmap := readU32 new
  if refBitmap &&& varyEncodingOther = 0 then refBitmap &&& newBitmap ≠ refBitmap else true

/-- `struct vary_hashing_information`: what the comparison needs. -/
structure VaryHashingInformation where
  hashLength : ℕ
  cmpFn : Option (CStr → CStr → Bool)

/-- `vary_information`: accept-encoding and referer. -/
def varyInformation : List VaryHashingInformation :=
  [⟨4, some acceptEncodingBitmapCmp⟩, ⟨4, none⟩]

/-- The loop of `secondary_key_cmp`, from an offset on. -/
def secondaryKeyCmpLoop (ref new : CStr) : ℕ → List VaryHashingInformation → Bool
  | _, [] => false
  | offset, info :: infos =>
    let retval :=
      match info.cmpFn with
      | some cmpFn => cmpFn (ref.drop offset) (new.drop offset)
      | none => (ref.drop offset).take info.hashLength ≠ (new.drop offset).take info.hashLength
    if retval then true else secondaryKeyCmpLoop ref new (offset + info.hashLength) infos

/-- `secondary_key_cmp`: whether the keys differ. -/
def secondaryKeyCmp (refKey newKey : CacheSecKey) : Bool :=
  secondaryKeyCmpLoop refKey newKey 0 varyInformation

namespace Cache

/-! ### The tree -/

def modify (c : Cache) (e : ℕ) (f : CacheEntry → CacheEntry) : Cache :=
  { c with obj := Function.update c.obj e (f (c.obj e)) }

/-- `eb32_delete`, and the key becomes 0. -/
def unlink (c : Cache) (e : ℕ) : Cache :=
  { c with entries := c.entries.delete e }.modify e fun o => { o with key := 0 }

/-- The expiration date is not after now. -/
def Expired (c : Cache) (e : ℕ) : Prop := (c.obj e).expire.toNat ≤ c.now

instance decidableExpired (c : Cache) (e : ℕ) : Decidable (c.Expired e) :=
  inferInstanceAs (Decidable (_ ≤ _))

/-! ### delete_entry -/

/-- The last duplicate behind `next`: the loop of `delete_entry`. -/
def lastDup (t : EbTree UInt32 ℕ) : ℕ → ℕ → Option ℕ → Option ℕ
  | 0, _, last => last
  | fuel + 1, next, last =>
    match t.nextDup next with
    | none => last
    | some next => lastDup t fuel next (some next)

def deleteEntry (c : Cache) (delEntry : ℕ) : Cache :=
  let counted :=
    if (c.obj delEntry).secondaryKeySignature ≠ 0 then
      match lastDup c.entries c.entries.items.length delEntry none with
      | some last =>
        c.modify last fun o => { o with secondaryEntriesCount := o.secondaryEntriesCount - 1 }
      | none =>
        match c.entries.prevDup delEntry with
        | some prev => c.modify prev fun o => { o with
            secondaryEntriesCount := (c.obj delEntry).secondaryEntriesCount - 1 }
        | none => c
    else c
  counted.unlink delEntry

/-! ### Lookups -/

def entryExist (c : Cache) (hash : CacheHash) : Cache × Option ℕ :=
  match c.entries.lookup (readU32 hash) with
  | none => (c, none)
  | some entry =>
    if (c.obj entry).hash ≠ hash then (c, none)
    else if c.now < (c.obj entry).expire.toNat then (c, some entry)
    else ((c.deleteEntry entry).modify entry fun o => { o with key := 0 }, none)

/-- The loop of `secondary_entry_exist`: expired entries on the way are deleted. -/
def secondaryLoop (secondaryKey : CacheSecKey) : ℕ → Cache → ℕ → Cache × Option ℕ
  | 0, c, _ => (c, none)
  | fuel + 1, c, entry =>
    if secondaryKeyCmp (c.obj entry).secondaryKey secondaryKey then
      let node := c.entries.nextDup entry
      let c := if c.Expired entry then c.unlink entry else c
      match node with
      | none => (c, none)
      | some entry => secondaryLoop secondaryKey fuel c entry
    else (c, some entry)

def secondaryEntryExist (c : Cache) (entry : ℕ) (secondaryKey : CacheSecKey) : Cache × Option ℕ :=
  if (c.obj entry).secondaryKeySignature = 0 then (c, none)
  else
    match secondaryLoop secondaryKey c.entries.items.length c entry with
    | (c, none) => (c, none)
    | (c, some entry) => if c.Expired entry then (c.unlink entry, none) else (c, some entry)

/-! ### insert_entry -/

/-- The loop of `clear_expired_duplicates`: the tail and the number of entries that stay. -/
def clearLoop : ℕ → Cache → Option ℕ → Option ℕ → UInt32 → Cache × Option ℕ × UInt32
  | 0, c, _, tail, entryCount => (c, tail, entryCount)
  | _, c, none, tail, entryCount => (c, tail, entryCount)
  | fuel + 1, c, some entry, tail, entryCount =>
    let prev := c.entries.prevDup entry
    if c.Expired entry then clearLoop fuel (c.unlink entry) prev tail entryCount
    else clearLoop fuel c prev (tail.or (some entry)) (entryCount + 1)

def clearExpiredDuplicates (c : Cache) (dupTail : Option ℕ) : Cache × Option ℕ × UInt32 :=
  clearLoop c.entries.items.length c dupTail none 0

/-- The end of `insert_entry`. -/
def insertCounted (c : Cache) (newEntry : ℕ) (entryCount lastClearTs : UInt32) : Cache :=
  c.modify newEntry fun o => { o with
    secondaryEntriesCount := entryCount + 1
    lastClearTs := lastClearTs }

/-- `insert_entry`, and whether the entry stays.  The configuration refuses a maximum of 0,
for which the tail may be `NULL`. -/
def insertEntry (c : Cache) (newEntry : ℕ) : Cache × Bool :=
  let c := { c with entries := c.entries.insert (c.obj newEntry).key newEntry }
  if (c.obj newEntry).secondaryKeySignature = 0 then (c, true)
  else
    match c.entries.prevDup newEntry with
    | none => (c.insertCounted newEntry 0 (UInt32.ofNat c.now), true)
    | some prev =>
      let entryCount := (c.obj prev).secondaryEntriesCount
      let lastClearTs := (c.obj prev).lastClearTs
      if entryCount < c.maxSecondaryEntries then
        (c.insertCounted newEntry entryCount lastClearTs, true)
      else if lastClearTs.toNat = c.now then (c.unlink newEntry, false)
      else
        match c.clearExpiredDuplicates (some prev) with
        | (c, tail, entryCount) =>
          if entryCount < c.maxSecondaryEntries then
            (c.insertCounted newEntry entryCount lastClearTs, true)
          else
            let c :=
              match tail with
              | none => c
              | some entry => c.modify entry fun o => { o with lastClearTs := UInt32.ofNat c.now }
            (c.unlink newEntry, false)

end Cache

/-! ### A cache over time -/

/-- A cache and the entries that are stored: inserted, and not deleted since. -/
structure CacheSys where
  cache : Cache
  stored : List ℕ

/-- What happens to a cache.  A lookup is that of a request with its secondary key. -/
inductive CacheOp
  | insert (e : ℕ) (expire : UInt32) (hash : CacheHash) (secondaryKey : CacheSecKey)
      (signature : UInt32)
  | delete (e : ℕ)
  | lookup (hash : CacheHash) (secondaryKey : CacheSecKey)
  | tick (secs : ℕ)

namespace CacheSys

/-- A new object, in the memory of an entry that is not linked, and `insert_entry`. -/
def insert (s : CacheSys) (e : ℕ) (expire : UInt32) (hash : CacheHash)
    (secondaryKey : CacheSecKey) (signature : UInt32) : CacheSys :=
  if e ∈ s.cache.entries.items then s
  else
    let c := s.cache.modify e fun _ =>
      ⟨expire, readU32 hash, hash, secondaryKey, signature, 0, 0⟩
    let stored := s.stored.filter (· ≠ e)
    match c.insertEntry e with
    | (c, true) => ⟨c, e :: stored⟩
    | (c, false) => ⟨c, stored⟩

/-- `delete_entry` on an entry that is linked. -/
def delete (s : CacheSys) (e : ℕ) : CacheSys :=
  if e ∈ s.cache.entries.items then ⟨s.cache.deleteEntry e, s.stored.filter (· ≠ e)⟩ else s

/-- `entry_exist` and, from the entry that it returns, `secondary_entry_exist`. -/
def lookup (s : CacheSys) (hash : CacheHash) (secondaryKey : CacheSecKey) : CacheSys :=
  match s.cache.entryExist hash with
  | (c, none) => { s with cache := c }
  | (c, some entry) => { s with cache := (c.secondaryEntryExist entry secondaryKey).1 }

def step (s : CacheSys) : CacheOp → CacheSys
  | .insert e expire hash secondaryKey signature => s.insert e expire hash secondaryKey signature
  | .delete e => s.delete e
  | .lookup hash secondaryKey => s.lookup hash secondaryKey
  | .tick secs => { s with cache := { s.cache with now := s.cache.now + secs } }

def init (maxSecondaryEntries : UInt32) (obj : ℕ → CacheEntry) (now : ℕ) : CacheSys :=
  ⟨⟨.empty, maxSecondaryEntries, obj, now⟩, []⟩

end CacheSys

end SmartHAProxy
