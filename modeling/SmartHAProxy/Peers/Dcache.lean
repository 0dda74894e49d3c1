/-
The dictionary caches of two peers (peers.c, dict.c).

An update message may refer to an entry of the dictionary of server keys.  The
sender keeps a cache of the entries it has sent; an entry of the cache is sent
by its number only.  The receiver keeps the strings under their numbers.  The
cache has 128 slots, taken in turn, and serves all tables of the peer.

The sender fills the cache while it builds a message, whether or not the
message leaves, and the receiver skips the messages about tables it does not
know.  The sender identifies the entries by their addresses and holds no
reference to them, so that the memory of an entry may come to hold another
string.  `dcache_in_step` says what has to be true of the earlier messages for a
number to be resolved as it was meant.

The connection delivers in order and the sender learns nothing from it, so one
event is a message from its preparation to the end of its treatment.
-/
import SmartHAProxy.Lib.CString
import SmartHAProxy.Lib.Run
import Mathlib.Data.Nat.Bitwise

namespace SmartHAProxy

variable {tx : DcacheTx} {de : DictEntry}

/-! ### The sender -/

/-- `PEER_STKT_CACHE_MAX_ENTRIES`. -/
def dcacheMaxEntries : ℕ := 128

def peerEnc2bytesMin : ℕ := 0xf0

/-- `struct dict_entry`, by its address and its string. -/
structure DictEntry where
  addr : ℕ
  value : CStr
  deriving DecidableEq, Repr

/-- `struct dcache_tx`.  The keys of the entries are addresses, and the tree of
the cached entries holds those that are set. -/
structure DcacheTx where
  entries : List (Option ℕ)
  prevLookup : Option ℕ
  lruKey : ℕ
  deriving DecidableEq, Repr

def newDcacheTx : DcacheTx := ⟨List.replicate dcacheMaxEntries none, none, 0⟩

def dcacheTxLookupValue (tx : DcacheTx) (key : ℕ) : Option ℕ :=
  tx.entries.findIdx? (· == some key)

/-- The slot that holds the key: the one of the previous lookup, or any other. -/
def dcacheTxFind (tx : DcacheTx) (key : ℕ) : Option ℕ :=
  match tx.prevLookup with
  | some o => if tx.entries[o]? = some (some key) then some o else dcacheTxLookupValue tx key
  | none => dcacheTxLookupValue tx key

/-- `dcache_tx_insert`: the cache, the number of the slot, and whether the key was
present. -/
def dcacheTxInsert (tx : DcacheTx) (key : ℕ) : DcacheTx × ℕ × Bool :=
  match dcacheTxFind tx key with
  | some o => ({ tx with prevLookup := some o }, o, true)
  | none =>
    ({ entries := tx.entries.set tx.lruKey (some key)
       prevLookup := some tx.lruKey
       lruKey := (tx.lruKey + 1) &&& (dcacheMaxEntries - 1) }, tx.lruKey, false)

/-- The dictionary part of an update message.  Numbers start at 1 on the wire. -/
inductive DictMsg
  | noEntry
  | id (id : ℕ)
  | value (id : ℕ) (value : CStr)
  /-- nothing is encoded when the number needs more than one byte -/
  | omitted
  deriving DecidableEq, Repr

/-- `case STD_T_DICT` of `peer_prepare_updatemsg`. -/
def prepareDict (tx : DcacheTx) (de : Option DictEntry) : DcacheTx × DictMsg :=
  match de with
  | none => (tx, .noEntry)
  | some de =>
    match dcacheTxInsert tx de.addr with
    | (tx, id, true) => (tx, if id + 1 ≥ peerEnc2bytesMin then .omitted else .id (id + 1))
    | (tx, id, false) => (tx, .value (id + 1) de.value)

/-! ### The receiver -/

/-- `dc->rx`, by the strings of the entries. -/
abbrev DcacheRx := List (Option CStr)

/-- What the receiver makes of the dictionary part: the cache, the entry that a
number without value stands for (NULL if there is none), and whether the
message is malformed. -/
structure Treated where
  rx : DcacheRx
  resolved : Option (Option CStr)
  malformed : Bool

/-- `case STD_T_DICT` of `peer_treat_updatemsg`.  A number that comes with a value
is not compared with the size of the cache. -/
def treatDict (rx : DcacheRx) : DictMsg → Except Fault Treated
  | .noEntry | .omitted => .ok ⟨rx, none, false⟩
  | .id id =>
    if id = 0 ∨ id > dcacheMaxEntries then .ok ⟨rx, none, true⟩
    else match rx[id - 1]? with
      | some de => .ok ⟨rx, some de, false⟩
      | none => .error .outOfBounds
  | .value id value =>
    if id = 0 then .ok ⟨rx, none, true⟩
    else if id - 1 < rx.length then .ok ⟨rx.set (id - 1) (some value), none, false⟩
    else .error .outOfBounds

/-! ### Both peers -/

/-- A message about an entry of the dictionary, if the table entry has one.  It is
accepted by the output buffer or refused for lack of room; a message that is
accepted is processed, or ignored because its table is not known. -/
structure DictEvent where
  de : Option DictEntry
  accepted : Bool
  processed : Bool
  deriving DecidableEq, Repr

/-- The message arrived and was processed. -/
def DictEvent.delivered (e : DictEvent) : Bool := e.accepted && e.processed

/-- The caches of the two peers, and what the last message was resolved to.  Two
history variables say what it was meant to be resolved to, and which event was
the last one that had to carry the value of a slot. -/
structure Dcaches where
  tx : DcacheTx
  rx : DcacheRx
  resolved : Option (Option CStr)
  malformed : Bool
  meant : Option DictEntry
  carried : ℕ → Option DictEvent

def newDcaches : Dcaches :=
  ⟨newDcacheTx, List.replicate dcacheMaxEntries none, none, false, none, fun _ => none⟩

/-- The history after a message: a value is recorded under its slot. -/
def Dcaches.carrying (s : Dcaches) (e : DictEvent) : DictMsg → ℕ → Option DictEvent
  | .value n _ => Function.update s.carried (n - 1) (some e)
  | _ => s.carried

def exchange (s : Dcaches) (e : DictEvent) : Except Fault Dcaches :=
  match prepareDict s.tx e.de with
  | (tx, msg) =>
    if e.delivered then do
      let r ← treatDict s.rx msg
      pure ⟨tx, r.rx, r.resolved, r.malformed, e.de, s.carrying e msg⟩
    else pure ⟨tx, s.rx, none, false, e.de, s.carrying e msg⟩

/-- The condition on a message: if it arrives, and its entry is found in the cache
of the sender, then the message that had to carry the value of the slot has
arrived as well, and the memory of the entry has not been given another string
since. -/
def DictEvent.Sound (s : Dcaches) (e : DictEvent) : Prop :=
  e.delivered = true → ∀ de k, e.de = some de → dcacheTxFind s.tx de.addr = some k →
    ∀ c, s.carried k = some c → c.delivered = true ∧ ∀ de', c.de = some de' → de'.value = de.value

/-- A number without value was resolved to the string of the entry that was meant. -/
def Dcaches.ResolvesAsMeant (s : Dcaches) : Prop :=
  s.malformed = false ∧ ∀ found, s.resolved = some found → found = s.meant.map DictEntry.value

/-! ### The invariant -/

/-- A slot of the sender's cache holds the entry of the event that had to carry
it, and if that event was delivered, the receiver has its string. -/
structure Dcaches.InStep (s : Dcaches) : Prop where
  length_entries : s.tx.entries.length = dcacheMaxEntries
  length_rx : s.rx.length = dcacheMaxEntries
  lruKey_lt : s.tx.lruKey < dcacheMaxEntries
  entry_carried : ∀ k a, s.tx.entries[k]? = some (some a) →
    ∃ c de, s.carried k = some c ∧ c.de = some de ∧ de.addr = a
  rx_carried : ∀ k c de, s.carried k = some c → c.delivered = true → c.de = some de →
    s.rx[k]? = some (some de.value)

theorem newDcaches_inStep : newDcaches.InStep where
  length_entries := List.length_replicate
  length_rx := List.length_replicate
  lruKey_lt := by decide
  entry_carried := by
    intro k a h
    simp [newDcaches, newDcacheTx, List.getElem?_replicate] at h
  rx_carried := by
    intro k c de h
    simp [newDcaches] at h

theorem entry_of_dcacheTxFind {key k : ℕ} (h : dcacheTxFind tx key = some k) :
    tx.entries[k]? = some (some key) := by
  have hlookup : dcacheTxLookupValue tx key = some k → tx.entries[k]? = some (some key) := by
    intro h
    obtain ⟨hlt, hk, -⟩ := List.findIdx?_eq_some_iff_getElem.mp h
    rw [List.getElem?_eq_getElem hlt, eq_of_beq hk]
  rw [dcacheTxFind] at h
  split at h
  · split_ifs at h with hprev
    · obtain rfl := Option.some.inj h
      exact hprev
    · exact hlookup h
  · exact hlookup h

variable {s : Dcaches} {e : DictEvent}

theorem Dcaches.InStep.find_lt (h : s.InStep) {key k : ℕ} (hk : dcacheTxFind s.tx key = some k) :
    k < dcacheMaxEntries := by
  obtain ⟨hlt, -⟩ := List.getElem?_eq_some_iff.mp (entry_of_dcacheTxFind hk)
  exact h.length_entries ▸ hlt

theorem exchange_undelivered {msg : DictMsg} (hdel : e.delivered = false)
    (hprep : prepareDict s.tx e.de = (tx, msg)) :
    exchange s e = .ok ⟨tx, s.rx, none, false, e.de, s.carrying e msg⟩ := by
  rw [exchange, hprep, hdel]
  rfl

theorem exchange_delivered {msg : DictMsg} {r : Treated} (hdel : e.delivered = true)
    (hprep : prepareDict s.tx e.de = (tx, msg)) (htreat : treatDict s.rx msg = .ok r) :
    exchange s e = .ok ⟨tx, r.rx, r.resolved, r.malformed, e.de, s.carrying e msg⟩ := by
  rw [exchange, hprep, hdel]
  simp only [if_true, htreat]
  rfl

theorem exchange_noEntry (h : s.InStep) (he : e.de = none) :
    ∃ t, exchange s e = .ok t ∧ t.InStep ∧ t.ResolvesAsMeant := by
  have hprep : prepareDict s.tx e.de = (s.tx, .noEntry) := by rw [he]; rfl
  refine ⟨⟨s.tx, s.rx, none, false, e.de, s.carried⟩, ?_, ?_, rfl, ?_⟩
  · rcases hdel : e.delivered with - | -
    · exact exchange_undelivered hdel hprep
    · exact exchange_delivered hdel hprep rfl
  · exact ⟨h.length_entries, h.length_rx, h.lruKey_lt, h.entry_carried, h.rx_carried⟩
  · intro found hfound
    cases hfound

theorem exchange_cached (h : s.InStep) (hsound : e.Sound s) {k : ℕ} (he : e.de = some de)
    (hk : dcacheTxFind s.tx de.addr = some k) :
    ∃ t, exchange s e = .ok t ∧ t.InStep ∧ t.ResolvesAsMeant := by
  have hlt := h.find_lt hk
  have hid : ¬ k + 1 ≥ peerEnc2bytesMin := by
    simp only [dcacheMaxEntries, peerEnc2bytesMin] at *
    omega
  have hprep : prepareDict s.tx e.de = ({ s.tx with prevLookup := some k }, .id (k + 1)) := by
    simp only [prepareDict, he, dcacheTxInsert, hk, if_neg hid]
  obtain ⟨c, de', hc, hde', -⟩ := h.entry_carried k de.addr (entry_of_dcacheTxFind hk)
  rcases hdel : e.delivered with - | -
  · refine ⟨_, exchange_undelivered hdel hprep, ?_, rfl, ?_⟩
    · exact ⟨h.length_entries, h.length_rx, h.lruKey_lt, h.entry_carried, h.rx_carried⟩
    · intro found hfound
      cases hfound
  · -- the event that carried the value was delivered with the string of this entry
    obtain ⟨hcdel, hvalue⟩ := hsound hdel de k he hk c hc
    have hrx : s.rx[k]? = some (some de.value) := by
      rw [← hvalue de' hde']
      exact h.rx_carried k c de' hc hcdel hde'
    have htreat : treatDict s.rx (.id (k + 1)) = .ok ⟨s.rx, some (some de.value), false⟩ := by
      rw [treatDict, if_neg (by omega), Nat.add_sub_cancel, hrx]
    refine ⟨_, exchange_delivered hdel hprep htreat, ?_, rfl, ?_⟩
    · exact ⟨h.length_entries, h.length_rx, h.lruKey_lt, h.entry_carried, h.rx_carried⟩
    · intro found hfound
      obtain rfl := Option.some.inj hfound
      rw [he]
      rfl

theorem Dcaches.InStep.take_slot (h : s.InStep) (he : e.de = some de) {rx : DcacheRx}
    (hlen : rx.length = dcacheMaxEntries)
    (hslot : e.delivered = true → rx[s.tx.lruKey]? = some (some de.value))
    (hrest : ∀ k ≠ s.tx.lruKey, rx[k]? = s.rx[k]?) (meant : Option DictEntry) :
    InStep ⟨⟨s.tx.entries.set s.tx.lruKey (some de.addr), some s.tx.lruKey,
      (s.tx.lruKey + 1) &&& (dcacheMaxEntries - 1)⟩, rx, none, false, meant,
      Function.update s.carried s.tx.lruKey (some e)⟩ where
  length_entries := List.length_set.trans h.length_entries
  length_rx := hlen
  lruKey_lt := Nat.lt_of_le_of_lt Nat.and_le_right (by decide)
  entry_carried := by
    intro k a hk
    rcases eq_or_ne k s.tx.lruKey with rfl | hne
    · have hlt : s.tx.lruKey < s.tx.entries.length := h.length_entries.symm ▸ h.lruKey_lt
      rw [List.getElem?_set_self hlt] at hk
      obtain rfl := Option.some.inj (Option.some.inj hk)
      exact ⟨e, de, Function.update_self .., he, rfl⟩
    · rw [List.getElem?_set_ne hne.symm] at hk
      obtain ⟨c, de', hc, hrest⟩ := h.entry_carried k a hk
      exact ⟨c, de', (Function.update_of_ne hne ..).trans hc, hrest⟩
  rx_carried := by
    intro k c de' hc hdel hde'
    change Function.update s.carried s.tx.lruKey (some e) k = some c at hc
    rcases eq_or_ne k s.tx.lruKey with rfl | hne
    · rw [Function.update_self] at hc
      obtain rfl := Option.some.inj hc
      obtain rfl : de = de' := Option.some.inj (he.symm.trans hde')
      exact hslot hdel
    · rw [Function.update_of_ne hne] at hc
      exact (hrest k hne).trans (h.rx_carried k c de' hc hdel hde')

theorem exchange_uncached (h : s.InStep) (he : e.de = some de)
    (hk : dcacheTxFind s.tx de.addr = none) :
    ∃ t, exchange s e = .ok t ∧ t.InStep ∧ t.ResolvesAsMeant := by
  have hprep : prepareDict s.tx e.de
      = (⟨s.tx.entries.set s.tx.lruKey (some de.addr), some s.tx.lruKey,
          (s.tx.lruKey + 1) &&& (dcacheMaxEntries - 1)⟩, .value (s.tx.lruKey + 1) de.value) := by
    simp only [prepareDict, he, dcacheTxInsert, hk]
  have hlt : s.tx.lruKey < s.rx.length := h.length_rx.symm ▸ h.lruKey_lt
  rcases hdel : e.delivered with - | -
  · refine ⟨_, exchange_undelivered hdel hprep, ?_, rfl, ?_⟩
    · exact h.take_slot he h.length_rx (by simp [hdel]) (fun _ _ => rfl) e.de
    · intro found hfound
      cases hfound
  · have htreat : treatDict s.rx (.value (s.tx.lruKey + 1) de.value)
        = .ok ⟨s.rx.set s.tx.lruKey (some de.value), none, false⟩ := by
      rw [treatDict, if_neg (by omega), Nat.add_sub_cancel, if_pos hlt]
    refine ⟨_, exchange_delivered hdel hprep htreat, ?_, rfl, ?_⟩
    · exact h.take_slot he (List.length_set.trans h.length_rx)
        (fun _ => List.getElem?_set_self hlt) (fun k hne => List.getElem?_set_ne hne.symm) e.de
    · intro found hfound
      cases hfound

theorem exchange_inStep (h : s.InStep) (hsound : e.Sound s) :
    ∃ t, exchange s e = .ok t ∧ t.InStep ∧ t.ResolvesAsMeant := by
  rcases he : e.de with - | de
  · exact exchange_noEntry h he
  rcases hk : dcacheTxFind s.tx de.addr with - | k
  · exact exchange_uncached h he hk
  · exact exchange_cached h hsound he hk

/-- **Dictionary caches stay in step.**  In every run of messages of which each one
that is sent by its number relies on a value that was delivered and is still
the string of the entry, every number is resolved to the string that was
meant. -/
theorem dcache_in_step {events : List DictEvent}
    (hevents : StepsMeet exchange (fun s e => e.Sound s) newDcaches events) :
    ∃ t, events.foldlM exchange newDcaches = .ok t ∧ t.ResolvesAsMeant := by
  have hinit : newDcaches.InStep ∧ newDcaches.ResolvesAsMeant := by
    refine ⟨newDcaches_inStep, rfl, ?_⟩
    intro found hfound
    cases hfound
  obtain ⟨t, ht, -, hresolves⟩ := foldlM_safe
    (fun s e (hs : s.InStep ∧ s.ResolvesAsMeant) hsound => exchange_inStep hs.1 hsound) hinit hevents
  exact ⟨t, ht, hresolves⟩

/-! ### Lost values -/

/-- The entry number `n` of a dictionary. -/
def nthEntry (n : ℕ) : DictEntry := ⟨n, [UInt8.ofNat n]⟩

set_option maxRecDepth 2000 in
/-- The same entry twice, both times delivered. -/
theorem dcache_in_step_twice :
    ∃ t, [DictEvent.mk (some (nthEntry 1)) true true, ⟨some (nthEntry 1), true, true⟩].foldlM exchange
        newDcaches = .ok t ∧ t.ResolvesAsMeant := by
  refine dcache_in_step (stepsMeet_cons ?_ fun s₁ h₁ => stepsMeet_cons ?_ fun s₂ _ => stepsMeet_nil _ _ s₂)
  · intro _ de k _ _ c hc
    cases hc
  · cases h₁
    intro _ de k hde hk c hc
    obtain rfl := Option.some.inj hde
    obtain rfl : 0 = k := Option.some.inj (Eq.trans (by decide) hk)
    obtain rfl := Option.some.inj hc
    refine ⟨rfl, fun de' hde' => ?_⟩
    obtain rfl := Option.some.inj hde'
    rfl

/-- All slots have been used when the message about one more entry is refused.
It is prepared again and delivered: the receiver takes the number for the
entry that had the slot before. -/
def refusedOnce : List DictEvent :=
  (List.range 128).map (fun n => ⟨some (nthEntry n), true, true⟩) ++
    [⟨some (nthEntry 128), false, false⟩, ⟨some (nthEntry 128), true, true⟩]

/-- The first message is about a table that the receiver does not know, the second
one about another table. -/
def ignoredOnce : List DictEvent :=
  [⟨some (nthEntry 1), true, false⟩, ⟨some (nthEntry 1), true, true⟩]

/-- What the last message of a run was resolved to, and what it was meant to be. -/
def lastResolved (events : List DictEvent) : Option (Option (Option CStr) × Option DictEntry) :=
  match events.foldlM exchange newDcaches with
  | .ok t => some (t.resolved, t.meant)
  | .error _ => none

theorem not_resolvesAsMeant_of_lastResolved {events : List DictEvent} {found : Option CStr}
    (h : lastResolved events = some (some found, some de)) (hne : found ≠ some de.value) :
    ∃ t, events.foldlM exchange newDcaches = .ok t ∧ ¬ t.ResolvesAsMeant := by
  rw [lastResolved] at h
  split at h
  · rename_i t ht
    obtain ⟨hres, hmeant⟩ := Prod.mk.inj (Option.some.inj h)
    refine ⟨t, ht, fun hmeans => hne ?_⟩
    rw [hmeans.2 found hres, hmeant]
    rfl
  · cases h

theorem not_dcache_in_step :
    (∃ t, refusedOnce.foldlM exchange newDcaches = .ok t ∧ ¬ t.ResolvesAsMeant) ∧
      ∃ t, ignoredOnce.foldlM exchange newDcaches = .ok t ∧ ¬ t.ResolvesAsMeant := by
  have hrefused : lastResolved refusedOnce = some (some (some [0]), some (nthEntry 128)) := by
    decide +kernel
  have hignored : lastResolved ignoredOnce = some (some none, some (nthEntry 1)) := by
    decide +kernel
  exact ⟨not_resolvesAsMeant_of_lastResolved hrefused (by decide),
    not_resolvesAsMeant_of_lastResolved hignored (by decide)⟩

end SmartHAProxy
