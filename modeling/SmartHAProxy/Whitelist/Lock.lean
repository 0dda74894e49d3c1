/-
The remote lock on the whitelist file: `SDSock_Set` and `SDSock_Release` of
sdsock.c on HAProxy's side, the loop of `comms` on smartdrop's side.

    HAProxy (updateWhitelist)            smartdrop (comms)

    SDSock_Set:      send '1'     ──▶    receiveMessage
                                         whiteAlg, fileWrite
                     recv         ◀──    sendMessage b'1'
    read the file
    SDSock_Release:  send '2'     ──▶    receiveMessage
                     recv         ◀──    sendMessage b'2'

Neither side looks at the byte it receives, so the lock is nothing but the
number of bytes each side has received.  HAProxy sends `strlen(message)` bytes
of a one-byte buffer that has no terminator: the byte it means, followed by
whatever follows it in memory up to the next NUL.  `junk i` are these surplus
bytes of the `i`-th send.

`exclusive_iff` is the exact condition: smartdrop never writes the file while
HAProxy reads it, in any interleaving, exactly when all the sends together
carry at most one surplus byte.
-/
import Mathlib.Algebra.Order.BigOperators.Group.Finset

namespace SmartHAProxy

/-! ### The two parties -/

/-- Where HAProxy stands in `updateWhitelist`. -/
inductive HapPhase
  | idle          -- no update is going on
  | setWait       -- in `SDSock_Set`, waiting in `recv`
  | reading       -- between the return of `SDSock_Set` and `SDSock_Release`
  | releaseWait   -- in `SDSock_Release`, waiting in `recv`
  deriving DecidableEq, Repr

/-- Where smartdrop stands in the loop of `comms`. -/
inductive SdPhase
  | receive1
  | whiteAlg
  | fileWrite
  | send1
  | receive2
  | send2
  deriving DecidableEq, Repr

/-- Both parties, the two byte streams between them, and the number of sends
HAProxy has made. -/
structure LockState where
  hap : HapPhase
  sd : SdPhase
  toSd : List UInt8
  toHap : List UInt8
  sends : ℕ

def LockState.start : LockState :=
  { hap := .idle, sd := .receive1, toSd := [], toHap := [], sends := 0 }

variable (junk : ℕ → List UInt8)

inductive LockStep : LockState → LockState → Prop
  | setSend {sd toSd toHap n} :
      LockStep ⟨.idle, sd, toSd, toHap, n⟩
        ⟨.setWait, sd, toSd ++ 49 :: junk n, toHap, n + 1⟩
  | setRecv {sd toSd b toHap n} :
      LockStep ⟨.setWait, sd, toSd, b :: toHap, n⟩ ⟨.reading, sd, toSd, toHap, n⟩
  | releaseSend {sd toSd toHap n} :
      LockStep ⟨.reading, sd, toSd, toHap, n⟩
        ⟨.releaseWait, sd, toSd ++ 50 :: junk n, toHap, n + 1⟩
  | releaseRecv {sd toSd b toHap n} :
      LockStep ⟨.releaseWait, sd, toSd, b :: toHap, n⟩ ⟨.idle, sd, toSd, toHap, n⟩
  | receive1 {hap b toSd toHap n} :
      LockStep ⟨hap, .receive1, b :: toSd, toHap, n⟩ ⟨hap, .whiteAlg, toSd, toHap, n⟩
  | whiteAlg {hap toSd toHap n} :
      LockStep ⟨hap, .whiteAlg, toSd, toHap, n⟩ ⟨hap, .fileWrite, toSd, toHap, n⟩
  | fileWrite {hap toSd toHap n} :
      LockStep ⟨hap, .fileWrite, toSd, toHap, n⟩ ⟨hap, .send1, toSd, toHap, n⟩
  | send1 {hap toSd toHap n} :
      LockStep ⟨hap, .send1, toSd, toHap, n⟩ ⟨hap, .receive2, toSd, toHap ++ [49], n⟩
  | receive2 {hap b toSd toHap n} :
      LockStep ⟨hap, .receive2, b :: toSd, toHap, n⟩ ⟨hap, .send2, toSd, toHap, n⟩
  | send2 {hap toSd toHap n} :
      LockStep ⟨hap, .send2, toSd, toHap, n⟩ ⟨hap, .receive1, toSd, toHap ++ [50], n⟩

/-- The states any interleaving reaches from `s`. -/
def LockReaches : LockState → LockState → Prop := Relation.ReflTransGen (LockStep junk)

/-- The file is not written while it is read. -/
def LockState.Exclusive (s : LockState) : Prop := ¬ (s.hap = .reading ∧ s.sd = .fileWrite)

/-- The surplus bytes of the first `n` sends. -/
def surplus (n : ℕ) : ℕ := ∑ i ∈ Finset.range n, (junk i).length

variable {junk}

theorem surplus_succ (n : ℕ) : surplus junk (n + 1) = surplus junk n + (junk n).length :=
  Finset.sum_range_succ _ _

theorem surplus_mono {m n : ℕ} (h : m ≤ n) : surplus junk m ≤ surplus junk n :=
  Finset.sum_le_sum_of_subset (Finset.range_mono h)

/-! ### Counting bytes -/

/-- HAProxy in phase `p` has made `n` sends and received `rh` bytes. -/
def HapPhase.Counts (n rh : ℕ) : HapPhase → Prop
  | .idle => n = rh ∧ rh % 2 = 0
  | .setWait => n = rh + 1 ∧ rh % 2 = 0
  | .reading => n = rh ∧ rh % 2 = 1
  | .releaseWait => n = rh + 1 ∧ rh % 2 = 1

/-- Smartdrop in phase `p` has received `rs` bytes and sent `ss`. -/
def SdPhase.Counts (rs ss : ℕ) : SdPhase → Prop
  | .receive1 => rs = ss ∧ ss % 2 = 0
  | .whiteAlg | .fileWrite | .send1 => rs = ss + 1 ∧ ss % 2 = 0
  | .receive2 => rs = ss ∧ ss % 2 = 1
  | .send2 => rs = ss + 1 ∧ ss % 2 = 1

variable (junk) in
/-- The bytes in flight are those sent and not yet received. -/
def LockState.Counts (s : LockState) : Prop :=
  ∃ rh rs ss, s.toSd.length + rs = s.sends + surplus junk s.sends ∧
    s.toHap.length + rh = ss ∧ s.hap.Counts s.sends rh ∧ s.sd.Counts rs ss

theorem lockStep_counts {s t : LockState} (h : LockStep junk s t) (hs : s.Counts junk) :
    t.Counts junk := by
  obtain ⟨rh, rs, ss, htoSd, htoHap, hhap, hsd⟩ := hs
  cases h with
  | setSend | releaseSend =>
    refine ⟨rh, rs, ss, ?_, htoHap, ?_, hsd⟩
    · simp only [List.length_append, List.length_cons, surplus_succ] at htoSd ⊢
      omega
    · simp only [HapPhase.Counts] at hhap ⊢
      omega
  | setRecv | releaseRecv =>
    refine ⟨rh + 1, rs, ss, htoSd, ?_, ?_, hsd⟩
    · simp only [List.length_cons] at htoHap ⊢
      omega
    · simp only [HapPhase.Counts] at hhap ⊢
      omega
  | receive1 | receive2 =>
    refine ⟨rh, rs + 1, ss, ?_, htoHap, hhap, ?_⟩
    · simp only [List.length_cons] at htoSd ⊢
      omega
    · simp only [SdPhase.Counts] at hsd ⊢
      omega
  | whiteAlg | fileWrite => exact ⟨rh, rs, ss, htoSd, htoHap, hhap, hsd⟩
  | send1 | send2 =>
    refine ⟨rh, rs, ss + 1, htoSd, ?_, hhap, ?_⟩
    · simp only [List.length_append, List.length_singleton] at htoHap ⊢
      omega
    · simp only [SdPhase.Counts] at hsd ⊢
      omega

theorem lockReaches_counts {s : LockState} (h : LockReaches junk .start s) :
    s.Counts junk := by
  induction h with
  | refl => exact ⟨0, 0, 0, by simp [LockState.start, surplus], rfl, ⟨rfl, rfl⟩, ⟨rfl, rfl⟩⟩
  | tail _ hstep ih => exact lockStep_counts hstep ih

theorem LockState.Counts.exclusive {s : LockState} (hs : s.Counts junk)
    (hjunk : surplus junk s.sends ≤ 1) : s.Exclusive := by
  rintro ⟨hread, hwrite⟩
  obtain ⟨rh, rs, ss, htoSd, htoHap, hhap, hsd⟩ := hs
  rw [hread] at hhap
  rw [hwrite] at hsd
  simp only [HapPhase.Counts, SdPhase.Counts] at hhap hsd
  omega

/-! ### A run into the conflict -/

variable (junk)

theorem reaches_reading (L : List UInt8) (n : ℕ) :
    ∃ L', L'.length = L.length + (junk n).length ∧
      LockReaches junk ⟨.idle, .receive1, L, [], n⟩ ⟨.reading, .receive2, L', [], n + 1⟩ := by
  obtain ⟨b, L', hL⟩ : ∃ b L', L ++ 49 :: junk n = b :: L' := by
    rcases L with - | ⟨b, L⟩ <;> simp
  refine ⟨L', ?_, ?_⟩
  · have := congrArg List.length hL
    simp only [List.length_append, List.length_cons] at this
    omega
  · have h1 : LockStep junk ⟨.idle, .receive1, L, [], n⟩
        ⟨.setWait, .receive1, b :: L', [], n + 1⟩ := hL ▸ .setSend
    refine Relation.ReflTransGen.head h1 ?_
    refine Relation.ReflTransGen.head .receive1 ?_
    refine Relation.ReflTransGen.head .whiteAlg ?_
    refine Relation.ReflTransGen.head .fileWrite ?_
    refine Relation.ReflTransGen.head .send1 ?_
    exact Relation.ReflTransGen.single .setRecv

theorem reaches_idle (L : List UInt8) (n : ℕ) :
    ∃ L', L'.length = L.length + (junk n).length ∧
      LockReaches junk ⟨.reading, .receive2, L, [], n⟩ ⟨.idle, .receive1, L', [], n + 1⟩ := by
  obtain ⟨b, L', hL⟩ : ∃ b L', L ++ 50 :: junk n = b :: L' := by
    rcases L with - | ⟨b, L⟩ <;> simp
  refine ⟨L', ?_, ?_⟩
  · have := congrArg List.length hL
    simp only [List.length_append, List.length_cons] at this
    omega
  · have h1 : LockStep junk ⟨.reading, .receive2, L, [], n⟩
        ⟨.releaseWait, .receive2, b :: L', [], n + 1⟩ := hL ▸ .releaseSend
    refine Relation.ReflTransGen.head h1 ?_
    refine Relation.ReflTransGen.head .receive2 ?_
    refine Relation.ReflTransGen.head .send2 ?_
    exact Relation.ReflTransGen.single .releaseRecv

theorem reaches_round (k : ℕ) :
    ∃ L, L.length = surplus junk (2 * k + 1) ∧
      LockReaches junk .start ⟨.reading, .receive2, L, [], 2 * k + 1⟩ := by
  induction k with
  | zero =>
    obtain ⟨L, hL, hr⟩ := reaches_reading junk [] 0
    exact ⟨L, by simpa [surplus] using hL, hr⟩
  | succ k ih =>
    obtain ⟨L, hL, hr⟩ := ih
    obtain ⟨L₁, hL₁, hr₁⟩ := reaches_idle junk L (2 * k + 1)
    obtain ⟨L₂, hL₂, hr₂⟩ := reaches_reading junk L₁ (2 * k + 2)
    refine ⟨L₂, ?_, (hr.trans hr₁).trans hr₂⟩
    rw [show 2 * (k + 1) + 1 = 2 * k + 1 + 1 + 1 by omega, surplus_succ, surplus_succ]
    omega

theorem reaches_conflict (b c : UInt8) (L : List UInt8) (n : ℕ) :
    LockReaches junk ⟨.reading, .receive2, b :: c :: L, [], n⟩
      ⟨.reading, .fileWrite, L, [50], n⟩ := by
  refine Relation.ReflTransGen.head .receive2 ?_
  refine Relation.ReflTransGen.head .send2 ?_
  refine Relation.ReflTransGen.head .receive1 ?_
  exact Relation.ReflTransGen.single .whiteAlg

/-! ### Mutual exclusion -/

/-- **The remote lock excludes exactly as long as at most one surplus byte is
sent.**  For every choice of the surplus bytes, smartdrop is never in
`fileWrite` while HAProxy reads the file, in any interleaving, if and only if
the sends carry at most one surplus byte altogether. -/
theorem exclusive_iff :
    (∀ s, LockReaches junk .start s → s.Exclusive) ↔ ∀ n, surplus junk n ≤ 1 := by
  constructor
  · intro hexcl n
    by_contra hn
    obtain ⟨L, hL, hr⟩ := reaches_round junk n
    have hmono : surplus junk n ≤ surplus junk (2 * n + 1) := surplus_mono (by omega)
    obtain ⟨b, c, L', rfl⟩ : ∃ b c L', L = b :: c :: L' := by
      rcases L with - | ⟨b, - | ⟨c, L'⟩⟩
      · simp at hL; omega
      · simp at hL; omega
      · exact ⟨b, c, L', rfl⟩
    exact hexcl _ (hr.trans (reaches_conflict junk b c L' _)) ⟨rfl, rfl⟩
  · intro hjunk s hs
    exact (lockReaches_counts hs).exclusive (hjunk s.sends)

/-- Two bytes that happen to follow the first `'1'` in memory. -/
def twoSurplus (i : ℕ) : List UInt8 := if i = 0 then [7, 7] else []

/-- They break the lock in the first round. -/
theorem not_exclusive_twoSurplus :
    ¬ ∀ s, LockReaches twoSurplus .start s → s.Exclusive := by
  intro hexcl
  have hreach : LockReaches twoSurplus .start ⟨.reading, .fileWrite, [], [50], 1⟩ := by
    refine Relation.ReflTransGen.head .setSend ?_
    refine Relation.ReflTransGen.head .receive1 ?_
    refine Relation.ReflTransGen.head .whiteAlg ?_
    refine Relation.ReflTransGen.head .fileWrite ?_
    refine Relation.ReflTransGen.head .send1 ?_
    refine Relation.ReflTransGen.head .setRecv ?_
    exact reaches_conflict twoSurplus 7 7 [] 1
  exact hexcl _ hreach ⟨rfl, rfl⟩

end SmartHAProxy
