/-
The lesson a peer is taught after a resync request (src/peers.c).

A table keeps its entries in a tree of updates, under unique 32-bit numbers.  When a
peer asks for all of them, each table is pushed in two passes over the sorted tree: the
first one from the current update on (`peer_teach_stage1_stksess_lookup`), the second
one from the start of the tree up to it (`peer_teach_stage2_stksess_lookup`).  A pass
that finds no room in the output buffer ends the call of `peer_send_msgs`, and is gone on
with at a later call.

The number of an update is left out of the message when it follows that of the last
one; the receiver then counts for itself.  A message is followed from its preparation to
its treatment: the connection delivers in order.
-/
import SmartHAProxy.Lib.EbTree
import SmartHAProxy.Lib.EbUniq
import SmartHAProxy.Lib.Outbox

namespace SmartHAProxy

/-- `eb32_lookup_ge` in a tree with unique keys. -/
def EbUniq.lookupGe {κ α : Type*} [LinearOrder κ] (t : EbUniq κ α) (key : κ) : Option (κ × α) :=
  t.nodes.find? (key ≤ ·.1)

/-! ### The tables of a peer -/

/-- `struct shared_table`, with the tree of its table.  `teachStage1` and `teachStage2`
are the flags `SHTABLE_F_TEACH_STAGE1` and `SHTABLE_F_TEACH_STAGE2`. -/
structure SharedTable (ι : Type) where
  updates : EbUniq UInt32 ι
  update : UInt32
  lastPushed : UInt32
  teachingOrigin : UInt32
  lastGet : UInt32
  lastAcked : UInt32
  teachStage1 : Bool
  teachStage2 : Bool

namespace SharedTable

variable {ι : Type}

/-- `peer_teach_stage1_stksess_lookup`. -/
def teachStage1Lookup (st : SharedTable ι) : Option (UInt32 × ι) × SharedTable ι :=
  match st.updates.lookupGe (st.lastPushed + 1) with
  | some n => (some n, st)
  | none =>
    (none, { st with
      teachStage1 := true
      lastPushed := (st.updates.first.map fun n => n.1 - 1).getD st.lastPushed })

/-- `peer_teach_stage2_stksess_lookup`. -/
def teachStage2Lookup (st : SharedTable ι) : Option (UInt32 × ι) × SharedTable ι :=
  match st.updates.lookupGe (st.lastPushed + 1) with
  | some n =>
    if n.1 > st.teachingOrigin then (none, { st with teachStage2 := true }) else (some n, st)
  | none => (none, { st with teachStage2 := true })

/-- Whether `peer_prepare_updatemsg` sends the number of an update. -/
def useIdentifier (st : SharedTable ι) (updateid : UInt32) (newPushed : Bool) : Bool :=
  newPushed || st.lastPushed == 0 || updateid < st.lastPushed || updateid - st.lastPushed != 1

/-- The preparation of a table for a global push. -/
def prepareTeach (st : SharedTable ι) : SharedTable ι :=
  { st with
    teachingOrigin := st.update
    lastPushed := st.update
    teachStage1 := false
    teachStage2 := false }

end SharedTable

/-- The messages, as far as they are about the lesson.  An update message has the number
of the update if `useIdentifier` is set; the number is given in either case, for reference. -/
inductive PeerMsg (τ ι : Type)
  | switch (st : τ)
  | ack (lastGet : UInt32)
  | update (updateid : UInt32) (useIdentifier useTimed : Bool) (ts : ι)
  | resyncFinished

/-! ### The sender -/

/-- `struct peer`, when it is taught (`PEER_F_TEACH_PROCESS`): its tables, in the order of
their list, the last one it has been told about, and two of its flags. -/
structure Peer (τ ι : Type) where
  order : List τ
  tables : τ → SharedTable ι
  lastLocalTable : Option τ
  dwngrd : Bool
  teachFinished : Bool

variable {τ ι : Type} [DecidableEq τ]

namespace Peer

def setTable (p : Peer τ ι) (i : τ) (st : SharedTable ι) : Peer τ ι :=
  { p with tables := Function.update p.tables i st }

@[simp] theorem tables_setTable_self (p : Peer τ ι) (i : τ) (st : SharedTable ι) :
    (p.setTable i st).tables i = st := Function.update_self ..

theorem tables_setTable_of_ne (p : Peer τ ι) {i j : τ} (h : j ≠ i) (st : SharedTable ι) :
    (p.setTable i st).tables j = p.tables j := Function.update_of_ne h ..

def resyncRequest (p : Peer τ ι) : Peer τ ι :=
  { p with tables := fun i => (p.tables i).prepareTeach, teachFinished := false }

/-- `peer_send_switchmsg`, for another table than the last one. -/
def sendSwitchmsg (i : τ) : Sender (Peer τ ι) (PeerMsg τ ι) :=
  .skipIf (fun p => p.lastLocalTable == some i)
    (.put (.switch i) fun p => { p with lastLocalTable := some i })

/-- The loop of `peer_send_teachmsgs`. -/
def teachLoop (lookup : SharedTable ι → Option (UInt32 × ι) × SharedTable ι) (i : τ)
    (newPushed : Bool) (p : Peer τ ι) : ℕ → Sent (Peer τ ι) (PeerMsg τ ι)
  | 0 =>
    match lookup (p.tables i) with
    | (none, st) => ⟨p.setTable i st, [], some 0⟩
    | (some _, st) => ⟨p.setTable i st, [], none⟩
  | room + 1 =>
    match lookup (p.tables i) with
    | (none, st) => ⟨p.setTable i st, [], some (room + 1)⟩
    | (some (updateid, ts), st) =>
      let r := teachLoop lookup i false (p.setTable i { st with lastPushed := updateid }) room
      { r with
        out := .update updateid (st.useIdentifier updateid newPushed) (!p.dwngrd) ts :: r.out }

section

variable {lookup : SharedTable ι → Option (UInt32 × ι) × SharedTable ι} {i : τ} {newPushed : Bool}
  {p : Peer τ ι} {st : SharedTable ι} {n : UInt32 × ι} {room : ℕ}

theorem teachLoop_none (h : lookup (p.tables i) = (none, st)) :
    p.teachLoop lookup i newPushed room = ⟨p.setTable i st, [], some room⟩ := by
  rcases room with - | room
  · rw [teachLoop, h]
  · rw [teachLoop, h]

theorem teachLoop_full (h : lookup (p.tables i) = (some n, st)) :
    p.teachLoop lookup i newPushed 0 = ⟨p.setTable i st, [], none⟩ := by
  rw [teachLoop, h]

theorem teachLoop_push (h : lookup (p.tables i) = (some n, st)) :
    p.teachLoop lookup i newPushed (room + 1)
      = let r := teachLoop lookup i false (p.setTable i { st with lastPushed := n.1 }) room
        { r with
          out := .update n.1 (st.useIdentifier n.1 newPushed) (!p.dwngrd) n.2 :: r.out } := by
  rw [teachLoop, h]

end

/-- `peer_send_teachmsgs`, in either stage. -/
def sendTeachmsgs (lookup : SharedTable ι → Option (UInt32 × ι) × SharedTable ι) (i : τ) :
    Sender (Peer τ ι) (PeerMsg τ ι) :=
  .seq (sendSwitchmsg i) (teachLoop lookup i true)

def sendAckmsg (i : τ) : Sender (Peer τ ι) (PeerMsg τ ι) := fun p room =>
  let st := p.tables i
  if st.lastGet = st.lastAcked then ⟨p, [], some room⟩
  else
    Sender.put (.ack st.lastGet) (fun p => p.setTable i { st with lastAcked := st.lastGet }) p room

/-- The two stages of a table, those that are not complete. -/
def teachTable (i : τ) : Sender (Peer τ ι) (PeerMsg τ ι) :=
  .seq
    (.skipIf (fun p => (p.tables i).teachStage1) (sendTeachmsgs SharedTable.teachStage1Lookup i))
    (.skipIf (fun p => (p.tables i).teachStage2) (sendTeachmsgs SharedTable.teachStage2Lookup i))

def visit (i : τ) : Sender (Peer τ ι) (PeerMsg τ ι) :=
  .seq (sendAckmsg i) (.skipIf teachFinished (teachTable i))

/-- The tables in the order of a call: those behind the last one first. -/
def visitOrder (p : Peer τ ι) : List τ :=
  match p.lastLocalTable <|> p.order.head? with
  | none => []
  | some i => (p.order.dropWhile (· ≠ i)).tail ++ p.order.takeWhile (· ≠ i) ++ [i]

/-- `peer_send_msgs`, for a peer that is taught. -/
def sendMsgs : Sender (Peer τ ι) (PeerMsg τ ι) := fun p =>
  Sender.seq (.each visit p.visitOrder)
    (.skipIf teachFinished (.put .resyncFinished fun p => { p with teachFinished := true })) p

end Peer

/-! ### The receiver -/

/-- The peer at the other end: the table it has been told about, the number of the last
update it has got for each table, and the entries it has got. -/
structure Learner (τ ι : Type) where
  remoteTable : Option τ
  lastGet : τ → UInt32
  entries : τ → List ι

/-- The treatment of a message (`peer_treat_updatemsg`, `peer_treat_definemsg`). -/
def Learner.treat (r : Learner τ ι) : PeerMsg τ ι → Learner τ ι
  | .switch i => { r with remoteTable := some i }
  | .update updateid useIdentifier _ ts =>
    match r.remoteTable with
    | none => r
    | some i =>
      { r with
        lastGet := Function.update r.lastGet i (if useIdentifier then updateid else r.lastGet i + 1)
        entries := Function.update r.entries i (ts :: r.entries i) }
  | _ => r

def Learner.treatAll (r : Learner τ ι) (out : List (PeerMsg τ ι)) : Learner τ ι :=
  out.foldl .treat r

end SmartHAProxy
