/-
The servers of a backend (haproxy/server-t.h, haproxy/backend.h).

A server has an operational state, a set of administrative flags and an
effective weight.  Each of the three exists twice: the current value, which
the load balancing algorithms have taken into account, and the next value,
which waits to be committed (`Server.lbCommitStatus`).

`int` and `unsigned` fields that only meet in 32-bit unsigned arithmetic
(`served`, `maxqueue`, the weights) are kept as `UInt32`; dates are integers.
-/
import SmartHAProxy.Lib.CString

namespace SmartHAProxy

/-! ### States and administrative flags -/

/-- `enum srv_state`. -/
inductive SrvState
  | stopped
  | starting
  | running
  | stopping
  deriving DecidableEq, Repr

/-- `enum srv_admin`, a packed set of flags. -/
abbrev SrvAdmin := UInt8

namespace SrvAdmin

def fmaint : SrvAdmin := 0x01

/-- Maintenance inherited from a tracked server. -/
def imaint : SrvAdmin := 0x02

def maint : SrvAdmin := 0x23

def fdrain : SrvAdmin := 0x08

/-- Drain state inherited from a tracked server. -/
def idrain : SrvAdmin := 0x10

def drain : SrvAdmin := 0x18

/-- Down because of an address resolution failure. -/
def rmaint : SrvAdmin := 0x20

/-- `flags & mask`, as a condition. -/
def has (flags mask : SrvAdmin) : Bool := flags &&& mask != 0

end SrvAdmin

/-! ### Weights -/

/-- `BE_WEIGHT_SCALE`: the effective weight of a server of user weight 1. -/
def beWeightScale : UInt32 := 16

def srvUwghtRange : UInt32 := 256

/-- `SRV_EWGHT_RANGE`, the same number as `SRV_EWGHT_MAX`. -/
def srvEwghtMax : UInt32 := srvUwghtRange * beWeightScale

/-! ### Health checks -/

/-- What the status functions read and write of a `struct check`. -/
structure Check where
  /-- `CHK_ST_ENABLED` -/
  enabled : Bool
  /-- `CHK_ST_PAUSED` -/
  paused : Bool
  health : ℤ
  rise : ℤ
  deriving DecidableEq, Repr

namespace Check

def pause (c : Check) : Check := if c.enabled then { c with paused := true, health := 0 } else c

/-- The check starts again, as if it had just succeeded. -/
def resume (c : Check) : Check :=
  if c.enabled then { c with paused := false, health := c.rise } else c

/-- The check does not keep the server down. -/
def passes (c : Check) : Bool := !c.enabled || c.health ≥ c.rise

end Check

/-! ### Servers -/

/-- `struct server`.  The configuration parser refuses a server without a
name, so the last character of `id` exists. -/
structure Server where
  id : CStr
  id_ne_nil : id ≠ []
  /-- `flags & SRV_F_BACKUP` -/
  backup : Bool
  puid : UInt32
  curState : SrvState
  nextState : SrvState
  curAdmin : SrvAdmin
  nextAdmin : SrvAdmin
  uweight : UInt32
  curEweight : UInt32
  nextEweight : UInt32
  cumulativeWeight : UInt32
  maxconn : UInt32
  minconn : UInt32
  maxqueue : UInt32
  served : UInt32
  /-- `queue.length` -/
  queueLength : UInt32
  /-- `slowstart`, in seconds -/
  slowstart : ℤ
  lastChange : ℤ
  downTime : ℤ
  /-- `counters.down_trans` -/
  downTrans : ℕ
  check : Check
  agent : Check
  deriving DecidableEq, Repr

/-- The group (`true` for backup servers) and the weight of a usable server,
nothing for a server that is not usable. -/
abbrev Standing := Option (Bool × UInt32)

/-- `new_server`, with the default weight of the configuration. -/
def newServer (id : CStr) (h : id ≠ []) : Server where
  id := id
  id_ne_nil := h
  backup := false
  puid := 0
  curState := .stopped
  nextState := .running
  curAdmin := 0
  nextAdmin := 0
  uweight := 1
  curEweight := 0
  nextEweight := 0
  cumulativeWeight := 0
  maxconn := 0
  minconn := 0
  maxqueue := 0
  served := 0
  queueLength := 0
  slowstart := 0
  lastChange := 0
  downTime := 0
  downTrans := 0
  check := ⟨false, false, 0, 0⟩
  agent := ⟨false, false, 0, 0⟩

/-- The server `s1`, with the defaults of the configuration. -/
def serverS1 : Server := newServer (bytes "s1") (by decide)

namespace Server

/-- A weight, admin flags and a state under which requests may be sent. -/
def usableWith (eweight : UInt32) (admin : SrvAdmin) (state : SrvState) : Bool :=
  if eweight = 0 then false
  else if admin.has .maint then false
  else if admin.has .drain then false
  else match state with
    | .starting | .running => true
    | .stopping | .stopped => false

/-- `srv_willbe_usable`: usable once the pending values are committed. -/
def willbeUsable (s : Server) : Bool := usableWith s.nextEweight s.nextAdmin s.nextState

/-- `srv_currently_usable`: usable according to the committed values. -/
def currentlyUsable (s : Server) : Bool := usableWith s.curEweight s.curAdmin s.curState

/-- `srv_lb_commit_status`. -/
def lbCommitStatus (s : Server) : Server :=
  { s with
    curState := s.nextState
    curAdmin := s.nextAdmin
    curEweight := s.nextEweight }

/-- `srv_lb_status_changed`. -/
def lbStatusChanged (s : Server) : Bool :=
  s.nextState ≠ s.curState || s.nextAdmin ≠ s.curAdmin || s.nextEweight ≠ s.curEweight

/-- What the totals of a backend depend on: the standing of the server
according to the committed values. -/
def curStanding (s : Server) : Standing :=
  if s.currentlyUsable then some (s.backup, s.curEweight) else none

def nextStanding (s : Server) : Standing :=
  if s.willbeUsable then some (s.backup, s.nextEweight) else none

/-- Whatever is pending on the server makes no difference to the totals. -/
def Settled (s : Server) : Prop := s.curStanding = s.nextStanding

/-! ### Numbers of servers -/

/-- The server number that `fwrr_get_next_server` and `fwlc_get_next_server`
compare with a whitelist string. -/
def srvNum (s : Server) : UInt8 :=
  if s.id = bytes "WP-Host" then '1'.toUInt8 else s.id.getLast s.id_ne_nil

/-- `onWhitelist`, which makes no exception for `WP-Host`. -/
def onWhitelist (taskWl : CStr) (s : Server) : Bool := strchr taskWl (s.id.getLast s.id_ne_nil)

/-! ### Committing -/

@[simp] theorem nextStanding_commit (s : Server) :
    s.lbCommitStatus.nextStanding = s.nextStanding := rfl

theorem settled_commit (s : Server) : s.lbCommitStatus.Settled := rfl

theorem settled_of_not_usable {s : Server} (hc : s.currentlyUsable = false)
    (hw : s.willbeUsable = false) : s.Settled := by
  simp [Settled, curStanding, nextStanding, hc, hw]

def Committed (s : Server) : Prop :=
  s.nextState = s.curState ∧ s.nextAdmin = s.curAdmin ∧ s.nextEweight = s.curEweight

theorem committed_commit (s : Server) : s.lbCommitStatus.Committed := ⟨rfl, rfl, rfl⟩

theorem committed_of_not_changed {s : Server} (h : s.lbStatusChanged = false) : s.Committed := by
  simpa [lbStatusChanged, Committed, and_assoc] using h

theorem settled_of_not_changed {s : Server} (h : s.lbStatusChanged = false) : s.Settled := by
  obtain ⟨hstate, hadmin, hweight⟩ := committed_of_not_changed h
  have husable : s.currentlyUsable = s.willbeUsable := by
    rw [currentlyUsable, willbeUsable, hstate, hadmin, hweight]
  rw [Settled, curStanding, nextStanding, husable, hweight]

end Server

end SmartHAProxy
