import MiniDB.Common
import MiniDB.Foundations.CycleSearch
import MiniDB.Foundations.Dict

/-!
# The lock manager

`LockManager.h` and `LockManager.cpp`: shared and exclusive locks on resources, with a wait-for
graph in which a request that would have to wait looks for a cycle. A call that waits is two steps
under the mutex: the request, which leaves a pending entry in the lock table, and the wake-up, which
grants it when the condition of the wait holds. A resource without an entry in the lock table is one
without requests.

## Main definitions

* `ResourceId`, `LockMode`, `LockRequest`, `LockManager`: the lock table and the wait-for graph
* `LockManager.lockShared`, `LockManager.lockExclusive`: the request of the two calls
* `LockManager.wakeUp`: a waiting call after a notification
* `LockManager.unlock`, `LockManager.unlockAll`: locks given back
* `LockManager.detectCycle`, `LockManager.hasDeadlock`: the search in the wait-for graph
-/

namespace MiniDB

/-- `LockMode`. -/
inductive LockMode
  | shared
  | exclusive
deriving DecidableEq, Repr

/-- What can be locked: a page of a table, or a row with its slot. -/
structure ResourceId where
  tableName : Str
  pageId : ℕ
  slotNum : ℕ
deriving DecidableEq, Repr

/-- A lock request in the lock table. -/
structure LockRequest where
  txnId : Int32
  mode : LockMode
  granted : Bool
deriving DecidableEq, Repr

/-- The requests of every resource in the order they came, and the transactions each waiting
transaction waits for. -/
structure LockManager where
  lockTable : ResourceId → List LockRequest
  waitForGraph : Dict Int32 (List Int32)

namespace LockManager

/-- `LockManager::LockManager`. -/
def new : LockManager := ⟨fun _ => [], .empty⟩

/-- The transactions a transaction waits for. -/
def waitsFor (mgr : LockManager) (txnId : Int32) : List Int32 :=
  (mgr.waitForGraph.find? txnId).getD []

/-- The requests of a resource replaced. -/
def setRequests (mgr : LockManager) (res : ResourceId) (requests : List LockRequest) :
    LockManager :=
  { mgr with lockTable := Function.update mgr.lockTable res requests }

/-- A request put behind the others of its resource. -/
def pushBack (mgr : LockManager) (res : ResourceId) (req : LockRequest) : LockManager :=
  mgr.setRequests res (mgr.lockTable res ++ [req])

/-- A transaction taken out of the wait-for graph. -/
def stopWaiting (mgr : LockManager) (txnId : Int32) : LockManager :=
  { mgr with waitForGraph := mgr.waitForGraph.erase txnId }

/-- `LockManager::detectCycle`. -/
def detectCycle (mgr : LockManager) (fuel : ℕ) (txnId : Int32)
    (seen : CycleSearch.Trail Int32) : Option (Bool × CycleSearch.Trail Int32) :=
  CycleSearch.visit mgr.waitsFor fuel txnId seen

/-- `LockManager::hasDeadlock`: only transactions with an entry in the graph have successors, so the
search never goes deeper than the entries and one more. -/
def hasDeadlock (mgr : LockManager) (txnId : Int32) : Bool :=
  match mgr.detectCycle ((mgr.waitForGraph.entries.map Prod.fst).length + 1) txnId ⟨[], []⟩ with
  | some (cycle, _) => cycle
  | none => false

/-- An entry with which the call returns at once: any lock the transaction holds for a shared
request, an exclusive one for an exclusive request. -/
def holds (txnId : Int32) : LockMode → LockRequest → Bool
  | .shared, req => req.txnId = txnId ∧ req.granted
  | .exclusive, req => req.txnId = txnId ∧ req.granted ∧ req.mode = .exclusive

/-- An entry of another transaction that stands in the way of a request. -/
def blocks (txnId : Int32) : LockMode → LockRequest → Bool
  | .shared, req => req.txnId ≠ txnId ∧ req.mode = .exclusive ∧ req.granted
  | .exclusive, req => req.txnId ≠ txnId ∧ req.granted

/-- The edges of a transaction that must wait: to every other transaction that holds a lock on the
resource. -/
def addEdges (mgr : LockManager) (txnId : Int32) (requests : List LockRequest) : LockManager :=
  requests.foldl (fun mgr req =>
    if req.txnId ≠ txnId ∧ req.granted then { mgr with
      waitForGraph := mgr.waitForGraph.insert txnId ((mgr.waitsFor txnId).insert req.txnId) }
    else mgr) mgr

/-- The first step of a lock call: `some` is what it returns, and `none` is a call that waits. -/
def request (mode : LockMode) (mgr : LockManager) (txnId : Int32) (res : ResourceId) :
    LockManager × Option Bool :=
  let requests := mgr.lockTable res
  if requests.any (holds txnId mode) then (mgr, some true)
  else if !requests.any (blocks txnId mode) then
    (mgr.pushBack res ⟨txnId, mode, true⟩, some true)
  else
    let mgr := mgr.addEdges txnId requests
    if mgr.hasDeadlock txnId then (mgr.stopWaiting txnId, some false)
    else (mgr.pushBack res ⟨txnId, mode, false⟩, none)

/-- `LockManager::lockShared` up to the wait. -/
def lockShared : LockManager → Int32 → ResourceId → LockManager × Option Bool := request .shared

/-- `LockManager::lockExclusive` up to the wait. -/
def lockExclusive : LockManager → Int32 → ResourceId → LockManager × Option Bool :=
  request .exclusive

/-- The first pending request of a transaction granted. -/
def grantFirst (txnId : Int32) : List LockRequest → List LockRequest
  | [] => []
  | req :: requests =>
    if req.txnId = txnId ∧ !req.granted then { req with granted := true } :: requests
    else req :: grantFirst txnId requests

/-- The second step of a lock call: a waiting call whose condition is checked again, and which goes
on waiting when it does not hold. -/
def wakeUp (mode : LockMode) (mgr : LockManager) (txnId : Int32) (res : ResourceId) :
    LockManager × Option Bool :=
  if (mgr.lockTable res).any (blocks txnId mode) then (mgr, none)
  else ((mgr.setRequests res (grantFirst txnId (mgr.lockTable res))).stopWaiting txnId, some true)

/-- `LockManager::unlock`: the first lock the transaction holds on the resource. -/
def unlock (mgr : LockManager) (txnId : Int32) (res : ResourceId) : LockManager :=
  mgr.setRequests res
    ((mgr.lockTable res).eraseP fun req => req.txnId = txnId ∧ req.granted)

/-- `LockManager::unlockAll`: every request of the transaction. -/
def unlockAll (mgr : LockManager) (txnId : Int32) : LockManager :=
  { mgr with lockTable := fun res => (mgr.lockTable res).filter fun req => req.txnId ≠ txnId }
    |>.stopWaiting txnId

end LockManager

end MiniDB
