import MiniDB.Common
import MiniDB.Foundations.Dict

/-!
# Transactions

`Transaction.h` and `Transaction.cpp`: the transactions of one process, by their ids. Ids start at
one in every process. The locks that `commit` and `abort` release are not part of this state.

## Main definitions

* `TransactionManager`: the transactions and the next id
* `TransactionManager.begin`, `TransactionManager.commit`, `TransactionManager.abort`,
  `TransactionManager.getTransaction`: the calls
-/

namespace MiniDB

/-- The states of a transaction. -/
inductive TxnState
  | active
  | committed
  | aborted
deriving DecidableEq, Repr

/-- The transactions by their ids, and the next id. -/
structure TransactionManager where
  transactions : Dict Int32 TxnState
  nextTxnId : Int32

namespace TransactionManager

/-- `TransactionManager::TransactionManager`. -/
def new : TransactionManager := ⟨.empty, 1⟩

/-- `TransactionManager::begin`: a transaction that is already there under the id stays. -/
def begin (mgr : TransactionManager) : TransactionManager × Int32 :=
  ({ transactions := match mgr.transactions.find? mgr.nextTxnId with
      | some _ => mgr.transactions
      | none => mgr.transactions.insert mgr.nextTxnId .active
     nextTxnId := mgr.nextTxnId + 1 }, mgr.nextTxnId)

/-- `TransactionManager::getTransaction`: the state of the transaction, if it is there. -/
def getTransaction (mgr : TransactionManager) (txnId : Int32) : Option TxnState :=
  mgr.transactions.find? txnId

/-- The state of a transaction changed, if it is there. -/
def setState (mgr : TransactionManager) (txnId : Int32) (state : TxnState) : TransactionManager :=
  match mgr.transactions.find? txnId with
  | none => mgr
  | some _ => { mgr with transactions := mgr.transactions.insert txnId state }

/-- `TransactionManager::commit`. -/
def commit (mgr : TransactionManager) (txnId : Int32) : TransactionManager :=
  mgr.setState txnId .committed

/-- `TransactionManager::abort`. -/
def abort (mgr : TransactionManager) (txnId : Int32) : TransactionManager :=
  mgr.setState txnId .aborted

end TransactionManager

end MiniDB
