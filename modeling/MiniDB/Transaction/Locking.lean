import MiniDB.Foundations.Machine
import MiniDB.Transaction.LockManager

/-!
# Transactions that lock

Any number of transactions call the lock manager, each with one call at a time. A transaction whose
call waits does nothing until the call is woken up. The steps of different transactions come in any
order.

## Main definitions

* `LockCall`, `Locks`: the steps, and the lock manager with the calls that wait
* `Locks.Enabled`: the steps of transactions with one call at a time
* `Locks.Compatible`: an exclusive lock is alone, and a pending request is that of a waiting call

## Main results

* `LockManager.request_cases`, `LockManager.wakeUp_cases`: what the steps of a lock call do
* `Locks.Compatible.perform`: every step keeps the locks compatible
* `Locks.run_compatible`: so they are in every run, and a call that returns `true` has its lock
-/

namespace MiniDB

namespace LockManager

variable {mgr : LockManager} {txnId t : Int32} {res : ResourceId} {mode : LockMode}
  {requests : List LockRequest}

/-! ## The steps of the lock manager -/

@[simp] theorem lockTable_setRequests (res' : ResourceId) :
    (mgr.setRequests res requests).lockTable res' =
      if res' = res then requests else mgr.lockTable res' := Function.update_apply ..

@[simp] theorem lockTable_pushBack (req : LockRequest) (res' : ResourceId) :
    (mgr.pushBack res req).lockTable res' =
      if res' = res then mgr.lockTable res ++ [req] else mgr.lockTable res' :=
  lockTable_setRequests res'

@[simp] theorem lockTable_stopWaiting : (mgr.stopWaiting txnId).lockTable = mgr.lockTable := rfl

@[simp] theorem lockTable_addEdges :
    (mgr.addEdges txnId requests).lockTable = mgr.lockTable := by
  unfold addEdges
  induction requests generalizing mgr with
  | nil => rfl
  | cons req requests ih =>
    rw [List.foldl_cons, ih]
    split <;> rfl

@[simp] theorem waitsFor_setRequests : (mgr.setRequests res requests).waitsFor = mgr.waitsFor := rfl

@[simp] theorem waitsFor_pushBack (req : LockRequest) :
    (mgr.pushBack res req).waitsFor = mgr.waitsFor := rfl

theorem waitsFor_stopWaiting (t : Int32) :
    (mgr.stopWaiting txnId).waitsFor t = if t = txnId then [] else mgr.waitsFor t := by
  unfold waitsFor stopWaiting
  rw [Dict.find?_erase]
  split <;> rfl

/-- The edges a transaction gets are to the other transactions that hold a lock. -/
theorem mem_waitsFor_addEdges {a b : Int32} : b ∈ (mgr.addEdges txnId requests).waitsFor a ↔
    b ∈ mgr.waitsFor a ∨ a = txnId ∧ b ≠ txnId ∧ ∃ req ∈ requests, req.txnId = b ∧ req.granted := by
  unfold addEdges
  induction requests generalizing mgr with
  | nil => simp
  | cons req requests ih =>
    have hinsert : ∀ l : List Int32,
        (waitsFor { mgr with waitForGraph := mgr.waitForGraph.insert txnId l } a) =
          if a = txnId then l else mgr.waitsFor a := by
      intro l
      unfold waitsFor
      rw [Dict.find?_insert]
      split <;> rfl
    rw [List.foldl_cons, ih]
    simp only [List.mem_cons, or_and_right, exists_or, exists_eq_left]
    by_cases hreq : req.txnId ≠ txnId ∧ req.granted
    · rw [if_pos hreq, hinsert]
      by_cases ha : a = txnId
      · subst ha
        rw [if_pos rfl, List.mem_insert_iff]
        constructor
        · rintro ((rfl | h) | ⟨-, hb, h⟩)
          · exact Or.inr ⟨rfl, hreq.1, Or.inl ⟨rfl, hreq.2⟩⟩
          · exact Or.inl h
          · exact Or.inr ⟨rfl, hb, Or.inr h⟩
        · rintro (h | ⟨-, hb, ⟨rfl, -⟩ | h⟩)
          · exact Or.inl (Or.inr h)
          · exact Or.inl (Or.inl rfl)
          · exact Or.inr ⟨rfl, hb, h⟩
      · simp [ha]
    · rw [if_neg hreq]
      refine or_congr_right (and_congr_right fun _ => and_congr_right fun hb => ?_)
      refine (or_iff_right ?_).symm
      rintro ⟨rfl, hg⟩
      exact hreq ⟨hb, hg⟩

/-- What the first step of a lock call does. -/
theorem request_cases (mode : LockMode) (mgr : LockManager) (txnId : Int32) (res : ResourceId) :
    ((∃ req ∈ mgr.lockTable res, holds txnId mode req) ∧
      mgr.request mode txnId res = (mgr, some true)) ∨
    ((∀ req ∈ mgr.lockTable res, ¬ holds txnId mode req) ∧
      (∀ req ∈ mgr.lockTable res, ¬ blocks txnId mode req) ∧
      mgr.request mode txnId res = (mgr.pushBack res ⟨txnId, mode, true⟩, some true)) ∨
    ((∀ req ∈ mgr.lockTable res, ¬ holds txnId mode req) ∧
      (∃ req ∈ mgr.lockTable res, blocks txnId mode req) ∧
      (mgr.addEdges txnId (mgr.lockTable res)).hasDeadlock txnId ∧
      mgr.request mode txnId res =
        ((mgr.addEdges txnId (mgr.lockTable res)).stopWaiting txnId, some false)) ∨
    ((∀ req ∈ mgr.lockTable res, ¬ holds txnId mode req) ∧
      (∃ req ∈ mgr.lockTable res, blocks txnId mode req) ∧
      (mgr.addEdges txnId (mgr.lockTable res)).hasDeadlock txnId = false ∧
      mgr.request mode txnId res =
        ((mgr.addEdges txnId (mgr.lockTable res)).pushBack res ⟨txnId, mode, false⟩, none)) := by
  -- The tests of the source in their order: held already, compatible, deadlock, wait.
  by_cases hheld : ∃ req ∈ mgr.lockTable res, holds txnId mode req
  · refine Or.inl ⟨hheld, ?_⟩
    rw [request, if_pos (List.any_eq_true.mpr hheld)]
  · have hnot : ∀ req ∈ mgr.lockTable res, ¬ holds txnId mode req :=
      fun req hreq h => hheld ⟨req, hreq, h⟩
    have hany : ¬ (mgr.lockTable res).any (holds txnId mode) = true :=
      fun h => hheld (List.any_eq_true.mp h)
    refine Or.inr ?_
    by_cases hblocks : ∃ req ∈ mgr.lockTable res, blocks txnId mode req
    · have hmust : ¬ (!(mgr.lockTable res).any (blocks txnId mode)) = true := by
        rw [List.any_eq_true.mpr hblocks]
        nofun
      refine Or.inr ?_
      rw [request, if_neg hany, if_neg hmust]
      cases hdead : (mgr.addEdges txnId (mgr.lockTable res)).hasDeadlock txnId with
      | true => exact Or.inl ⟨hnot, hblocks, rfl, if_pos hdead⟩
      | false => exact Or.inr ⟨hnot, hblocks, rfl, if_neg (by rw [hdead]; nofun)⟩
    · have hfree : (!(mgr.lockTable res).any (blocks txnId mode)) = true := by
        rw [Bool.not_eq_true', ← Bool.not_eq_true]
        exact fun h => hblocks (List.any_eq_true.mp h)
      refine Or.inl ⟨hnot, fun req hreq h => hblocks ⟨req, hreq, h⟩, ?_⟩
      rw [request, if_neg hany, if_pos hfree]

/-- What the second step of a lock call does. -/
theorem wakeUp_cases (mode : LockMode) (mgr : LockManager) (txnId : Int32) (res : ResourceId) :
    mgr.wakeUp mode txnId res = (mgr, none) ∨
    ((∀ req ∈ mgr.lockTable res, ¬ blocks txnId mode req) ∧
      mgr.wakeUp mode txnId res =
        ((mgr.setRequests res (grantFirst txnId (mgr.lockTable res))).stopWaiting txnId,
          some true)) := by
  rw [wakeUp]
  split
  case isTrue => exact Or.inl rfl
  case isFalse hnot =>
    exact Or.inr ⟨fun req hreq h => hnot (List.any_eq_true.mpr ⟨req, hreq, h⟩), rfl⟩

/-! ## Pending requests -/

/-- The pending requests of a transaction. -/
def pendingOf (txnId : Int32) (requests : List LockRequest) : List LockRequest :=
  requests.filter fun req => req.txnId = txnId ∧ !req.granted

theorem mem_pendingOf {req : LockRequest} :
    req ∈ pendingOf txnId requests ↔
      req ∈ requests ∧ req.txnId = txnId ∧ req.granted = false := by
  simp [pendingOf]

theorem pendingOf_append (req : LockRequest) :
    pendingOf txnId (requests ++ [req]) = pendingOf txnId requests ++
      if req.txnId = txnId ∧ req.granted = false then [req] else [] := by
  unfold pendingOf
  rw [List.filter_append, List.filter_singleton]
  simp

/-- `grantFirst` takes the first of the pending requests away. -/
theorem pendingOf_grantFirst (t : Int32) : pendingOf t (grantFirst txnId requests) =
    if t = txnId then (pendingOf t requests).tail else pendingOf t requests := by
  induction requests with
  | nil => simp [pendingOf, grantFirst]
  | cons req requests ih =>
    unfold pendingOf at ih ⊢
    rw [grantFirst]
    -- The first pending request of the transaction is granted, the ones behind it are not touched.
    by_cases hreq : req.txnId = txnId ∧ !req.granted
    · rw [if_pos hreq, List.filter_cons_of_neg (by simp)]
      obtain ⟨htxn, hgranted⟩ := hreq
      by_cases ht : t = txnId
      · rw [if_pos ht, List.filter_cons_of_pos (by simpa [ht, htxn] using hgranted), List.tail_cons]
      · rw [if_neg ht, List.filter_cons_of_neg (by simp [htxn, Ne.symm ht])]
    · rw [if_neg hreq, List.filter_cons, List.filter_cons, ih]
      by_cases ht : t = txnId
      · have hskip : ¬ (req.txnId = t ∧ (!req.granted) = true) := ht ▸ hreq
        simp only [hskip, decide_false, Bool.false_eq_true, if_false]
      · simp only [if_neg ht]

/-- Only a granted request is given back. -/
theorem pendingOf_eraseP : pendingOf t (requests.eraseP fun req => req.txnId = txnId ∧ req.granted) =
    pendingOf t requests := by
  induction requests with
  | nil => rfl
  | cons req requests ih =>
    unfold pendingOf at ih ⊢
    by_cases hreq : req.txnId = txnId ∧ req.granted
    · rw [List.eraseP_cons_of_pos (by simpa using hreq),
        List.filter_cons_of_neg (by simp [hreq.2])]
    · rw [List.eraseP_cons_of_neg (by simpa using hreq), List.filter_cons, List.filter_cons, ih]

/-- The granted requests after `grantFirst`. -/
theorem mem_grantFirst_granted {req : LockRequest} (hgranted : req.granted = true) :
    req ∈ grantFirst txnId requests ↔ req ∈ requests ∨
      ∃ p, (pendingOf txnId requests).head? = some p ∧ req = { p with granted := true } := by
  induction requests with
  | nil => simp [grantFirst, pendingOf]
  | cons r requests ih =>
    unfold pendingOf at ih ⊢
    rw [grantFirst]
    by_cases hr : r.txnId = txnId ∧ !r.granted
    · have hne : req ≠ r := by
        rintro rfl
        rw [hgranted] at hr
        cases hr.2
      rw [if_pos hr, List.filter_cons_of_pos (by simpa using hr), List.mem_cons, List.mem_cons]
      simp only [hne, false_or, List.head?_cons, Option.some.injEq, exists_eq_left']
      exact or_comm
    · rw [if_neg hr, List.filter_cons_of_neg (by simpa using hr), List.mem_cons, List.mem_cons, ih,
        or_assoc]

/-- `grantFirst` changes nobody's request into somebody else's. -/
theorem forall_mem_grantFirst (h : ∀ req ∈ requests, req.txnId ≠ t) :
    ∀ req ∈ grantFirst txnId requests, req.txnId ≠ t := by
  induction requests with
  | nil => exact h
  | cons r requests ih =>
    obtain ⟨hr, hrest⟩ := List.forall_mem_cons.mp h
    rw [grantFirst]
    split
    case isTrue => exact List.forall_mem_cons.mpr ⟨hr, hrest⟩
    case isFalse => exact List.forall_mem_cons.mpr ⟨hr, ih hrest⟩

theorem mem_of_mem_grantFirst {req : LockRequest} (h : req ∈ grantFirst txnId requests)
    (hpending : req.granted = false) : req ∈ requests := by
  induction requests with
  | nil => exact h
  | cons r requests ih =>
    rw [grantFirst] at h
    split at h
    case isTrue =>
      rcases List.mem_cons.mp h with rfl | h
      · cases hpending
      · exact List.mem_cons_of_mem _ h
    case isFalse =>
      rcases List.mem_cons.mp h with rfl | h
      · exact List.mem_cons_self
      · exact List.mem_cons_of_mem _ (ih h)

/-- The locks a transaction has do not go away when a request is granted. -/
theorem mem_grantFirst_of_granted {req : LockRequest} (hgranted : req.granted = true)
    (h : req ∈ requests) : req ∈ grantFirst txnId requests :=
  (mem_grantFirst_granted hgranted).mpr (Or.inl h)

end LockManager

/-- The steps of the transactions: a lock call and its wake-up, and locks given back. -/
inductive LockCall
  | lock (mode : LockMode) (txnId : Int32) (res : ResourceId)
  | wakeUp (txnId : Int32)
  | unlock (txnId : Int32) (res : ResourceId)
  | unlockAll (txnId : Int32)
deriving DecidableEq, Repr

/-- The lock manager, the call every waiting transaction is in, and the transactions that have given
all their locks back. -/
structure Locks where
  mgr : LockManager
  waiting : Int32 → Option (LockMode × ResourceId)
  finished : List Int32

namespace Locks

/-- No transaction has a lock. -/
def new : Locks := ⟨.new, fun _ => none, []⟩

/-- The lock call of a mode. -/
def lockCall : LockMode → LockManager → Int32 → ResourceId → LockManager × Option Bool
  | .shared => LockManager.lockShared
  | .exclusive => LockManager.lockExclusive

/-- One step: what a lock call returns, or `none` for one that waits and for the other calls. -/
def perform (s : Locks) : LockCall → Locks × Option Bool
  | .lock mode txnId res =>
    match lockCall mode s.mgr txnId res with
    | (mgr, none) =>
      ({ s with mgr := mgr, waiting := Function.update s.waiting txnId (some (mode, res)) }, none)
    | (mgr, some b) => ({ s with mgr := mgr }, some b)
  | .wakeUp txnId =>
    match s.waiting txnId with
    | none => (s, none)
    | some (mode, res) =>
      match s.mgr.wakeUp mode txnId res with
      | (mgr, none) => ({ s with mgr := mgr }, none)
      | (mgr, some b) =>
        ({ s with mgr := mgr, waiting := Function.update s.waiting txnId none }, some b)
  | .unlock txnId res => ({ s with mgr := s.mgr.unlock txnId res }, none)
  | .unlockAll txnId =>
    ({ s with mgr := s.mgr.unlockAll txnId, finished := txnId :: s.finished }, none)

/-- One call at a time: a transaction whose call waits is woken up before it calls again. -/
def Enabled (s : Locks) : LockCall → Prop
  | .lock _ txnId _ => s.waiting txnId = none
  | .wakeUp txnId => s.waiting txnId ≠ none
  | .unlock txnId _ => s.waiting txnId = none
  | .unlockAll txnId => s.waiting txnId = none

instance (s : Locks) : ∀ call, Decidable (s.Enabled call)
  | .lock _ txnId _ => inferInstanceAs (Decidable (s.waiting txnId = none))
  | .wakeUp txnId => inferInstanceAs (Decidable (s.waiting txnId ≠ none))
  | .unlock txnId _ => inferInstanceAs (Decidable (s.waiting txnId = none))
  | .unlockAll txnId => inferInstanceAs (Decidable (s.waiting txnId = none))

variable {s : Locks} {mode : LockMode} {t txnId : Int32} {res : ResourceId}

theorem lockCall_eq (mode : LockMode) (mgr : LockManager) (txnId : Int32) (res : ResourceId) :
    lockCall mode mgr txnId res = mgr.request mode txnId res := by
  cases mode <;> rfl

/-! ## What a step does -/

/-- What a lock call does, by the outcomes of `LockManager.request_cases`. -/
theorem perform_lock (mode : LockMode) (txnId : Int32) (res : ResourceId) :
    ((∃ req ∈ s.mgr.lockTable res, LockManager.holds txnId mode req) ∧
      s.perform (.lock mode txnId res) = (s, some true)) ∨
    ((∀ req ∈ s.mgr.lockTable res, ¬ LockManager.holds txnId mode req) ∧
      (∀ req ∈ s.mgr.lockTable res, ¬ LockManager.blocks txnId mode req) ∧
      s.perform (.lock mode txnId res) =
        ({ s with mgr := s.mgr.pushBack res ⟨txnId, mode, true⟩ }, some true)) ∨
    ((∃ req ∈ s.mgr.lockTable res, LockManager.blocks txnId mode req) ∧
      (s.mgr.addEdges txnId (s.mgr.lockTable res)).hasDeadlock txnId ∧
      s.perform (.lock mode txnId res) =
        ({ s with mgr := (s.mgr.addEdges txnId (s.mgr.lockTable res)).stopWaiting txnId },
          some false)) ∨
    ((∃ req ∈ s.mgr.lockTable res, LockManager.blocks txnId mode req) ∧
      (s.mgr.addEdges txnId (s.mgr.lockTable res)).hasDeadlock txnId = false ∧
      s.perform (.lock mode txnId res) =
        ({ s with
            mgr := (s.mgr.addEdges txnId (s.mgr.lockTable res)).pushBack res ⟨txnId, mode, false⟩
            waiting := Function.update s.waiting txnId (some (mode, res)) }, none)) := by
  simp only [perform, lockCall_eq]
  rcases LockManager.request_cases mode s.mgr txnId res with
    ⟨hheld, h⟩ | ⟨hnot, hfree, h⟩ | ⟨-, hblocks, hdead, h⟩ | ⟨-, hblocks, hdead, h⟩
  · exact Or.inl ⟨hheld, by rw [h]⟩
  · exact Or.inr (Or.inl ⟨hnot, hfree, by rw [h]⟩)
  · exact Or.inr (Or.inr (Or.inl ⟨hblocks, hdead, by rw [h]⟩))
  · exact Or.inr (Or.inr (Or.inr ⟨hblocks, hdead, by rw [h]⟩))

/-- What the wake-up of a waiting call does. -/
theorem perform_wakeUp (hwait : s.waiting txnId = some (mode, res)) :
    s.perform (.wakeUp txnId) = (s, none) ∨
    ((∀ req ∈ s.mgr.lockTable res, ¬ LockManager.blocks txnId mode req) ∧
      s.perform (.wakeUp txnId) =
        ({ s with
            mgr := (s.mgr.setRequests res
              (LockManager.grantFirst txnId (s.mgr.lockTable res))).stopWaiting txnId
            waiting := Function.update s.waiting txnId none }, some true)) := by
  simp only [perform, hwait]
  rcases LockManager.wakeUp_cases mode s.mgr txnId res with h | ⟨hfree, h⟩
  · exact Or.inl (by rw [h])
  · exact Or.inr ⟨hfree, by rw [h]⟩

/-! ## Compatible locks -/

/-- The pending requests a transaction has on a resource by the call it is in. -/
def pendingAt (waiting : Int32 → Option (LockMode × ResourceId)) (txnId : Int32)
    (res : ResourceId) : List LockRequest :=
  match waiting txnId with
  | none => []
  | some (mode, res') => if res' = res then [⟨txnId, mode, false⟩] else []

/-- An exclusive lock is the lock of one transaction, and the pending requests are those of the
waiting calls. -/
structure Compatible (s : Locks) : Prop where
  alone : ∀ {res r r'}, r ∈ s.mgr.lockTable res → r' ∈ s.mgr.lockTable res → r.granted = true →
    r'.granted = true → r.mode = .exclusive → r'.txnId = r.txnId
  pending : ∀ t res, LockManager.pendingOf t (s.mgr.lockTable res) = pendingAt s.waiting t res

theorem compatible_new : Compatible new where
  alone h := by cases h
  pending _ _ := rfl

/-- A lock that no other transaction stands in the way of. -/
theorem alone_of_free {requests : List LockRequest}
    (halone : ∀ {r r'}, r ∈ requests → r' ∈ requests → r.granted = true → r'.granted = true →
      r.mode = .exclusive → r'.txnId = r.txnId)
    (hfree : ∀ req ∈ requests, ¬ LockManager.blocks txnId mode req) {requests' : List LockRequest}
    (hsub : ∀ {r}, r ∈ requests' → r.granted = true →
      r ∈ requests ∨ r = ⟨txnId, mode, true⟩) {r r' : LockRequest}
    (hr : r ∈ requests') (hr' : r' ∈ requests') (hg : r.granted = true) (hg' : r'.granted = true)
    (hx : r.mode = .exclusive) : r'.txnId = r.txnId := by
  -- A granted request of another transaction would block the new one, or the new one it.
  have hown : ∀ {q}, q ∈ requests → q.granted = true → mode = .exclusive ∨ q.mode = .exclusive →
      q.txnId = txnId := by
    intro q hq hgranted hor
    by_contra hne
    refine hfree q hq ?_
    cases mode with
    | exclusive => exact decide_eq_true ⟨hne, hgranted⟩
    | shared => exact decide_eq_true ⟨hne, hor.resolve_left nofun, hgranted⟩
  rcases hsub hr hg with hr | rfl <;> rcases hsub hr' hg' with hr' | rfl
  · exact halone hr hr' hg hg' hx
  · exact (hown hr hg (Or.inr hx)).symm
  · exact hown hr' hg' (Or.inl hx)
  · rfl

namespace Compatible

theorem waiting_of_pending (h : Compatible s) {r : LockRequest} (hr : r ∈ s.mgr.lockTable res)
    (hpending : r.granted = false) : s.waiting r.txnId = some (r.mode, res) := by
  have hmem : r ∈ LockManager.pendingOf r.txnId (s.mgr.lockTable res) :=
    LockManager.mem_pendingOf.mpr ⟨hr, rfl, hpending⟩
  rw [h.pending, pendingAt] at hmem
  split at hmem
  case h_1 => cases hmem
  case h_2 mode res' hwait =>
    split at hmem
    case isTrue heq =>
      have hmode : r.mode = mode := congrArg LockRequest.mode (List.mem_singleton.mp hmem)
      rw [hwait, heq, hmode]
    case isFalse => cases hmem

theorem pendingOf_waiting (h : Compatible s) (hwait : s.waiting t = some (mode, res)) :
    LockManager.pendingOf t (s.mgr.lockTable res) = [⟨t, mode, false⟩] := by
  rw [h.pending, pendingAt, hwait]
  exact if_pos rfl

theorem pending_of_waiting (h : Compatible s) (hwait : s.waiting t = some (mode, res)) :
    ⟨t, mode, false⟩ ∈ s.mgr.lockTable res := by
  have hmem : ⟨t, mode, false⟩ ∈ LockManager.pendingOf t (s.mgr.lockTable res) := by
    rw [h.pendingOf_waiting hwait]
    exact List.mem_singleton_self _
  exact (LockManager.mem_pendingOf.mp hmem).1

/-- A request granted or pending put behind the others. -/
theorem pushBack (h : Compatible s) (hidle : s.waiting txnId = none) {mgr : LockManager}
    {req : LockRequest} (htable : mgr.lockTable = s.mgr.lockTable) (hreq : req.txnId = txnId)
    (hfree : req.granted = true →
      ∀ r ∈ s.mgr.lockTable res, ¬ LockManager.blocks txnId req.mode r)
    {waiting : Int32 → Option (LockMode × ResourceId)}
    (hwaiting : waiting = if req.granted then s.waiting
      else Function.update s.waiting txnId (some (req.mode, res))) :
    Compatible { s with mgr := mgr.pushBack res req, waiting := waiting } where
  alone := by
    intro res' r r' hr hr' hg hg' hx
    simp only [LockManager.lockTable_pushBack, htable] at hr hr'
    split at hr
    case isFalse => exact h.alone hr (by simpa only [*, if_false] using hr') hg hg' hx
    case isTrue heq =>
      rw [if_pos heq] at hr'
      cases hgranted : req.granted with
      | true =>
        obtain ⟨t, mode, granted⟩ := req
        obtain rfl : t = txnId := hreq
        obtain rfl : granted = true := hgranted
        exact alone_of_free h.alone (hfree rfl)
          (fun hmem _ => by simpa using hmem) hr hr' hg hg' hx
      | false =>
        have hold : ∀ {q}, q ∈ s.mgr.lockTable res ++ [req] → q.granted = true →
            q ∈ s.mgr.lockTable res := by
          intro q hq hqg
          rcases List.mem_append.mp hq with hq | hq
          · exact hq
          · rw [List.mem_singleton.mp hq, hgranted] at hqg; cases hqg
        exact h.alone (hold hr hg) (hold hr' hg') hg hg' hx
  pending := by
    intro t res'
    have hold := h.pending t res'
    have hnew : waiting t = if req.granted = false ∧ t = txnId then some (req.mode, res)
        else s.waiting t := by
      rw [hwaiting]
      cases req.granted with
      | true => simp
      | false => simp [Function.update_apply]
    simp only [LockManager.lockTable_pushBack, htable]
    by_cases hres : res' = res
    · subst hres
      rw [if_pos rfl, LockManager.pendingOf_append, hold, hreq]
      unfold pendingAt
      rw [hnew]
      by_cases ht : t = txnId
      · subst ht
        rw [hidle]
        cases hgranted : req.granted with
        | true => simp
        | false =>
          obtain ⟨t', mode, granted⟩ := req
          obtain rfl : t' = t := hreq
          obtain rfl : granted = false := hgranted
          simp
      · simp [ht, Ne.symm ht]
    · rw [if_neg hres, hold]
      unfold pendingAt
      rw [hnew]
      by_cases ht : req.granted = false ∧ t = txnId
      · rw [if_pos ht, ht.2, hidle]
        exact (if_neg (Ne.symm hres)).symm
      · rw [if_neg ht]

/-- Neither the wait-for graph nor the list of finished transactions matters. -/
theorem congr (h : Compatible s) {s' : Locks} (htable : s'.mgr.lockTable = s.mgr.lockTable)
    (hwaiting : s'.waiting = s.waiting) : Compatible s' where
  alone hr hr' := by
    rw [htable] at hr hr'
    exact h.alone hr hr'
  pending t res := by
    rw [htable, hwaiting]
    exact h.pending t res

/-- The request of a waiting call granted. -/
theorem grant (h : Compatible s) (hwait : s.waiting txnId = some (mode, res))
    (hfree : ∀ req ∈ s.mgr.lockTable res, ¬ LockManager.blocks txnId mode req) :
    Compatible { s with
      mgr := (s.mgr.setRequests res
        (LockManager.grantFirst txnId (s.mgr.lockTable res))).stopWaiting txnId
      waiting := Function.update s.waiting txnId none } where
  alone := by
    intro res' r r' hr hr' hg hg' hx
    simp only [LockManager.lockTable_stopWaiting, LockManager.lockTable_setRequests] at hr hr'
    split at hr
    case isFalse hne => exact h.alone hr (by simpa only [hne, if_false] using hr') hg hg' hx
    case isTrue heq =>
      rw [if_pos heq] at hr'
      refine alone_of_free h.alone hfree (fun hmem hgranted => ?_) hr hr' hg hg' hx
      have hcases := (LockManager.mem_grantFirst_granted hgranted).mp hmem
      rw [h.pendingOf_waiting hwait] at hcases
      exact hcases.imp_right fun ⟨p, hp, hr⟩ => by rw [hr, ← Option.some.inj hp]
  pending := by
    intro t res'
    simp only [LockManager.lockTable_stopWaiting, LockManager.lockTable_setRequests, pendingAt,
      Function.update_apply]
    have hold := h.pending t res'
    unfold pendingAt at hold
    by_cases ht : t = txnId
    · subst ht
      rw [if_pos rfl]
      by_cases hres : res' = res
      · rw [if_pos hres, LockManager.pendingOf_grantFirst, if_pos rfl, h.pendingOf_waiting hwait]
        rfl
      · rw [if_neg hres, hold, hwait]
        exact if_neg (Ne.symm hres)
    · rw [if_neg ht, ← hold]
      split
      case isTrue hres => rw [LockManager.pendingOf_grantFirst, if_neg ht, hres]
      case isFalse => rfl

/-- Requests taken away that are not pending. -/
theorem release (h : Compatible s) {s' : Locks} (hwaiting : s'.waiting = s.waiting)
    (hsub : ∀ res, (s'.mgr.lockTable res).Sublist (s.mgr.lockTable res))
    (hpending : ∀ t res, LockManager.pendingOf t (s'.mgr.lockTable res) =
      LockManager.pendingOf t (s.mgr.lockTable res)) : Compatible s' where
  alone hr hr' := h.alone ((hsub _).subset hr) ((hsub _).subset hr')
  pending t res := by
    rw [hpending, hwaiting]
    exact h.pending t res

/-- Every step keeps the locks compatible. -/
theorem perform (h : Compatible s) (call : LockCall) (henabled : s.Enabled call) :
    Compatible (s.perform call).1 := by
  cases call with
  | lock mode txnId res =>
    -- The lock is held already, or granted at once, or refused, or the caller waits.
    rcases s.perform_lock mode txnId res with
      ⟨-, hs⟩ | ⟨-, hfree, hs⟩ | ⟨-, -, hs⟩ | ⟨-, -, hs⟩ <;> rw [hs]
    · exact h
    · exact h.pushBack henabled rfl rfl (fun _ => hfree) rfl
    · exact h.congr LockManager.lockTable_addEdges rfl
    · exact h.pushBack henabled LockManager.lockTable_addEdges rfl (fun hg => by cases hg) rfl
  | wakeUp txnId =>
    obtain ⟨⟨mode, res⟩, hwait⟩ := Option.ne_none_iff_exists'.mp henabled
    rcases perform_wakeUp hwait with hs | ⟨hfree, hs⟩ <;> rw [hs]
    · exact h
    · exact h.grant hwait hfree
  | unlock txnId res =>
    have herase : ∀ res', (s.mgr.unlock txnId res).lockTable res' =
        if res' = res then (s.mgr.lockTable res).eraseP fun req => req.txnId = txnId ∧ req.granted
        else s.mgr.lockTable res' := LockManager.lockTable_setRequests
    refine h.release rfl (fun res' => ?_) fun t res' => ?_
    · show ((s.mgr.unlock txnId res).lockTable res').Sublist _
      rw [herase]
      split
      case isTrue heq => rw [heq]; exact List.eraseP_sublist
      case isFalse => exact .refl _
    · show LockManager.pendingOf t ((s.mgr.unlock txnId res).lockTable res') = _
      rw [herase]
      split
      case isTrue heq =>
        rw [heq]
        exact LockManager.pendingOf_eraseP
      case isFalse => rfl
  | unlockAll txnId =>
    refine h.release rfl (fun res => List.filter_sublist) fun t res => ?_
    show LockManager.pendingOf t ((s.mgr.lockTable res).filter fun req => req.txnId ≠ txnId) = _
    by_cases ht : t = txnId
    · have hnone : LockManager.pendingOf t (s.mgr.lockTable res) = [] := by
        have hidle : s.waiting txnId = none := henabled
        rw [h.pending, pendingAt, ht, hidle]
      rw [hnone]
      exact List.eq_nil_iff_forall_not_mem.mpr fun r hr => by
        obtain ⟨hmem, htxn, -⟩ := LockManager.mem_pendingOf.mp hr
        exact of_decide_eq_true (List.mem_filter.mp hmem).2 (htxn.trans ht)
    · unfold LockManager.pendingOf
      rw [List.filter_filter]
      refine List.filter_congr fun r _ => ?_
      by_cases hr : r.txnId = t
      · simp [hr, ht]
      · simp [hr]

end Compatible

/-- The lock call that a step belongs to. -/
def Serves (s : Locks) (mode : LockMode) (txnId : Int32) (res : ResourceId) : LockCall → Prop
  | .lock mode' txnId' res' => mode' = mode ∧ txnId' = txnId ∧ res' = res
  | .wakeUp txnId' => txnId' = txnId ∧ s.waiting txnId = some (mode, res)
  | _ => False

/-- A lock call that returns `true` has its lock. -/
theorem Compatible.holds_of_true (h : Compatible s) {call : LockCall}
    (hserves : s.Serves mode txnId res call) (htrue : (s.perform call).2 = some true) :
    ∃ req ∈ (s.perform call).1.mgr.lockTable res, req.txnId = txnId ∧ req.granted = true ∧
      (mode = .exclusive → req.mode = .exclusive) := by
  cases call with
  | lock mode' txnId' res' =>
    obtain ⟨rfl, rfl, rfl⟩ := hserves
    rcases s.perform_lock mode' txnId' res' with
      ⟨⟨req, hreq, hheld⟩, hs⟩ | ⟨-, -, hs⟩ | ⟨-, -, hs⟩ | ⟨-, -, hs⟩ <;> rw [hs] at htrue ⊢
    · cases mode' with
      | shared =>
        obtain ⟨htxn, hgranted⟩ := of_decide_eq_true hheld
        exact ⟨req, hreq, htxn, hgranted, nofun⟩
      | exclusive =>
        obtain ⟨htxn, hgranted, hmode⟩ := of_decide_eq_true hheld
        exact ⟨req, hreq, htxn, hgranted, fun _ => hmode⟩
    · exact ⟨⟨txnId', mode', true⟩, by simp, rfl, rfl, id⟩
    · cases htrue
    · cases htrue
  | wakeUp txnId' =>
    obtain ⟨rfl, hwait⟩ := hserves
    rcases perform_wakeUp hwait with hs | ⟨-, hs⟩ <;> rw [hs] at htrue ⊢
    · cases htrue
    · refine ⟨⟨txnId', mode, true⟩, ?_, rfl, rfl, id⟩
      simp only [LockManager.lockTable_stopWaiting, LockManager.lockTable_setRequests, if_true]
      refine (LockManager.mem_grantFirst_granted rfl).mpr (Or.inr ⟨⟨txnId', mode, false⟩, ?_, rfl⟩)
      rw [h.pendingOf_waiting hwait]
      rfl
  | unlock txnId' res' => exact hserves.elim
  | unlockAll txnId' => exact hserves.elim

theorem compatible_of_run {calls : List LockCall}
    (hcalls : Machine.Along Enabled Locks.perform new calls) :
    Compatible (Machine.specRun Locks.perform new calls).1 :=
  hcalls.invariant (fun _ call h henabled => h.perform call henabled) compatible_new

/-- In every state that any interleaving reaches, a transaction with an exclusive lock is the only
one with a lock on the resource, and a lock call that returns `true` leaves its caller with the lock
it asked for. -/
theorem run_compatible (calls : List LockCall)
    (hcalls : Machine.Along Enabled Locks.perform new calls) :
    (∀ res r r', r ∈ (Machine.specRun Locks.perform new calls).1.mgr.lockTable res →
      r' ∈ (Machine.specRun Locks.perform new calls).1.mgr.lockTable res →
      r.granted = true → r.mode = .exclusive → r'.granted = true → r'.txnId = r.txnId) ∧
    ∀ mode txnId res call,
      (Machine.specRun Locks.perform new calls).1.Enabled call →
      (Machine.specRun Locks.perform new calls).1.Serves mode txnId res call →
      ((Machine.specRun Locks.perform new calls).1.perform call).2 = some true →
      ∃ req ∈ ((Machine.specRun Locks.perform new calls).1.perform call).1.mgr.lockTable res,
        req.txnId = txnId ∧ req.granted = true ∧ (mode = .exclusive → req.mode = .exclusive) :=
  ⟨fun _ _ _ hr hr' hg hx hg' => (compatible_of_run hcalls).alone hr hr' hg hg' hx,
    fun _ _ _ _ _ hserves htrue => (compatible_of_run hcalls).holds_of_true hserves htrue⟩

/-- A page of a table. -/
def samplePage (pageId : ℕ) : ResourceId := ⟨lit "t", pageId, 0xFFFF⟩

/-- An exclusive lock goes from one transaction to another. -/
def handover : List LockCall :=
  [.lock .exclusive 1 (samplePage 0), .lock .exclusive 2 (samplePage 0), .unlockAll 1, .wakeUp 2]

theorem run_compatible_handover :
    ⟨2, .exclusive, true⟩ ∈
      (Machine.specRun Locks.perform new handover).1.mgr.lockTable (samplePage 0) ∧
    ∀ r ∈ (Machine.specRun Locks.perform new handover).1.mgr.lockTable (samplePage 0),
      r.granted = true → r.txnId = 2 := by
  refine ⟨by decide, fun r hr hg => ?_⟩
  have hrun := (run_compatible handover (by decide)).1 (samplePage 0) ⟨2, .exclusive, true⟩ r
  exact hrun (by decide) hr rfl rfl hg

end Locks

end MiniDB
