import MiniDB.Foundations.Reorder
import MiniDB.Transaction.Locking
import MiniDB.Transaction.Transaction

/-!
# Serial order

Transactions of the transaction manager lock resources, read and write what they have locked, and
give all their locks back when they commit or abort. Every interleaving does to the data what the
transactions do one after another, in the order in which they end: two accesses that conflict are
made under locks that exclude each other, so that the first of the two transactions has ended when
the second one makes its access.

## Main definitions

* `Operation`, `Shared`: a read or a write of a locked resource, and the data
* `Concurrent`: the transactions, their locks and the data
* `Concurrent.serialOrder`: the transactions that have ended, in that order, and the others

## Main results

* `Locks.Covers.perform`: a lock stays until its transaction gives all its locks back
* `Concurrent.Ordered.perform`: conflicting accesses come in the order of the ends
* `Concurrent.serializable`: every interleaving is a serial run
-/

namespace MiniDB

/-! ## Locks that stay -/

namespace Locks

variable {s : Locks} {mode : LockMode} {t txnId : Int32} {res : ResourceId}

/-- The transaction has a lock on the resource that allows an access of the mode. -/
def Covers (s : Locks) (txnId : Int32) (res : ResourceId) (mode : LockMode) : Prop :=
  ∃ req ∈ s.mgr.lockTable res, req.txnId = txnId ∧ req.granted = true ∧
    (mode = .exclusive → req.mode = .exclusive)

instance (s : Locks) (txnId : Int32) (res : ResourceId) (mode : LockMode) :
    Decidable (s.Covers txnId res mode) :=
  inferInstanceAs (Decidable (∃ req ∈ s.mgr.lockTable res, _))

/-- Granted requests that stay. -/
theorem Covers.mono (h : s.Covers t res mode) {s' : Locks}
    (hkeep : ∀ req ∈ s.mgr.lockTable res, req.txnId = t → req.granted = true →
      req ∈ s'.mgr.lockTable res) : s'.Covers t res mode :=
  h.imp fun req ⟨hreq, htxn, hg, hx⟩ => ⟨hkeep req hreq htxn hg, htxn, hg, hx⟩

/-- A lock call takes nobody's lock away. -/
theorem Covers.lock (h : s.Covers t res mode) (mode' : LockMode) (txnId : Int32)
    (res' : ResourceId) : (s.perform (.lock mode' txnId res')).1.Covers t res mode := by
  have hpush : ∀ (mgr : LockManager) (req : LockRequest), mgr.lockTable = s.mgr.lockTable →
      ∀ r ∈ s.mgr.lockTable res, r ∈ (mgr.pushBack res' req).lockTable res := by
    intro mgr req htable r hr
    rw [LockManager.lockTable_pushBack, htable]
    split
    case isTrue heq => exact List.mem_append_left _ (heq ▸ hr)
    case isFalse => exact hr
  rcases s.perform_lock mode' txnId res' with ⟨-, hs⟩ | ⟨-, -, hs⟩ | ⟨-, -, hs⟩ | ⟨-, -, hs⟩ <;>
    rw [hs]
  · exact h
  · exact h.mono fun r hr _ _ => hpush s.mgr _ rfl r hr
  · refine h.mono fun r hr _ _ => ?_
    show r ∈ ((s.mgr.addEdges txnId _).stopWaiting txnId).lockTable res
    rwa [LockManager.lockTable_stopWaiting, LockManager.lockTable_addEdges]
  · exact h.mono fun r hr _ _ => hpush _ _ LockManager.lockTable_addEdges r hr

/-- Nor does the wake-up of a waiting call. -/
theorem Covers.wakeUp (h : s.Covers t res mode) (hwait : s.waiting txnId ≠ none) :
    (s.perform (.wakeUp txnId)).1.Covers t res mode := by
  obtain ⟨⟨mode', res'⟩, hwait⟩ := Option.ne_none_iff_exists'.mp hwait
  rcases perform_wakeUp hwait with hs | ⟨-, hs⟩ <;> rw [hs]
  · exact h
  · refine h.mono fun r hr _ hg => ?_
    simp only [LockManager.lockTable_stopWaiting, LockManager.lockTable_setRequests]
    split
    case isTrue heq => exact LockManager.mem_grantFirst_of_granted hg (heq ▸ hr)
    case isFalse => exact hr

/-- Only the transaction itself gives its locks back. -/
theorem Covers.unlockAll (h : s.Covers t res mode) (hne : t ≠ txnId) :
    (s.perform (.unlockAll txnId)).1.Covers t res mode :=
  h.mono fun _ hr htxn _ => List.mem_filter.mpr ⟨hr, decide_eq_true (htxn ▸ hne)⟩

/-- Two accesses of a resource that locks allow at one time: of one transaction, or both reads. -/
theorem Compatible.covers (h : Compatible s) {mode' : LockMode} (hcov : s.Covers t res mode)
    (hcov' : s.Covers txnId res mode') (hx : mode = .exclusive ∨ mode' = .exclusive) :
    t = txnId := by
  obtain ⟨r, hr, htxn, hg, hrx⟩ := hcov
  obtain ⟨r', hr', htxn', hg', hrx'⟩ := hcov'
  rw [← htxn, ← htxn']
  rcases hx with hx | hx
  · exact (h.alone hr hr' hg hg' (hrx hx)).symm
  · exact h.alone hr' hr hg' hg (hrx' hx)

end Locks

/-! ## Data -/

/-- A read or a write of a resource: from what the transaction knows and the resource holds to what
both are after it. A read leaves the resource as it is. -/
structure Operation (V L : Type) where
  txnId : Int32
  res : ResourceId
  mode : LockMode
  effect : L → V → V × L

/-- What the resources hold, and what every transaction knows. -/
structure Shared (V L : Type) where
  store : ResourceId → V
  known : Int32 → L

variable {V L : Type}

namespace Shared

/-- An access made. -/
def access (d : Shared V L) (a : Operation V L) : Shared V L where
  store := match a.mode with
    | .shared => d.store
    | .exclusive =>
      Function.update d.store a.res (a.effect (d.known a.txnId) (d.store a.res)).1
  known := Function.update d.known a.txnId (a.effect (d.known a.txnId) (d.store a.res)).2

end Shared

/-- Two accesses of a resource by different transactions, one of them a write. -/
def Operation.Conflicts (a b : Operation V L) : Prop :=
  a.txnId ≠ b.txnId ∧ a.res = b.res ∧ (a.mode = .exclusive ∨ b.mode = .exclusive)

/-- Accesses of different transactions that do not conflict commute. -/
theorem Operation.commute {a b : Operation V L} (hne : a.txnId ≠ b.txnId) (h : ¬ a.Conflicts b) :
    Reorder.Commute Shared.access a b := by
  rintro ⟨store, known⟩
  have hread : ∀ {a b : Operation V L} {v : V}, ¬ a.Conflicts b → a.txnId ≠ b.txnId →
      a.mode = .exclusive → Function.update store a.res v b.res = store b.res := by
    intro a b v h hne hx
    exact Function.update_of_ne (fun he => h ⟨hne, he.symm, Or.inl hx⟩) v store
  have h' : ¬ b.Conflicts a := fun ⟨hne, hres, hx⟩ => h ⟨hne.symm, hres.symm, hx.symm⟩
  have hknown : ∀ l, Function.update known a.txnId l b.txnId = known b.txnId :=
    fun l => Function.update_of_ne hne.symm l known
  have hknown' : ∀ l, Function.update known b.txnId l a.txnId = known a.txnId :=
    fun l => Function.update_of_ne hne l known
  cases ha : a.mode with
  | shared =>
    cases hb : b.mode with
    | shared =>
      simp only [Shared.access, ha, hb, hknown, hknown', Function.update_comm hne]
    | exclusive =>
      simp only [Shared.access, ha, hb, hknown, hknown', Function.update_comm hne,
        hread h' hne.symm hb]
  | exclusive =>
    cases hb : b.mode with
    | shared =>
      simp only [Shared.access, ha, hb, hknown, hknown', Function.update_comm hne, hread h hne ha]
    | exclusive =>
      have hres : a.res ≠ b.res := fun he => h ⟨hne, he, Or.inl ha⟩
      simp only [Shared.access, ha, hb, hknown, hknown', Function.update_comm hne,
        Function.update_comm hres, hread h hne ha, hread h' hne.symm hb]

/-! ## Transactions at work -/

/-- The steps of the transactions. -/
inductive TxnAction (V L : Type)
  | begin
  | lock (mode : LockMode) (txnId : Int32) (res : ResourceId)
  | wakeUp (txnId : Int32)
  | access (a : Operation V L)
  | commit (txnId : Int32)
  | abort (txnId : Int32)

/-- The transaction manager, the lock manager it releases locks with, and the data. -/
structure Concurrent (V L : Type) where
  txnMgr : TransactionManager
  locks : Locks
  data : Shared V L

namespace Concurrent

/-- No transaction has begun. -/
def new (data : Shared V L) : Concurrent V L := ⟨.new, .new, data⟩

/-- The end of a transaction that the transaction manager has: its state, and all its locks given
back. -/
def finish (c : Concurrent V L) (txnId : Int32)
    (setState : TransactionManager → Int32 → TransactionManager) : Concurrent V L :=
  match c.txnMgr.getTransaction txnId with
  | none => c
  | some _ => { c with
      txnMgr := setState c.txnMgr txnId, locks := (c.locks.perform (.unlockAll txnId)).1 }

/-- One step, and what it returns if it is a lock call or the wake-up of one. -/
def perform (c : Concurrent V L) : TxnAction V L → Concurrent V L × Option Bool
  | .begin => ({ c with txnMgr := c.txnMgr.begin.1 }, none)
  | .lock mode txnId res =>
    ({ c with locks := (c.locks.perform (.lock mode txnId res)).1 },
      (c.locks.perform (.lock mode txnId res)).2)
  | .wakeUp txnId =>
    ({ c with locks := (c.locks.perform (.wakeUp txnId)).1 }, (c.locks.perform (.wakeUp txnId)).2)
  | .access a => ({ c with data := c.data.access a }, none)
  | .commit txnId => (c.finish txnId .commit, none)
  | .abort txnId => (c.finish txnId .abort, none)

/-- Transactions that lock, and access what they have locked, between their beginning and their end,
with one call at a time. -/
def Enabled (c : Concurrent V L) : TxnAction V L → Prop
  | .begin => True
  | .lock _ txnId _ =>
    c.txnMgr.getTransaction txnId = some .active ∧ c.locks.waiting txnId = none
  | .wakeUp txnId => c.locks.waiting txnId ≠ none
  | .access a =>
    c.txnMgr.getTransaction a.txnId = some .active ∧ c.locks.Covers a.txnId a.res a.mode
  | .commit txnId => c.locks.waiting txnId = none
  | .abort txnId => c.locks.waiting txnId = none

instance (c : Concurrent V L) : ∀ action, Decidable (c.Enabled action)
  | .begin => .isTrue trivial
  | .lock .. | .access _ => inferInstanceAs (Decidable (_ ∧ _))
  | .wakeUp _ => inferInstanceAs (Decidable (_ ≠ _))
  | .commit _ | .abort _ => inferInstanceAs (Decidable (_ = _))

/-- The accesses among the steps. -/
def accesses (actions : List (TxnAction V L)) : List (Operation V L) :=
  actions.filterMap fun
    | .access a => some a
    | _ => none

theorem accesses_cons (action : TxnAction V L) (actions : List (TxnAction V L)) :
    accesses (action :: actions) = accesses [action] ++ accesses actions :=
  List.filterMap_append (l := [action])

/-- The transactions that have ended in the order of their ends, and behind them the others that have
made an access. -/
def serialOrder (c : Concurrent V L) (made : List (Operation V L)) : List Int32 :=
  c.locks.finished.dedup.reverse ++
    (made.map Operation.txnId).dedup.filter fun t => t ∉ c.locks.finished

/-! ## The order of conflicting accesses -/

/-- The accesses made so far: the locks they were made under are still there or their transaction has
ended, and of two that conflict the transaction of the first one has ended before the other. -/
structure Ordered (data : Shared V L) (c : Concurrent V L) (made : List (Operation V L)) : Prop where
  compatible : c.locks.Compatible
  ended : ∀ t ∈ c.locks.finished, ∃ state, c.txnMgr.getTransaction t = some state ∧
    state ≠ .active
  covered : ∀ a ∈ made, a.txnId ∈ c.locks.finished ∨ c.locks.Covers a.txnId a.res a.mode
  conflicts : made.Pairwise fun a b => a.Conflicts b →
    Reorder.Before c.locks.finished.reverse a.txnId b.txnId
  made : c.data = made.foldl Shared.access data

variable {data : Shared V L} {c : Concurrent V L} {made : List (Operation V L)}

theorem ordered_new (data : Shared V L) : Ordered data (new data) [] where
  compatible := Locks.compatible_new
  ended _ ht := absurd ht List.not_mem_nil
  covered _ ha := absurd ha List.not_mem_nil
  conflicts := .nil
  made := rfl

namespace Ordered

/-- A transaction that is active has not ended. -/
theorem not_finished (h : Ordered data c made) {t : Int32}
    (hactive : c.txnMgr.getTransaction t = some .active) : t ∉ c.locks.finished := by
  intro ht
  obtain ⟨state, hstate, hne⟩ := h.ended t ht
  exact hne (Option.some.inj (hstate.symm.trans hactive))

/-- A transaction whose access conflicts with an earlier one finds the other transaction ended. -/
theorem finished_of_conflicts (h : Ordered data c made) {a b : Operation V L} (ha : a ∈ made)
    (hb : c.Enabled (.access b)) (hconflicts : a.Conflicts b) : a.txnId ∈ c.locks.finished := by
  refine (h.covered a ha).resolve_right fun hcovers => hconflicts.1 ?_
  exact h.compatible.covers (hconflicts.2.1 ▸ hcovers) hb.2 hconflicts.2.2

/-- A step of the lock manager that ends no transaction. -/
theorem locks (h : Ordered data c made) {locks : Locks} (hcompatible : locks.Compatible)
    (hfinished : locks.finished = c.locks.finished)
    (hcovers : ∀ {t res mode}, c.locks.Covers t res mode → locks.Covers t res mode) :
    Ordered data { c with locks := locks } made where
  compatible := hcompatible
  ended t ht := h.ended t (hfinished ▸ ht)
  covered a ha := (h.covered a ha).imp (fun ht => hfinished ▸ ht) fun hcov => hcovers hcov
  conflicts := by
    show made.Pairwise fun a b => a.Conflicts b → Reorder.Before locks.finished.reverse _ _
    rw [hfinished]
    exact h.conflicts
  made := h.made

theorem begin (h : Ordered data c made) :
    Ordered data { c with txnMgr := c.txnMgr.begin.1 } made where
  compatible := h.compatible
  ended t ht := by
    obtain ⟨state, hstate, hne⟩ := h.ended t ht
    refine ⟨state, ?_, hne⟩
    unfold TransactionManager.getTransaction at hstate ⊢
    simp only [TransactionManager.begin]
    split
    case h_1 => exact hstate
    case h_2 hnone =>
      -- An id that is given out anew is not that of a transaction that has ended.
      have hid : t ≠ c.txnMgr.nextTxnId := fun he => by
        rw [he, hnone] at hstate
        cases hstate
      rw [Dict.find?_insert_of_ne _ _ hid, hstate]
  covered := h.covered
  conflicts := h.conflicts
  made := h.made

/-- An access of an active transaction under its lock. -/
theorem access (h : Ordered data c made) {b : Operation V L} (hb : c.Enabled (.access b)) :
    Ordered data { c with data := c.data.access b } (made ++ [b]) where
  compatible := h.compatible
  ended := h.ended
  covered a ha := by
    rcases List.mem_append.mp ha with ha | ha
    · exact h.covered a ha
    · rw [List.mem_singleton.mp ha]
      exact Or.inr hb.2
  conflicts := by
    refine List.pairwise_append.mpr ⟨h.conflicts, List.pairwise_singleton _ b, ?_⟩
    intro a ha b' hb' hconflicts
    obtain rfl := List.mem_singleton.mp hb'
    refine ⟨_, List.prefix_refl _, ?_, ?_⟩
    · exact List.mem_reverse.mpr (h.finished_of_conflicts ha hb hconflicts)
    · exact fun hmem => h.not_finished hb.1 (List.mem_reverse.mp hmem)
  made := by
    rw [List.foldl_append, ← h.made]
    rfl

/-- The end of a transaction none of whose calls waits. -/
theorem finish (h : Ordered data c made) {txnId : Int32} (hidle : c.locks.waiting txnId = none)
    {setState : TransactionManager → Int32 → TransactionManager} {state : TxnState}
    (hset : ∀ mgr t, setState mgr t = mgr.setState t state) (hstate : state ≠ .active) :
    Ordered data (c.finish txnId setState) made := by
  unfold Concurrent.finish
  cases hfind : c.txnMgr.getTransaction txnId with
  | none => exact h
  | some old =>
    refine ⟨h.compatible.perform (.unlockAll txnId) hidle, ?_, ?_, ?_, h.made⟩
    · intro t ht
      have hmgr : (setState c.txnMgr txnId).getTransaction t =
          if t = txnId then some state else c.txnMgr.getTransaction t := by
        unfold TransactionManager.getTransaction at hfind ⊢
        rw [hset, TransactionManager.setState, hfind]
        exact Dict.find?_insert ..
      show ∃ s, (setState c.txnMgr txnId).getTransaction t = some s ∧ s ≠ .active
      rw [hmgr]
      rcases List.mem_cons.mp ht with rfl | ht
      · exact ⟨state, if_pos rfl, hstate⟩
      · obtain ⟨s, hs, hne⟩ := h.ended t ht
        split
        case isTrue => exact ⟨state, rfl, hstate⟩
        case isFalse => exact ⟨s, hs, hne⟩
    · intro a ha
      show a.txnId ∈ txnId :: c.locks.finished ∨ _
      by_cases hself : a.txnId = txnId
      · exact Or.inl (hself ▸ List.mem_cons_self)
      · exact (h.covered a ha).imp (List.mem_cons_of_mem txnId) fun hcov => hcov.unlockAll hself
    · refine h.conflicts.imp fun hab hconflicts => (hab hconflicts).mono ?_
      show _ <+: (txnId :: c.locks.finished).reverse
      rw [List.reverse_cons]
      exact List.prefix_append _ _

/-- Every step keeps the order. -/
theorem perform (h : Ordered data c made) {action : TxnAction V L} (henabled : c.Enabled action) :
    Ordered data (c.perform action).1 (made ++ accesses [action]) := by
  cases action with
  | begin => exact (List.append_nil made).symm ▸ h.begin
  | lock mode txnId res =>
    refine (List.append_nil made).symm ▸ h.locks
      (h.compatible.perform (.lock mode txnId res) henabled.2) ?_ fun hcov => hcov.lock ..
    rcases c.locks.perform_lock mode txnId res with
      ⟨-, hs⟩ | ⟨-, -, hs⟩ | ⟨-, -, hs⟩ | ⟨-, -, hs⟩ <;> rw [hs]
  | wakeUp txnId =>
    refine (List.append_nil made).symm ▸ h.locks
      (h.compatible.perform (.wakeUp txnId) henabled) ?_ fun hcov => hcov.wakeUp henabled
    obtain ⟨⟨mode, res⟩, hwait⟩ := Option.ne_none_iff_exists'.mp henabled
    rcases Locks.perform_wakeUp hwait with hs | ⟨-, hs⟩ <;> rw [hs]
  | access a => exact h.access henabled
  | commit txnId =>
    exact (List.append_nil made).symm ▸ h.finish henabled (fun _ _ => rfl) (by decide)
  | abort txnId =>
    exact (List.append_nil made).symm ▸ h.finish henabled (fun _ _ => rfl) (by decide)

theorem run {actions : List (TxnAction V L)} (h : Ordered data c made)
    (hactions : Machine.Along Enabled Concurrent.perform c actions) :
    Ordered data (Machine.specRun Concurrent.perform c actions).1 (made ++ accesses actions) := by
  induction actions generalizing c made with
  | nil => exact (List.append_nil made).symm ▸ h
  | cons action actions ih =>
    have hstep := ih (h.perform hactions.head) hactions.tail
    rwa [List.append_assoc, ← accesses_cons] at hstep

/-- The accesses in the serial order do the same. -/
theorem serial (h : Ordered data c made) :
    c.data = (Reorder.byOwner Operation.txnId (c.serialOrder made) made).foldl Shared.access data := by
  have hnodup : (c.serialOrder made).Nodup := by
    refine List.Nodup.append (List.nodup_reverse.mpr (List.nodup_dedup _))
      ((List.nodup_dedup _).filter _) ?_
    intro t ht ht'
    have hnot := of_decide_eq_true (List.mem_filter.mp ht').2
    exact hnot (List.mem_dedup.mp (List.mem_reverse.mp ht))
  have hcover : ∀ a ∈ made, a.txnId ∈ c.serialOrder made := by
    intro a ha
    by_cases hfinished : a.txnId ∈ c.locks.finished
    · exact List.mem_append_left _ (List.mem_reverse.mpr (List.mem_dedup.mpr hfinished))
    · refine List.mem_append_right _ (List.mem_filter.mpr ⟨?_, decide_eq_true hfinished⟩)
      exact List.mem_dedup.mpr (List.mem_map_of_mem ha)
  -- Who has ended before another comes before it in the serial order.
  have hbefore : ∀ {t t'}, Reorder.Before c.locks.finished.reverse t t' →
      Reorder.Before (c.serialOrder made) t t' := by
    rintro t t' ⟨early, hearly, ht, ht'⟩
    obtain ⟨late, hlate⟩ := List.reverse_prefix.mp ((List.reverse_reverse early).symm ▸ hearly)
    refine ⟨early.reverse.dedup.reverse, ?_, ?_, ?_⟩
    · refine List.IsPrefix.trans (List.reverse_prefix.mpr ?_) (List.prefix_append _ _)
      rw [← hlate, List.dedup_append]
      exact List.suffix_union_right _ _
    · simpa using ht
    · simpa using ht'
  rw [h.made]
  refine Reorder.foldl_byOwner hcover hnodup (h.conflicts.imp fun {a b} hab hlater => ?_) data
  by_cases hself : a.txnId = b.txnId
  · rw [hself] at hlater
    exact absurd hlater hlater.asymm
  · exact Operation.commute hself fun hconflicts => hlater.asymm (hbefore (hab hconflicts))

end Ordered

/-- In every interleaving of transactions that access what they have locked, the data are those of
the transactions run one after another in the order in which they committed or aborted, those that
have not ended last; and an access that conflicts with an earlier one of another transaction comes
only after that transaction has ended. -/
theorem serializable (data : Shared V L) (actions : List (TxnAction V L))
    (hactions : Machine.Along Enabled Concurrent.perform (new data) actions) :
    let c := (Machine.specRun Concurrent.perform (new data) actions).1
    c.data = (Reorder.byOwner Operation.txnId (c.serialOrder (accesses actions))
      (accesses actions)).foldl Shared.access data ∧
    ∀ a ∈ accesses actions, ∀ b, c.Enabled (.access b) → a.Conflicts b →
      ∃ state, c.txnMgr.getTransaction a.txnId = some state ∧ state ≠ .active := by
  have h : Ordered data _ (accesses actions) := (ordered_new data).run hactions
  exact ⟨h.serial, fun a ha b hb hconflicts =>
    h.ended a.txnId (h.finished_of_conflicts ha hb hconflicts)⟩

/-- Transaction 2 reads the second page between two writes of the first page by transaction 1, waits
for that page, and adds to it what it has read. -/
def readBetweenWrites : List (TxnAction ℕ ℕ) :=
  let double (txnId : Int32) : TxnAction ℕ ℕ :=
    .access ⟨txnId, Locks.samplePage 0, .exclusive, fun known v => (2 * v + known, known)⟩
  [.begin, .begin, .lock .exclusive 1 (Locks.samplePage 0), double 1,
    .lock .shared 2 (Locks.samplePage 1),
    .access ⟨2, Locks.samplePage 1, .shared, fun _ v => (v, v)⟩,
    .lock .exclusive 2 (Locks.samplePage 0), double 1, .commit 1, .wakeUp 2, double 2, .commit 2]

theorem serializable_readBetweenWrites :
    let data : Shared ℕ ℕ := ⟨fun res => res.pageId + 1, fun _ => 0⟩
    (Machine.specRun Concurrent.perform (new data) readBetweenWrites).1.data =
      (Reorder.byOwner Operation.txnId [1, 2] (accesses readBetweenWrites)).foldl Shared.access
        data := by
  intro data
  have horder : (Machine.specRun Concurrent.perform (new data) readBetweenWrites).1.serialOrder
      (accesses readBetweenWrites) = [1, 2] := by decide +kernel
  have h := (serializable data readBetweenWrites (by decide +kernel)).1
  simp only [horder] at h
  exact h

end Concurrent

end MiniDB
