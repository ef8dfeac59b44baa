import MiniDB.Transaction.Locking

/-!
# Deadlocks

Locks are given back only when a transaction finishes. An edge of the wait-for graph then leads from
a waiting transaction to one that has a lock on the resource or has finished; a transaction that has
finished waits for nothing, so it is on no cycle, and a cycle of the graph is a cycle of waiting
transactions. The graph has the edges of the moment a call began to wait. A lock granted later to
somebody else gives no edge, so a deadlock can be missed.

## Main definitions

* `Locks.Strict`: locks are given back at the end, and a finished transaction asks for nothing
* `LockManager.WaitsAt`, `LockManager.BlockedBy`: who waits where who has a lock, by the lock table
* `Locks.Sound`, `Locks.Complete`: the edges of the graph stand for that, and all of it has edges
* `Locks.GrantsInView`: a lock is granted only where those who then wait for it have the edge

## Main results

* `LockManager.hasDeadlock_exact`: the search is exact, whatever the order of its steps
* `Locks.false_only_on_cycle`: a lock call returns `false` only when it would close a cycle
* `Locks.no_deadlock`: with grants in view there is never a deadlock
* `Locks.deadlock_missed`: without, there may be one
-/

namespace MiniDB

open Relation

namespace LockManager

/-- A transaction with a pending request where another has a lock. -/
def WaitsAt (mgr : LockManager) (a b : Int32) : Prop :=
  ∃ res, (∃ p ∈ mgr.lockTable res, p.txnId = a ∧ p.granted = false) ∧
    ∃ r ∈ mgr.lockTable res, r.txnId = b ∧ r.granted = true

/-- A transaction with a pending request where another has a lock that conflicts with it. -/
def BlockedBy (mgr : LockManager) (a b : Int32) : Prop :=
  ∃ res, ∃ p ∈ mgr.lockTable res, p.txnId = a ∧ p.granted = false ∧
    ∃ r ∈ mgr.lockTable res, r.txnId = b ∧ blocks a p.mode r = true

variable {mgr : LockManager} {txnId : Int32} {mode : LockMode} {req : LockRequest}

theorem granted_of_blocks (h : blocks txnId mode req = true) : req.granted = true := by
  cases mode with
  | shared => exact (of_decide_eq_true h).2.2
  | exclusive => exact (of_decide_eq_true h).2

theorem ne_of_blocks (h : blocks txnId mode req = true) : req.txnId ≠ txnId := by
  cases mode with
  | shared => exact (of_decide_eq_true h).1
  | exclusive => exact (of_decide_eq_true h).1

/-- Only transactions with an entry in the wait-for graph wait for others. -/
theorem mem_entries_of_waitsFor {id : Int32} (h : mgr.waitsFor id ≠ []) :
    id ∈ mgr.waitForGraph.entries.map Prod.fst := by
  cases hfind : mgr.waitForGraph.find? id with
  | none => exact absurd (by rw [waitsFor, hfind]; rfl) h
  | some l => exact Dict.mem_keys_of_find? hfind

/-- The search of the wait-for graph. -/
theorem hasDeadlock_iff : mgr.hasDeadlock txnId = true ↔
    ∃ c, ReflTransGen (CycleSearch.Edge mgr.waitsFor) txnId c ∧
      TransGen (CycleSearch.Edge mgr.waitsFor) c c := by
  have hfound : mgr.hasDeadlock txnId =
      CycleSearch.found mgr.waitsFor (mgr.waitForGraph.entries.map Prod.fst) txnId := by
    unfold hasDeadlock CycleSearch.found detectCycle
    cases CycleSearch.visit mgr.waitsFor
      ((List.map Prod.fst mgr.waitForGraph.entries).length + 1) txnId ⟨[], []⟩ <;> rfl
  rw [hfound]
  exact CycleSearch.found_iff fun _ => mem_entries_of_waitsFor

/-- `LockManager::detectCycle` when the set of every transaction is iterated in the order of the list
`order` has for it. A transaction is visited once, so its set is iterated once. -/
def detectCycleIn (order : Int32 → List Int32) (fuel : ℕ) (txnId : Int32)
    (seen : CycleSearch.Trail Int32) : Option (Bool × CycleSearch.Trail Int32) :=
  CycleSearch.visit order fuel txnId seen

/-- The search ends in every wait-for graph, from every transaction and for every order in which the
sets are iterated, and what it returns says whether a cycle can be reached along the edges. -/
theorem hasDeadlock_exact (mgr : LockManager) (txnId : Int32) {order : Int32 → List Int32}
    (horder : ∀ id, (order id).Perm (mgr.waitsFor id)) :
    (∀ fuel, mgr.waitForGraph.entries.length < fuel → ∃ seen,
      detectCycleIn order fuel txnId ⟨[], []⟩ = some (mgr.hasDeadlock txnId, seen)) ∧
    (mgr.hasDeadlock txnId = true ↔ ∃ c, ReflTransGen (CycleSearch.Edge mgr.waitsFor) txnId c ∧
      TransGen (CycleSearch.Edge mgr.waitsFor) c c) := by
  refine ⟨fun fuel hfuel => ?_, hasDeadlock_iff⟩
  have hedge : CycleSearch.Edge order = CycleSearch.Edge mgr.waitsFor := by
    funext a b
    exact propext (horder a).mem_iff
  -- Only transactions with an entry have neighbours, so the entries bound the search.
  have hnodes : ∀ id, order id ≠ [] → id ∈ mgr.waitForGraph.entries.map Prod.fst := by
    intro id hid
    refine mem_entries_of_waitsFor fun hnil => hid ?_
    have hperm := horder id
    rw [hnil] at hperm
    exact hperm.eq_nil
  obtain ⟨b, seen, hvisit, hb⟩ :=
    CycleSearch.visit_spec hnodes (by rwa [List.length_map]) txnId
  rw [hedge, ← hasDeadlock_iff, Bool.coe_iff_coe] at hb
  exact ⟨seen, hb ▸ hvisit⟩

/-- Transaction 1 waits for 2 and for 3, which waits for itself. -/
def sampleGraph : LockManager :=
  ⟨fun _ => [], (Dict.empty.insert 1 [2, 3]).insert 3 [3]⟩

/-- The cycle is found from 1 with the sets iterated backwards. -/
theorem hasDeadlock_exact_backwards :
    (∃ seen, detectCycleIn (fun id => (sampleGraph.waitsFor id).reverse) 3 1 ⟨[], []⟩ =
      some (true, seen)) ∧
    ∃ c, ReflTransGen (CycleSearch.Edge sampleGraph.waitsFor) 1 c ∧
      TransGen (CycleSearch.Edge sampleGraph.waitsFor) c c := by
  obtain ⟨hends, hiff⟩ :=
    hasDeadlock_exact sampleGraph 1 fun id => List.reverse_perm (sampleGraph.waitsFor id)
  have hfound : sampleGraph.hasDeadlock 1 = true := by decide
  rw [hfound] at hends
  exact ⟨hends 3 (by decide), hiff.mp hfound⟩

end LockManager

namespace Locks

/-- Locks are given back by `unlockAll` only, and a transaction that has done so asks for no
more. -/
def Strict (s : Locks) : LockCall → Prop
  | .lock mode txnId res => s.Enabled (.lock mode txnId res) ∧ txnId ∉ s.finished
  | .unlock _ _ => False
  | call => s.Enabled call

instance (s : Locks) : ∀ call, Decidable (s.Strict call)
  | .lock mode txnId res =>
    inferInstanceAs (Decidable (s.Enabled (.lock mode txnId res) ∧ txnId ∉ s.finished))
  | .wakeUp txnId => inferInstanceAs (Decidable (s.Enabled (.wakeUp txnId)))
  | .unlock _ _ => inferInstanceAs (Decidable False)
  | .unlockAll txnId => inferInstanceAs (Decidable (s.Enabled (.unlockAll txnId)))

theorem Strict.enabled {s : Locks} {call : LockCall} (h : s.Strict call) : s.Enabled call := by
  cases call with
  | lock mode txnId res => exact h.1
  | wakeUp txnId => exact h
  | unlock txnId res => exact h.elim
  | unlockAll txnId => exact h

/-- The wait-for graph against the lock table: an edge is that of a waiting call to a transaction
that has a lock where the call waits, or has finished; and there is no cycle. -/
structure Sound (s : Locks) : Prop where
  compatible : Compatible s
  edge : ∀ {a b}, b ∈ s.mgr.waitsFor a → ∃ mode res, s.waiting a = some (mode, res) ∧
    (b ∈ s.finished ∨ ∃ r ∈ s.mgr.lockTable res, r.txnId = b ∧ r.granted = true)
  gone : ∀ {t}, t ∈ s.finished → s.waiting t = none ∧ ∀ res, ∀ r ∈ s.mgr.lockTable res, r.txnId ≠ t
  acyclic : ∀ c, ¬ TransGen (CycleSearch.Edge s.mgr.waitsFor) c c

variable {s : Locks} {mode : LockMode} {t txnId : Int32} {res : ResourceId}

theorem sound_new : Sound new where
  compatible := compatible_new
  edge h := by cases h
  gone h := by cases h
  acyclic c h := by
    obtain ⟨b, hedge, -⟩ := TransGen.head'_iff.mp h
    cases hedge

namespace Sound

/-- A transaction that does not wait has no edges. -/
theorem no_edges (h : Sound s) (hidle : s.waiting t = none) : s.mgr.waitsFor t = [] := by
  refine List.eq_nil_iff_forall_not_mem.mpr fun b hb => ?_
  obtain ⟨mode, res, hwait, -⟩ := h.edge hb
  rw [hidle] at hwait
  cases hwait

/-- The edges a lock call adds. -/
theorem edges_added (h : Sound s) (hidle : s.waiting txnId = none) {a b : Int32} :
    b ∈ (s.mgr.addEdges txnId (s.mgr.lockTable res)).waitsFor a ↔
      if a = txnId then b ≠ txnId ∧ ∃ r ∈ s.mgr.lockTable res, r.txnId = b ∧ r.granted = true
      else b ∈ s.mgr.waitsFor a := by
  rw [LockManager.mem_waitsFor_addEdges]
  split
  case isTrue ha => simp [ha, h.no_edges hidle]
  case isFalse ha => simp [ha]

/-- A cycle that a lock call would close goes through the transaction that calls. -/
theorem cycle_added (h : Sound s) (hidle : s.waiting txnId = none) {c : Int32}
    (hcycle : TransGen
      (CycleSearch.Edge (s.mgr.addEdges txnId (s.mgr.lockTable res)).waitsFor) c c) :
    ∃ b, b ≠ txnId ∧ (∃ r ∈ s.mgr.lockTable res, r.txnId = b ∧ r.granted = true) ∧
      TransGen (CycleSearch.Edge s.mgr.waitsFor) b txnId := by
  have hsame : ∀ {a b}, a ≠ txnId →
      CycleSearch.Edge (s.mgr.addEdges txnId (s.mgr.lockTable res)).waitsFor a b →
      CycleSearch.Edge s.mgr.waitsFor a b := by
    intro a b ha hedge
    have hcases := (h.edges_added hidle).mp hedge
    rwa [if_neg ha] at hcases
  -- Without the new edges there was no cycle, so one of them is on it.
  obtain ⟨b, hedge, hback⟩ := CycleSearch.through_of_acyclic h.acyclic hsame hcycle
  have hcases := (h.edges_added hidle).mp hedge
  rw [if_pos rfl] at hcases
  obtain ⟨hne, hheld⟩ := hcases
  refine ⟨b, hne, hheld, ?_⟩
  exact (reflTransGen_iff_eq_or_transGen.mp hback).resolve_left (Ne.symm hne)

/-- A step that keeps the edges, the calls that wait and the locks. -/
theorem mono (h : Sound s) {s' : Locks} (hcompatible : Compatible s')
    (hedges : ∀ {a b}, b ∈ s'.mgr.waitsFor a → b ∈ s.mgr.waitsFor a ∧ s'.waiting a = s.waiting a)
    (hlocks : ∀ {res r}, r ∈ s.mgr.lockTable res → r.granted = true →
      r.txnId ∈ s'.finished ∨ r ∈ s'.mgr.lockTable res)
    (hfinished : ∀ {t}, t ∈ s.finished → t ∈ s'.finished)
    (hgone : ∀ {t}, t ∈ s'.finished →
      s'.waiting t = none ∧ ∀ res, ∀ r ∈ s'.mgr.lockTable res, r.txnId ≠ t) : Sound s' where
  compatible := hcompatible
  edge := by
    intro a b hb
    obtain ⟨hold, hsame⟩ := hedges hb
    obtain ⟨mode, res, hwait, hlock⟩ := h.edge hold
    refine ⟨mode, res, hsame.trans hwait, ?_⟩
    rcases hlock with hdone | ⟨r, hr, rfl, hg⟩
    · exact Or.inl (hfinished hdone)
    · exact (hlocks hr hg).imp_right fun hr' => ⟨r, hr', rfl, hg⟩
  gone := hgone
  acyclic c hc := h.acyclic c (hc.lift id fun _ _ hedge => (hedges hedge).1)

/-- A call that waits: its edges close no cycle. -/
theorem block (h : Sound s) (hidle : s.waiting txnId = none) (hactive : txnId ∉ s.finished)
    (hdead : (s.mgr.addEdges txnId (s.mgr.lockTable res)).hasDeadlock txnId = false)
    (hcompatible : Compatible { s with
      mgr := (s.mgr.addEdges txnId (s.mgr.lockTable res)).pushBack res ⟨txnId, mode, false⟩
      waiting := Function.update s.waiting txnId (some (mode, res)) }) :
    Sound { s with
      mgr := (s.mgr.addEdges txnId (s.mgr.lockTable res)).pushBack res ⟨txnId, mode, false⟩
      waiting := Function.update s.waiting txnId (some (mode, res)) } where
  compatible := hcompatible
  edge := by
    intro a b hb
    have hkept : ∀ {res' r}, r ∈ s.mgr.lockTable res' → r ∈ ((s.mgr.addEdges txnId
        (s.mgr.lockTable res)).pushBack res ⟨txnId, mode, false⟩).lockTable res' := by
      intro res' r hr
      rw [LockManager.lockTable_pushBack, LockManager.lockTable_addEdges]
      split
      case isTrue heq => exact List.mem_append_left _ (heq ▸ hr)
      case isFalse => exact hr
    have hcases := (h.edges_added hidle).mp hb
    simp only [Function.update_apply]
    split at hcases
    case isTrue ha =>
      obtain ⟨-, r, hr, htxn, hg⟩ := hcases
      exact ⟨mode, res, if_pos ha, Or.inr ⟨r, hkept hr, htxn, hg⟩⟩
    case isFalse ha =>
      obtain ⟨mode', res', hwait, hlock⟩ := h.edge hcases
      refine ⟨mode', res', (if_neg ha).trans hwait, hlock.imp_right ?_⟩
      rintro ⟨r, hr, htxn, hg⟩
      exact ⟨r, hkept hr, htxn, hg⟩
  gone := by
    intro t ht
    obtain ⟨hidle', hnone⟩ := h.gone ht
    have hne : t ≠ txnId := fun heq => hactive (heq ▸ ht)
    refine ⟨(Function.update_of_ne hne ..).trans hidle', fun res' r hr => ?_⟩
    simp only [LockManager.lockTable_pushBack, LockManager.lockTable_addEdges] at hr
    split at hr
    case isTrue =>
      rcases List.mem_append.mp hr with hr | hr
      · exact hnone _ r hr
      · rw [List.mem_singleton.mp hr]; exact Ne.symm hne
    case isFalse => exact hnone _ r hr
  acyclic := by
    intro c hc
    obtain ⟨b, hne, hheld, hback⟩ := h.cycle_added hidle hc
    -- The cycle goes through the transaction, so the search finds it.
    have hsub : ∀ {x y}, CycleSearch.Edge s.mgr.waitsFor x y →
        CycleSearch.Edge (s.mgr.addEdges txnId (s.mgr.lockTable res)).waitsFor x y :=
      fun hedge => LockManager.mem_waitsFor_addEdges.mpr (Or.inl hedge)
    have hfirst : CycleSearch.Edge (s.mgr.addEdges txnId (s.mgr.lockTable res)).waitsFor txnId b :=
      (h.edges_added hidle).mpr (by rw [if_pos rfl]; exact ⟨hne, hheld⟩)
    have hcycle := TransGen.head hfirst (hback.lift id fun _ _ => hsub)
    have hfound := LockManager.hasDeadlock_iff.mpr ⟨txnId, .refl, hcycle⟩
    rw [hdead] at hfound
    cases hfound

/-- Every step keeps the wait-for graph sound. -/
theorem perform (h : Sound s) (call : LockCall) (hstrict : s.Strict call) :
    Sound (s.perform call).1 := by
  have hcompatible := h.compatible.perform call hstrict.enabled
  cases call with
  | lock mode txnId res =>
    obtain ⟨hidle, hactive⟩ := hstrict
    -- The lock is held already, or granted at once, or refused, or the caller waits.
    rcases s.perform_lock mode txnId res with
      ⟨-, hs⟩ | ⟨-, hfree, hs⟩ | ⟨-, -, hs⟩ | ⟨-, hdead, hs⟩ <;> rw [hs] at hcompatible ⊢
    · exact h
    · refine h.mono hcompatible (fun hb => ⟨hb, rfl⟩) (fun {res' r} hr _ => Or.inr ?_) id
        fun {t} ht => ⟨(h.gone ht).1, fun res' r hr => ?_⟩
      · simp only [LockManager.lockTable_pushBack]
        split
        case isTrue heq => exact List.mem_append_left _ (heq ▸ hr)
        case isFalse => exact hr
      · simp only [LockManager.lockTable_pushBack] at hr
        split at hr
        case isTrue =>
          rcases List.mem_append.mp hr with hr | hr
          · exact (h.gone ht).2 _ r hr
          · rw [List.mem_singleton.mp hr]
            rintro rfl
            exact hactive ht
        case isFalse => exact (h.gone ht).2 _ r hr
    · refine h.mono hcompatible (fun {a b} hb => ⟨?_, rfl⟩)
        (fun {res' r} hr _ => Or.inr ?_) id
        fun {t} ht => ⟨(h.gone ht).1, fun res' r hr => (h.gone ht).2 res' r ?_⟩
      · -- A refused caller had no edges before, and loses those that the call has added.
        rw [LockManager.waitsFor_stopWaiting] at hb
        split at hb
        case isTrue => cases hb
        case isFalse ha =>
          have hcases := (h.edges_added hidle).mp hb
          rwa [if_neg ha] at hcases
      · rwa [LockManager.lockTable_stopWaiting, LockManager.lockTable_addEdges]
      · rwa [LockManager.lockTable_stopWaiting, LockManager.lockTable_addEdges] at hr
    · exact h.block hidle hactive hdead hcompatible
  | wakeUp txnId =>
    obtain ⟨⟨mode, res⟩, hwait⟩ := Option.ne_none_iff_exists'.mp hstrict
    rcases perform_wakeUp hwait with hs | ⟨-, hs⟩ <;> rw [hs] at hcompatible ⊢
    · exact h
    · refine h.mono hcompatible (fun {a b} hb => ?_) (fun {res' r} hr hg => Or.inr ?_) id
        fun {t} ht => ?_
      · rw [LockManager.waitsFor_stopWaiting] at hb
        split at hb
        case isTrue => cases hb
        case isFalse ha => exact ⟨hb, Function.update_of_ne ha ..⟩
      · simp only [LockManager.lockTable_stopWaiting, LockManager.lockTable_setRequests]
        split
        case isTrue heq => exact LockManager.mem_grantFirst_of_granted hg (heq ▸ hr)
        case isFalse => exact hr
      · have hne : t ≠ txnId := by
          rintro rfl
          rw [(h.gone ht).1] at hwait
          cases hwait
        refine ⟨(Function.update_of_ne hne ..).trans (h.gone ht).1, fun res' r hr => ?_⟩
        simp only [LockManager.lockTable_stopWaiting, LockManager.lockTable_setRequests] at hr
        split at hr
        case isTrue => exact LockManager.forall_mem_grantFirst ((h.gone ht).2 _) r hr
        case isFalse => exact (h.gone ht).2 _ r hr
  | unlock txnId res => exact hstrict.elim
  | unlockAll txnId =>
    refine h.mono hcompatible (fun {a b} hb => ?_) (fun {res r} hr _ => ?_)
      (List.mem_cons_of_mem _) fun {t} ht => ?_
    · change b ∈ (LockManager.stopWaiting _ txnId).waitsFor a at hb
      rw [LockManager.waitsFor_stopWaiting] at hb
      split at hb
      case isTrue => cases hb
      case isFalse => exact ⟨hb, rfl⟩
    · by_cases htxn : r.txnId = txnId
      · exact Or.inl (htxn ▸ List.mem_cons_self)
      · exact Or.inr (List.mem_filter.mpr ⟨hr, decide_eq_true htxn⟩)
    · rcases List.mem_cons.mp ht with rfl | ht
      · exact ⟨hstrict, fun res r hr => of_decide_eq_true (List.mem_filter.mp hr).2⟩
      · exact ⟨(h.gone ht).1, fun res r hr => (h.gone ht).2 res r (List.mem_filter.mp hr).1⟩

/-- A path of the graph to a transaction that has not finished is one of waiting transactions. -/
theorem path_waits (h : Sound s) (hactive : txnId ∉ s.finished) {a : Int32}
    (hpath : TransGen (CycleSearch.Edge s.mgr.waitsFor) a txnId) :
    TransGen s.mgr.WaitsAt a txnId := by
  have hreal : ∀ {a b}, CycleSearch.Edge s.mgr.waitsFor a b → b ∉ s.finished →
      s.mgr.WaitsAt a b := by
    intro a b hedge hb
    obtain ⟨mode, res, hwait, hlock⟩ := h.edge hedge
    exact ⟨res, ⟨_, h.compatible.pending_of_waiting hwait, rfl, rfl⟩, hlock.resolve_left hb⟩
  induction hpath using TransGen.head_induction_on with
  | single hedge => exact .single (hreal hedge hactive)
  | @head a b hedge hrest ih =>
    refine .head (hreal hedge fun hdone => ?_) ih
    obtain ⟨c, hnext, -⟩ := TransGen.head'_iff.mp hrest
    have hnone := h.no_edges (h.gone hdone).1
    rw [CycleSearch.Edge, hnone] at hnext
    cases hnext

end Sound

theorem sound_of_run {calls : List LockCall}
    (hcalls : Machine.Along Strict Locks.perform new calls) :
    Sound (Machine.specRun Locks.perform new calls).1 :=
  hcalls.invariant (fun _ call h hstrict => h.perform call hstrict) sound_new

/-- In every run a lock call returns `false` only when it would close a cycle: another transaction
has a lock that conflicts with it, and from that one a chain of transactions, each waiting where the
next has a lock, leads back to the caller. -/
theorem false_only_on_cycle (calls : List LockCall)
    (hcalls : Machine.Along Strict Locks.perform new calls) {mode : LockMode} {txnId : Int32}
    {res : ResourceId} (call : LockCall)
    (hstrict : (Machine.specRun Locks.perform new calls).1.Strict call)
    (hserves : (Machine.specRun Locks.perform new calls).1.Serves mode txnId res call)
    (hfalse : ((Machine.specRun Locks.perform new calls).1.perform call).2 = some false) :
    ∃ r ∈ (Machine.specRun Locks.perform new calls).1.mgr.lockTable res,
      LockManager.blocks txnId mode r = true ∧
      TransGen (Machine.specRun Locks.perform new calls).1.mgr.WaitsAt r.txnId txnId := by
  have h := sound_of_run hcalls
  generalize (Machine.specRun Locks.perform new calls).1 = s at *
  cases call with
  | lock mode' txnId' res' =>
    obtain ⟨rfl, rfl, rfl⟩ := hserves
    obtain ⟨hidle, hactive⟩ := hstrict
    rcases s.perform_lock mode' txnId' res' with
      ⟨-, hs⟩ | ⟨-, -, hs⟩ | ⟨⟨r, hr, hblocks⟩, hdead, hs⟩ | ⟨-, -, hs⟩ <;> rw [hs] at hfalse
    · cases hfalse
    · cases hfalse
    · obtain ⟨c, -, hcycle⟩ := LockManager.hasDeadlock_iff.mp hdead
      obtain ⟨b, hne, ⟨q, hq, rfl, hg⟩, hback⟩ := h.cycle_added hidle hcycle
      have hpath := h.path_waits hactive hback
      cases mode' with
      | exclusive => exact ⟨q, hq, decide_eq_true ⟨hne, hg⟩, hpath⟩
      | shared =>
        obtain ⟨-, hx, hgranted⟩ := of_decide_eq_true hblocks
        rw [h.compatible.alone hr hq hgranted hg hx] at hpath
        exact ⟨r, hr, hblocks, hpath⟩
    · cases hfalse
  | wakeUp txnId' =>
    obtain ⟨rfl, hwait⟩ := hserves
    rcases perform_wakeUp hwait with hs | ⟨-, hs⟩ <;> rw [hs] at hfalse <;> cases hfalse
  | unlock txnId' res' => exact hserves.elim
  | unlockAll txnId' => exact hserves.elim

/-- Two transactions that each ask for what the other has. -/
def crossing : List LockCall :=
  [.lock .exclusive 1 (samplePage 0), .lock .exclusive 2 (samplePage 1),
    .lock .shared 1 (samplePage 1)]

theorem false_only_on_cycle_crossing :
    ∃ r ∈ (Machine.specRun Locks.perform new crossing).1.mgr.lockTable (samplePage 0),
      LockManager.blocks 2 .shared r = true ∧
      TransGen (Machine.specRun Locks.perform new crossing).1.mgr.WaitsAt r.txnId 2 :=
  false_only_on_cycle crossing (by decide) (.lock .shared 2 (samplePage 0)) (by decide)
    ⟨rfl, rfl, rfl⟩ (by decide)

/-! ## Deadlocks that are missed -/

/-- Who is blocked by a lock has the edge. -/
def Complete (s : Locks) : Prop := ∀ a b, s.mgr.BlockedBy a b → b ∈ s.mgr.waitsFor a

/-- Everybody who waits for a lock of the transaction on the resource has the edge to it. -/
def InView (s : Locks) (mode : LockMode) (txnId : Int32) (res : ResourceId) : Prop :=
  ∀ p ∈ s.mgr.lockTable res, p.granted = false →
    LockManager.blocks p.txnId p.mode ⟨txnId, mode, true⟩ = true → txnId ∈ s.mgr.waitsFor p.txnId

/-- A lock is granted, at once or after a wait, only where nobody waits for it without an edge. -/
def GrantsInView (s : Locks) : LockCall → Prop
  | .lock mode txnId res =>
    (∀ req ∈ s.mgr.lockTable res, ¬ LockManager.holds txnId mode req) →
    (∀ req ∈ s.mgr.lockTable res, ¬ LockManager.blocks txnId mode req) → s.InView mode txnId res
  | .wakeUp txnId => ∀ call ∈ s.waiting txnId,
    (∀ req ∈ s.mgr.lockTable call.2, ¬ LockManager.blocks txnId call.1 req) →
      s.InView call.1 txnId call.2
  | _ => True

instance (s : Locks) (mode : LockMode) (txnId : Int32) (res : ResourceId) :
    Decidable (s.InView mode txnId res) :=
  inferInstanceAs (Decidable (∀ p ∈ s.mgr.lockTable res, p.granted = false →
    LockManager.blocks p.txnId p.mode ⟨txnId, mode, true⟩ = true →
      txnId ∈ s.mgr.waitsFor p.txnId))

instance (s : Locks) : ∀ call, Decidable (s.GrantsInView call)
  | .lock mode txnId res => inferInstanceAs (Decidable
    ((∀ req ∈ s.mgr.lockTable res, ¬ LockManager.holds txnId mode req) →
      (∀ req ∈ s.mgr.lockTable res, ¬ LockManager.blocks txnId mode req) →
      s.InView mode txnId res))
  | .wakeUp txnId => inferInstanceAs (Decidable (∀ call ∈ s.waiting txnId,
    (∀ req ∈ s.mgr.lockTable call.2, ¬ LockManager.blocks txnId call.1 req) →
      s.InView call.1 txnId call.2))
  | .unlock _ _ => inferInstanceAs (Decidable True)
  | .unlockAll _ => inferInstanceAs (Decidable True)

theorem complete_new : Complete new := by
  rintro a b ⟨res, p, hp, -⟩
  cases hp

/-- A granted request put behind the others or a pending one granted, with all that wait in view. -/
theorem Complete.granted (hc : Complete s) (hview : s.InView mode txnId res) {s' : Locks}
    (hpending : ∀ {res' p}, p ∈ s'.mgr.lockTable res' → p.granted = false →
      p ∈ s.mgr.lockTable res' ∧ s'.mgr.waitsFor p.txnId = s.mgr.waitsFor p.txnId)
    (hlocks : ∀ {res' r}, r ∈ s'.mgr.lockTable res' → r.granted = true →
      r ∈ s.mgr.lockTable res' ∨ res' = res ∧ r = ⟨txnId, mode, true⟩) : Complete s' := by
  rintro a b ⟨res', p, hp, rfl, hpend, r, hr, rfl, hblocks⟩
  obtain ⟨hp', hsame⟩ := hpending hp hpend
  rw [hsame]
  rcases hlocks hr (LockManager.granted_of_blocks hblocks) with hr' | ⟨rfl, rfl⟩
  · exact hc _ _ ⟨res', p, hp', rfl, hpend, r, hr', rfl, hblocks⟩
  · exact hview p hp' hpend hblocks

/-- A step after which there is no new lock. -/
theorem Complete.keep (hc : Complete s) {s' : Locks}
    (hpending : ∀ {res' p}, p ∈ s'.mgr.lockTable res' → p.granted = false →
      p ∈ s.mgr.lockTable res' ∧ s.mgr.waitsFor p.txnId ⊆ s'.mgr.waitsFor p.txnId)
    (hlocks : ∀ {res' r}, r ∈ s'.mgr.lockTable res' → r.granted = true →
      r ∈ s.mgr.lockTable res') : Complete s' := by
  rintro a b ⟨res', p, hp, rfl, hpend, r, hr, rfl, hblocks⟩
  obtain ⟨hp', hsub⟩ := hpending hp hpend
  have hr' := hlocks hr (LockManager.granted_of_blocks hblocks)
  exact hsub (hc _ _ ⟨res', p, hp', rfl, hpend, r, hr', rfl, hblocks⟩)

/-- A call that waits has the edges to all whose locks conflict with it. -/
theorem Complete.block (hc : Complete s) :
    Complete { s with
      mgr := (s.mgr.addEdges txnId (s.mgr.lockTable res)).pushBack res ⟨txnId, mode, false⟩
      waiting := Function.update s.waiting txnId (some (mode, res)) } := by
  rintro a b ⟨res', p, hp, rfl, hpend, r, hr, rfl, hblocks⟩
  have hgranted := LockManager.granted_of_blocks hblocks
  simp only [LockManager.lockTable_pushBack, LockManager.lockTable_addEdges] at hp hr
  refine LockManager.mem_waitsFor_addEdges.mpr ?_
  split at hr
  case isFalse hne =>
    rw [if_neg hne] at hp
    exact Or.inl (hc _ _ ⟨res', p, hp, rfl, hpend, r, hr, rfl, hblocks⟩)
  case isTrue heq =>
    subst heq
    rw [if_pos rfl] at hp
    have hr' : r ∈ s.mgr.lockTable res' := by
      rcases List.mem_append.mp hr with hr | hr
      · exact hr
      · rw [List.mem_singleton.mp hr] at hgranted; cases hgranted
    rcases List.mem_append.mp hp with hp | hp
    · exact Or.inl (hc _ _ ⟨res', p, hp, rfl, hpend, r, hr', rfl, hblocks⟩)
    · rw [List.mem_singleton.mp hp] at hblocks ⊢
      exact Or.inr ⟨rfl, LockManager.ne_of_blocks hblocks, r, hr', rfl, hgranted⟩

/-- With grants in view every step keeps the wait-for graph complete. -/
theorem Complete.perform (hc : Complete s) (h : Sound s) (call : LockCall)
    (hstrict : s.Strict call) (hview : s.GrantsInView call) : Complete (s.perform call).1 := by
  have hcompatible := h.compatible.perform call hstrict.enabled
  cases call with
  | lock mode txnId res =>
    have hidle : s.waiting txnId = none := hstrict.1
    rcases s.perform_lock mode txnId res with
      ⟨-, hs⟩ | ⟨hnot, hfree, hs⟩ | ⟨-, -, hs⟩ | ⟨-, -, hs⟩ <;> rw [hs] at hcompatible ⊢
    · exact hc
    · refine hc.granted (hview hnot hfree) (fun {res' p} hp hpend => ⟨?_, rfl⟩)
        fun {res' r} hr _ => ?_
      · simp only [LockManager.lockTable_pushBack] at hp
        split at hp
        case isTrue heq =>
          rcases List.mem_append.mp hp with hp | hp
          · exact heq ▸ hp
          · rw [List.mem_singleton.mp hp] at hpend; cases hpend
        case isFalse => exact hp
      · simp only [LockManager.lockTable_pushBack] at hr
        split at hr
        case isTrue heq =>
          rcases List.mem_append.mp hr with hr | hr
          · exact Or.inl (heq ▸ hr)
          · exact Or.inr ⟨heq, List.mem_singleton.mp hr⟩
        case isFalse => exact Or.inl hr
    · refine hc.keep (fun {res' p} hp hpend => ?_) fun hr _ => ?_
      · -- The caller has no pending request, so only edges nobody needs go.
        have hp' : p ∈ s.mgr.lockTable res' := by
          rwa [LockManager.lockTable_stopWaiting, LockManager.lockTable_addEdges] at hp
        have hne : p.txnId ≠ txnId := by
          rintro rfl
          rw [h.compatible.waiting_of_pending hp' hpend] at hidle
          cases hidle
        refine ⟨hp', fun b hb => ?_⟩
        rw [LockManager.waitsFor_stopWaiting, if_neg hne]
        exact LockManager.mem_waitsFor_addEdges.mpr (Or.inl hb)
      · rwa [LockManager.lockTable_stopWaiting, LockManager.lockTable_addEdges] at hr
    · exact hc.block
  | wakeUp txnId =>
    obtain ⟨⟨mode, res⟩, hwait⟩ := Option.ne_none_iff_exists'.mp hstrict
    rcases perform_wakeUp hwait with hs | ⟨hfree, hs⟩ <;> rw [hs] at hcompatible ⊢
    · exact hc
    · refine hc.granted (hview _ hwait hfree) (fun {res' p} hp hpend => ?_) fun {res' r} hr hg => ?_
      · have hne : p.txnId ≠ txnId := by
          intro heq
          have hnone := hcompatible.waiting_of_pending hp hpend
          simp [heq] at hnone
        simp only [LockManager.lockTable_stopWaiting, LockManager.lockTable_setRequests] at hp
        refine ⟨?_, (LockManager.waitsFor_stopWaiting _).trans (if_neg hne)⟩
        split at hp
        case isTrue heq => exact heq ▸ LockManager.mem_of_mem_grantFirst hp hpend
        case isFalse => exact hp
      · simp only [LockManager.lockTable_stopWaiting, LockManager.lockTable_setRequests] at hr
        split at hr
        case isTrue heq =>
          rcases (LockManager.mem_grantFirst_granted hg).mp hr with hr | ⟨p, hp, rfl⟩
          · exact Or.inl (heq ▸ hr)
          · rw [h.compatible.pendingOf_waiting hwait] at hp
            exact Or.inr ⟨heq, by rw [← Option.some.inj hp]⟩
        case isFalse => exact Or.inl hr
  | unlock txnId res => exact hstrict.elim
  | unlockAll txnId =>
    refine hc.keep (fun {res p} hp hpend => ?_) fun hr _ => (List.mem_filter.mp hr).1
    obtain ⟨hp', hne⟩ := List.mem_filter.mp hp
    refine ⟨hp', fun b hb => ?_⟩
    show b ∈ (LockManager.stopWaiting _ txnId).waitsFor p.txnId
    rw [LockManager.waitsFor_stopWaiting, if_neg (of_decide_eq_true hne)]
    exact hb

/-- With grants in view no run reaches a deadlock, and a lock call that would close one returns
`false`. -/
theorem no_deadlock (calls : List LockCall)
    (hcalls : Machine.Along (fun s call => s.Strict call ∧ s.GrantsInView call) Locks.perform new
      calls) :
    (∀ c, ¬ TransGen (Machine.specRun Locks.perform new calls).1.mgr.BlockedBy c c) ∧
    ∀ mode txnId res,
      (Machine.specRun Locks.perform new calls).1.Strict (.lock mode txnId res) →
      ∀ r ∈ (Machine.specRun Locks.perform new calls).1.mgr.lockTable res,
      LockManager.blocks txnId mode r = true →
      TransGen (Machine.specRun Locks.perform new calls).1.mgr.BlockedBy r.txnId txnId →
      ((Machine.specRun Locks.perform new calls).1.perform (.lock mode txnId res)).2 =
        some false := by
  have hinv : Sound (Machine.specRun Locks.perform new calls).1 ∧
      Complete (Machine.specRun Locks.perform new calls).1 := by
    refine hcalls.invariant (I := fun s => Sound s ∧ Complete s) ?_ ⟨sound_new, complete_new⟩
    intro s call h hadmissible
    exact ⟨h.1.perform call hadmissible.1, h.2.perform h.1 call hadmissible.1 hadmissible.2⟩
  obtain ⟨h, hc⟩ := hinv
  generalize (Machine.specRun Locks.perform new calls).1 = s at *
  refine ⟨fun c hcycle => h.acyclic c (hcycle.lift id fun _ _ hb => hc _ _ hb), ?_⟩
  rintro mode txnId res ⟨hidle, -⟩ r hr hblocks hpath
  have hgranted := LockManager.granted_of_blocks hblocks
  have hne := LockManager.ne_of_blocks hblocks
  rcases s.perform_lock mode txnId res with
    ⟨⟨q, hq, hheld⟩, -⟩ | ⟨-, hfree, -⟩ | ⟨-, -, hs⟩ | ⟨-, hdead, -⟩
  · cases mode with
    | shared =>
      obtain ⟨-, hx, -⟩ := of_decide_eq_true hblocks
      obtain ⟨htxn, hqg⟩ := of_decide_eq_true hheld
      exact absurd ((h.compatible.alone hr hq hgranted hqg hx).symm.trans htxn) hne
    | exclusive =>
      obtain ⟨htxn, hqg, hx⟩ := of_decide_eq_true hheld
      exact absurd ((h.compatible.alone hq hr hqg hgranted hx).trans htxn) hne
  · exact absurd hblocks (hfree r hr)
  · rw [hs]
  · -- With the new edge the path is a cycle, which the search would have found.
    have hfirst : CycleSearch.Edge (s.mgr.addEdges txnId (s.mgr.lockTable res)).waitsFor txnId
        r.txnId :=
      LockManager.mem_waitsFor_addEdges.mpr (Or.inr ⟨rfl, hne, r, hr, rfl, hgranted⟩)
    have hback : TransGen (CycleSearch.Edge
        (s.mgr.addEdges txnId (s.mgr.lockTable res)).waitsFor) r.txnId txnId :=
      hpath.lift id fun _ _ hb => LockManager.mem_waitsFor_addEdges.mpr (Or.inl (hc _ _ hb))
    have hfound := LockManager.hasDeadlock_iff.mpr ⟨txnId, .refl, TransGen.head hfirst hback⟩
    rw [hdead] at hfound
    cases hfound

theorem no_deadlock_crossing :
    ((Machine.specRun Locks.perform new crossing).1.perform (.lock .shared 2 (samplePage 0))).2 =
      some false := by
  have hwaits : (Machine.specRun Locks.perform new crossing).1.mgr.BlockedBy 1 2 :=
    ⟨samplePage 1, ⟨1, .shared, false⟩, by decide, rfl, rfl, ⟨2, .exclusive, true⟩, by decide, rfl,
      by decide⟩
  exact (no_deadlock crossing (by decide)).2 .shared 2 (samplePage 0) (by decide)
    ⟨1, .exclusive, true⟩ (by decide) (by decide) (.single hwaits)

/-- The lock of transaction 1 on the first page goes to transaction 2 while transaction 3 waits for
it too; transaction 2 then waits for transaction 3. -/
def missed : List LockCall :=
  [.lock .exclusive 1 (samplePage 0), .lock .exclusive 3 (samplePage 1),
    .lock .exclusive 2 (samplePage 0), .lock .exclusive 3 (samplePage 0), .unlockAll 1, .wakeUp 2,
    .lock .exclusive 2 (samplePage 1)]

theorem deadlock_missed : ¬ ∀ calls, Machine.Along Strict Locks.perform new calls →
    ∀ c, ¬ TransGen (Machine.specRun Locks.perform new calls).1.mgr.BlockedBy c c := by
  intro h
  have htwo : (Machine.specRun Locks.perform new missed).1.mgr.BlockedBy 2 3 :=
    ⟨samplePage 1, ⟨2, .exclusive, false⟩, by decide, rfl, rfl, ⟨3, .exclusive, true⟩, by decide,
      rfl, by decide⟩
  have hthree : (Machine.specRun Locks.perform new missed).1.mgr.BlockedBy 3 2 :=
    ⟨samplePage 0, ⟨3, .exclusive, false⟩, by decide, rfl, rfl, ⟨2, .exclusive, true⟩, by decide,
      rfl, by decide⟩
  exact h missed (by decide) 2 (.tail (.single htwo) hthree)

end Locks

end MiniDB
