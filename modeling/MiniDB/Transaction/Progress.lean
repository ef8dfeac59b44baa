import MiniDB.Transaction.Deadlock

/-!
# Progress

A state of the lock manager in which transactions wait can be run until no call waits any more,
exactly when no transaction is blocked by itself through others. Without a cycle some waiting
transaction is blocked only by transactions that do not wait; they give their locks back, the call is
woken up and returns, and the transaction gives its locks back too. The transactions on a cycle wait
for ever: none of them can give its locks back, and no step grants what one of them waits for.

## Main results

* `Locks.serves`: a call that only transactions which do not wait stand in the way of
* `Locks.blockedBy_perform`: who is blocked by a waiting transaction stays so
* `Locks.completes_iff`: every call can be served exactly when there is no cycle
-/

namespace MiniDB

open Relation

instance finite_int32 : Finite Int32 :=
  .of_injective (fun t : Int32 => t.toBitVec.toFin) fun _ _ h =>
    Int32.toBitVec_inj.mp (BitVec.toFin_inj.mp h)

namespace Locks

variable {s s' : Locks} {mode : LockMode} {t a b : Int32} {res : ResourceId} {ts : List Int32}

/-! ## Serving a call -/

/-- The requests of the transactions that end go, and nothing else. -/
theorem release_eq (s : Locks) (ts : List Int32) :
    (Machine.specRun Locks.perform s (ts.map .unlockAll)).1.waiting = s.waiting ∧
    ∀ res, (Machine.specRun Locks.perform s (ts.map .unlockAll)).1.mgr.lockTable res =
      (s.mgr.lockTable res).filter fun req => req.txnId ∉ ts := by
  induction ts generalizing s with
  | nil => exact ⟨rfl, fun res => by simp [Machine.specRun]⟩
  | cons t ts ih =>
    obtain ⟨hwaiting, htable⟩ := ih (s.perform (.unlockAll t)).1
    refine ⟨hwaiting, fun res => (htable res).trans ?_⟩
    show ((s.mgr.lockTable res).filter fun req => req.txnId ≠ t).filter _ = _
    rw [List.filter_filter]
    refine List.filter_congr fun req _ => ?_
    simp only [List.mem_cons, not_or, decide_not, Bool.decide_and, Bool.and_comm, ne_eq]

/-- Transactions that do not wait may end. -/
theorem release_strict (hidle : ∀ t ∈ ts, s.waiting t = none) :
    Machine.Along Strict Locks.perform s (ts.map .unlockAll) := by
  induction ts generalizing s with
  | nil => exact .nil
  | cons t ts ih =>
    refine .cons (hidle t List.mem_cons_self) (ih fun t' ht' => ?_)
    exact hidle t' (List.mem_cons_of_mem t ht')

/-- A waiting call that only transactions which do not wait stand in the way of: they end, and so
does the transaction once its call has returned. -/
theorem serves (h : Compatible s) (hwait : s.waiting t = some (mode, res))
    (hfree : ∀ r ∈ s.mgr.lockTable res, LockManager.blocks t mode r = true →
      s.waiting r.txnId = none) :
    ∃ more, Machine.Along Strict Locks.perform s more ∧
      (Machine.specRun Locks.perform s more).1.waiting = Function.update s.waiting t none ∧
      ∀ res, (Machine.specRun Locks.perform s more).1.mgr.lockTable res ⊆
        s.mgr.lockTable res := by
  let ts := ((s.mgr.lockTable res).filter (LockManager.blocks t mode)).map LockRequest.txnId
  have hidle : ∀ t' ∈ ts, s.waiting t' = none := by
    intro t' ht'
    obtain ⟨r, hr, rfl⟩ := List.mem_map.mp ht'
    obtain ⟨hr, hblocks⟩ := List.mem_filter.mp hr
    exact hfree r hr hblocks
  obtain ⟨hwaiting, htable⟩ := release_eq s ts
  have hstrict : Machine.Along Strict Locks.perform s (ts.map .unlockAll) := release_strict hidle
  let s₁ := (Machine.specRun Locks.perform s (ts.map .unlockAll)).1
  have h₁ : Compatible s₁ :=
    hstrict.invariant (fun _ call h hadm => h.perform call hadm.enabled) h
  have hwait₁ : s₁.waiting t = some (mode, res) := (congrFun hwaiting t).trans hwait
  have hfree₁ : ∀ req ∈ s₁.mgr.lockTable res, ¬ LockManager.blocks t mode req := by
    intro req hreq hblocks
    rw [htable, List.mem_filter] at hreq
    exact of_decide_eq_true hreq.2 (List.mem_map_of_mem (List.mem_filter.mpr ⟨hreq.1, hblocks⟩))
  have hwoken : s₁.perform (.wakeUp t) = ({ s₁ with
      mgr := (s₁.mgr.setRequests res
        (LockManager.grantFirst t (s₁.mgr.lockTable res))).stopWaiting t
      waiting := Function.update s₁.waiting t none }, some true) := by
    simp only [perform, hwait₁, LockManager.wakeUp]
    rw [if_neg fun hany => ?_]
    obtain ⟨req, hreq, hblocks⟩ := List.any_eq_true.mp hany
    exact hfree₁ req hreq hblocks
  let s₂ := (s₁.perform (.wakeUp t)).1
  have hwaiting₂ : s₂.waiting = Function.update s.waiting t none := by
    show ((s₁.perform (.wakeUp t)).1).waiting = _
    rw [hwoken]
    exact congrArg (Function.update · t none) hwaiting
  refine ⟨ts.map .unlockAll ++ [.wakeUp t, .unlockAll t], ?_, ?_, fun res' => ?_⟩
  · refine hstrict.append (.cons ?_ (.cons ?_ .nil))
    · show s₁.waiting t ≠ none
      rw [hwait₁]
      exact Option.some_ne_none _
    · show s₂.waiting t = none
      rw [hwaiting₂, Function.update_self]
  · rw [Machine.specRun_append]
    exact hwaiting₂
  · rw [Machine.specRun_append]
    show ((s₂.mgr.lockTable res').filter fun req => req.txnId ≠ t) ⊆ _
    -- The requests that are left are those of others, which the wake-up has not touched.
    intro req hreq
    obtain ⟨hreq, hne⟩ := List.mem_filter.mp hreq
    have hreq₁ : req ∈ s₁.mgr.lockTable res' := by
      have hmgr : s₂.mgr = (s₁.mgr.setRequests res
          (LockManager.grantFirst t (s₁.mgr.lockTable res))).stopWaiting t := by
        show ((s₁.perform (.wakeUp t)).1).mgr = _
        rw [hwoken]
      rw [hmgr, LockManager.lockTable_stopWaiting, LockManager.lockTable_setRequests] at hreq
      split at hreq
      case isTrue heq =>
        rw [heq]
        cases hgranted : req.granted with
        | false => exact LockManager.mem_of_mem_grantFirst hreq hgranted
        | true =>
          refine ((LockManager.mem_grantFirst_granted hgranted).mp hreq).resolve_right ?_
          rintro ⟨p, hp, rfl⟩
          have hown := (LockManager.mem_pendingOf.mp (List.mem_of_mem_head? hp)).2.1
          exact of_decide_eq_true hne hown
      case isFalse => exact hreq
    rw [htable] at hreq₁
    exact (List.mem_filter.mp hreq₁).1

/-- Fewer requests, fewer transactions blocked. -/
theorem blockedBy_of_subset (hsub : ∀ res, s'.mgr.lockTable res ⊆ s.mgr.lockTable res)
    (h : s'.mgr.BlockedBy a b) : s.mgr.BlockedBy a b := by
  obtain ⟨res, p, hp, htxn, hpending, r, hr, hblocks⟩ := h
  exact ⟨res, p, hsub res hp, htxn, hpending, r, hsub res hr, hblocks⟩

/-- Without a cycle all calls are served, one after another. -/
theorem completes (h : Compatible s) (hacyclic : ∀ c, ¬ TransGen s.mgr.BlockedBy c c) :
    ∃ more, Machine.Along Strict Locks.perform s more ∧
      ∀ t, (Machine.specRun Locks.perform s more).1.waiting t = none := by
  -- The induction is on the number of waiting transactions.
  generalize hn : {t | s.waiting t ≠ none}.ncard = n
  induction n using Nat.strong_induction_on generalizing s with
  | _ n ih =>
    by_cases hnone : ∀ t, s.waiting t = none
    · exact ⟨[], .nil, hnone⟩
    · obtain ⟨t₀, ht₀⟩ := not_forall.mp hnone
      have hnonempty : {t | s.waiting t ≠ none}.Nonempty := ⟨t₀, ht₀⟩
      obtain ⟨t, ht, hsink⟩ := CycleSearch.exists_sink hacyclic hnonempty
      obtain ⟨⟨mode, res⟩, hwait⟩ := Option.ne_none_iff_exists'.mp ht
      obtain ⟨more, hmore, hwaiting, hsub⟩ := serves h hwait fun r hr hblocks => by
        by_contra hr'
        exact hsink r.txnId hr' ⟨res, _, h.pending_of_waiting hwait, rfl, rfl, r, hr, rfl, hblocks⟩
      have hfewer : {t' | (Machine.specRun Locks.perform s more).1.waiting t' ≠ none} =
          {t' | s.waiting t' ≠ none} \ {t} := by
        ext t'
        simp only [hwaiting, Function.update_apply, Set.mem_ofPred_eq, Set.mem_sdiff,
          Set.mem_singleton_iff]
        split <;> simp [*]
      obtain ⟨rest, hrest, hdone⟩ := ih _ (by
          rw [← hn, hfewer]
          exact Set.ncard_sdiff_singleton_lt_of_mem ht (Set.toFinite _))
        (hmore.invariant (fun _ call h hadm => h.perform call hadm.enabled) h)
        (fun c hc => hacyclic c (hc.lift id fun _ _ => blockedBy_of_subset hsub)) rfl
      refine ⟨more ++ rest, hmore.append hrest, fun t' => ?_⟩
      rw [Machine.specRun_append]
      exact hdone t'

/-! ## Waiting for ever -/

theorem Compatible.waiting_of_blockedBy (h : Compatible s) (hblocked : s.mgr.BlockedBy a b) :
    s.waiting a ≠ none := by
  obtain ⟨res, p, hp, rfl, hpending, -⟩ := hblocked
  rw [h.waiting_of_pending hp hpending]
  exact Option.some_ne_none _

/-- Who is blocked by a waiting transaction stays so: the one cannot go on, and the other cannot give
its locks back. -/
theorem blockedBy_perform (h : Compatible s) {call : LockCall} (hstrict : s.Strict call)
    (hblocked : s.mgr.BlockedBy a b) (hwait : s.waiting b ≠ none) :
    (s.perform call).1.mgr.BlockedBy a b := by
  have hwaita := h.waiting_of_blockedBy hblocked
  obtain ⟨res, p, hp, rfl, hpending, r, hr, rfl, hblocks⟩ := hblocked
  have hgranted := LockManager.granted_of_blocks hblocks
  suffices hkeep : p ∈ (s.perform call).1.mgr.lockTable res ∧
      r ∈ (s.perform call).1.mgr.lockTable res from
    ⟨res, p, hkeep.1, rfl, hpending, r, hkeep.2, rfl, hblocks⟩
  cases call with
  | lock mode txnId res' =>
    have hpush : ∀ (mgr : LockManager) (req : LockRequest), mgr.lockTable = s.mgr.lockTable →
        s.mgr.lockTable res ⊆ (mgr.pushBack res' req).lockTable res := by
      intro mgr req htable q hq
      rw [LockManager.lockTable_pushBack, htable]
      split
      case isTrue heq => exact List.mem_append_left _ (heq ▸ hq)
      case isFalse => exact hq
    rcases s.perform_lock mode txnId res' with
      ⟨-, hs⟩ | ⟨-, -, hs⟩ | ⟨-, -, hs⟩ | ⟨-, -, hs⟩ <;> rw [hs]
    · exact ⟨hp, hr⟩
    · exact ⟨hpush s.mgr _ rfl hp, hpush s.mgr _ rfl hr⟩
    · show p ∈ ((s.mgr.addEdges txnId _).stopWaiting txnId).lockTable res ∧ r ∈ _
      rw [LockManager.lockTable_stopWaiting, LockManager.lockTable_addEdges]
      exact ⟨hp, hr⟩
    · exact ⟨hpush _ _ LockManager.lockTable_addEdges hp,
        hpush _ _ LockManager.lockTable_addEdges hr⟩
  | wakeUp txnId =>
    obtain ⟨⟨mode, res'⟩, hwake⟩ := Option.ne_none_iff_exists'.mp hstrict
    rcases perform_wakeUp hwake with hs | ⟨hfree, hs⟩ <;> rw [hs]
    · exact ⟨hp, hr⟩
    · have hne : p.txnId ≠ txnId := by
        rintro rfl
        obtain ⟨rfl, rfl⟩ := Prod.mk.inj
          (Option.some.inj (hwake.symm.trans (h.waiting_of_pending hp hpending)))
        exact hfree r hr hblocks
      simp only [LockManager.lockTable_stopWaiting, LockManager.lockTable_setRequests]
      split
      case isTrue heq =>
        subst heq
        refine ⟨?_, LockManager.mem_grantFirst_of_granted hgranted hr⟩
        have hmem : p ∈ LockManager.pendingOf p.txnId
            (LockManager.grantFirst txnId (s.mgr.lockTable res)) := by
          rw [LockManager.pendingOf_grantFirst, if_neg hne]
          exact LockManager.mem_pendingOf.mpr ⟨hp, rfl, hpending⟩
        exact (LockManager.mem_pendingOf.mp hmem).1
      case isFalse => exact ⟨hp, hr⟩
  | unlock txnId res' => exact hstrict.elim
  | unlockAll txnId =>
    have hkeep : ∀ {q}, q ∈ s.mgr.lockTable res → s.waiting q.txnId ≠ none →
        q ∈ (s.mgr.lockTable res).filter fun req => req.txnId ≠ txnId := by
      intro q hq hwaits
      refine List.mem_filter.mpr ⟨hq, decide_eq_true fun he => hwaits ?_⟩
      rw [he]
      exact hstrict
    exact ⟨hkeep hp hwaita, hkeep hr hwait⟩

/-- A cycle stays. -/
theorem cycle_perform (h : Compatible s) {call : LockCall} (hstrict : s.Strict call) {c : Int32}
    (hcycle : TransGen s.mgr.BlockedBy c c) : TransGen (s.perform call).1.mgr.BlockedBy c c := by
  obtain ⟨d, hfirst, -⟩ := TransGen.head'_iff.mp hcycle
  refine (CycleSearch.to_source hcycle ⟨d, hfirst⟩).lift id ?_
  rintro a b ⟨hblocked, e, hnext⟩
  exact blockedBy_perform h hstrict hblocked (h.waiting_of_blockedBy hnext)

/-- In every state that any interleaving reaches, the calls that wait can all be served by some
further steps, exactly when no transaction is blocked by itself through others; the calls of a
transaction that is wait in every state reached from there. -/
theorem completes_iff (calls : List LockCall)
    (hcalls : Machine.Along Strict Locks.perform new calls) :
    let s := (Machine.specRun Locks.perform new calls).1
    ((∃ more, Machine.Along Strict Locks.perform s more ∧
        ∀ t, (Machine.specRun Locks.perform s more).1.waiting t = none) ↔
      ∀ c, ¬ TransGen s.mgr.BlockedBy c c) ∧
    ∀ c, TransGen s.mgr.BlockedBy c c → ∀ more, Machine.Along Strict Locks.perform s more →
      (Machine.specRun Locks.perform s more).1.waiting c ≠ none := by
  intro s
  have h : Compatible s := (sound_of_run hcalls).compatible
  have hstuck : ∀ c, TransGen s.mgr.BlockedBy c c → ∀ more,
      Machine.Along Strict Locks.perform s more →
      (Machine.specRun Locks.perform s more).1.waiting c ≠ none := by
    intro c hcycle more hmore
    obtain ⟨h', hcycle'⟩ := hmore.invariant
      (I := fun s => Compatible s ∧ TransGen s.mgr.BlockedBy c c)
      (fun _ call ⟨h, hcycle⟩ hadm => ⟨h.perform call hadm.enabled, cycle_perform h hadm hcycle⟩)
      ⟨h, hcycle⟩
    obtain ⟨d, hfirst, -⟩ := TransGen.head'_iff.mp hcycle'
    exact h'.waiting_of_blockedBy hfirst
  refine ⟨⟨?_, completes h⟩, hstuck⟩
  rintro ⟨more, hmore, hdone⟩ c hcycle
  exact hstuck c hcycle more hmore (hdone c)

/-- After the deadlock that is missed, no steps serve all calls. -/
theorem completes_iff_missed : ¬ ∃ more,
    Machine.Along Strict Locks.perform (Machine.specRun Locks.perform new missed).1 more ∧
      ∀ t, (Machine.specRun Locks.perform (Machine.specRun Locks.perform new missed).1 more).1.waiting
        t = none := by
  have htwo : (Machine.specRun Locks.perform new missed).1.mgr.BlockedBy 2 3 :=
    ⟨samplePage 1, ⟨2, .exclusive, false⟩, by decide, rfl, rfl, ⟨3, .exclusive, true⟩, by decide,
      rfl, by decide⟩
  have hthree : (Machine.specRun Locks.perform new missed).1.mgr.BlockedBy 3 2 :=
    ⟨samplePage 0, ⟨3, .exclusive, false⟩, by decide, rfl, rfl, ⟨2, .exclusive, true⟩, by decide,
      rfl, by decide⟩
  exact fun hdone => (completes_iff missed (by decide)).1.mp hdone 2 (.tail (.single htwo) hthree)

end Locks

end MiniDB
