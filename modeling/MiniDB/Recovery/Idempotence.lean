import MiniDB.Recovery.LogFile
import MiniDB.Recovery.Recovery

/-!
# Recovery after recovery

Pages carry no log sequence number, so recovery cannot tell whether an operation is on the page
already. Deletions applied twice are deletions applied once; a tuple inserted twice is there twice.
A log whose recovery inserts nothing may be recovered again, whatever the tables hold; for any other
log there are tables on which the second recovery adds tuples.

## Main definitions

* `InsertsNothing`: recovery from these records inserts no tuple
* `Idempotent`: a second recovery leaves in every table the tuples that the first one left
* `Sealed`: a heap whose first pages are full

## Main results

* `recover_twice_iff`: the logs that may be recovered twice
-/

namespace MiniDB

open Program

/-! ## Full pages -/

/-- The first `M` pages of the heap are there, and they are full. -/
structure Sealed (M : ℕ) (h : Heap) : Prop where
  length : M ≤ h.length
  full : ∀ {p pg}, p < M → h[p]? = some pg → pg.free = 0

namespace Sealed

variable {M : ℕ} {h : Heap} {data : Str} {rid : RID}

/-- A tuple goes to a page behind the full ones. -/
theorem insert (hs : Sealed M h) (hdata : data ≠ []) :
    M ≤ (h.insert data).2.pageId ∧ Sealed M (h.insert data).1 := by
  rcases h.insert_cases data with ⟨q, pg, hq, hroom, -, heq⟩ | heq
  · have hle : M ≤ q := by
      by_contra hlt
      rw [hs.full (Nat.not_le.mp hlt) hq] at hroom
      exact hdata (List.length_eq_zero_iff.mp (Nat.le_zero.mp hroom))
    rw [heq]
    refine ⟨hle, ?_, fun {p pg'} hp hpg' => ?_⟩
    · rw [List.length_set]
      exact hs.length
    · rw [List.getElem?_set_ne (by omega)] at hpg'
      exact hs.full hp hpg'
  · rw [heq]
    refine ⟨hs.length, ?_, fun {p pg} hp hpg => ?_⟩
    · rw [Heap.append, List.length_append]
      exact hs.length.trans (Nat.le_add_right _ _)
    · rw [Heap.append, List.getElem?_append_left (hp.trans_le hs.length)] at hpg
      exact hs.full hp hpg

theorem delete (hs : Sealed M h) (rid : RID) : Sealed M (h.delete rid) := by
  refine ⟨by rw [Heap.length_delete]; exact hs.length, fun {p pg} hp hpg => ?_⟩
  rw [Heap.delete, List.getElem?_modify] at hpg
  obtain ⟨pg', hpg', rfl⟩ := Option.map_eq_some_iff.mp hpg
  have hfree := hs.full hp hpg'
  split
  · exact hfree
  · exact hfree

/-- A call that has a tuple to insert, or deletes on one of the full pages. -/
def Admits (M : ℕ) : HeapCall → Prop
  | .insert data => data ≠ []
  | .delete rid => rid.pageId < M

theorem apply (hs : Sealed M h) {call : HeapCall} (hcall : Admits M call) :
    Sealed M (call.apply h) := by
  cases call with
  | insert data => exact (hs.insert hcall).2
  | delete rid => exact hs.delete rid

/-- What is free on the full pages stays free. -/
theorem tuple?_apply (hs : Sealed M h) {call : HeapCall} (hcall : Admits M call)
    (hrid : rid.pageId < M) (hfree : h.tuple? rid = none) : (call.apply h).tuple? rid = none := by
  cases call with
  | insert data =>
    have hne : rid ≠ (h.insert data).2 := by
      rintro rfl
      exact absurd (hs.insert hcall).1 (Nat.not_le.mpr hrid)
    show (h.insert data).1.tuple? rid = none
    rw [Heap.tuple?_insert hcall, if_neg hne]
    exact hfree
  | delete r =>
    show (h.delete r).tuple? rid = none
    rw [Heap.tuple?_delete, hfree, ite_self]

/-- After the calls, what they deleted is free. -/
theorem foldl {calls : List HeapCall} (hs : Sealed M h) (hcalls : ∀ c ∈ calls, Admits M c) :
    Sealed M (calls.foldl HeapCall.apply h) ∧
      ∀ rid, .delete rid ∈ calls ∨ rid.pageId < M ∧ h.tuple? rid = none →
        (calls.foldl HeapCall.apply h).tuple? rid = none := by
  induction calls generalizing h with
  | nil =>
    refine ⟨hs, fun rid hrid => ?_⟩
    rcases hrid with hmem | ⟨-, hfree⟩
    · cases hmem
    · exact hfree
  | cons call calls ih =>
    have hcall := hcalls call List.mem_cons_self
    obtain ⟨hsealed, hfree⟩ := ih (hs.apply hcall) fun c hc => hcalls c (List.mem_cons_of_mem _ hc)
    refine ⟨hsealed, fun rid hrid => hfree rid ?_⟩
    rcases hrid with hmem | ⟨hpage, hnone⟩
    · rcases List.mem_cons.mp hmem with rfl | hmem
      · refine Or.inr ⟨hcall, ?_⟩
        show (h.delete rid).tuple? rid = none
        rw [Heap.tuple?_delete, if_pos rfl]
      · exact Or.inl hmem
    · exact Or.inr ⟨hpage, hs.tuple?_apply hcall hpage hnone⟩

/-- Calls that delete nothing any more add a tuple for each insertion. -/
theorem length_live_foldl {calls : List HeapCall} (hs : Sealed M h)
    (hcalls : ∀ c ∈ calls, Admits M c) (hfree : ∀ rid, .delete rid ∈ calls → h.tuple? rid = none) :
    (calls.foldl HeapCall.apply h).live.length =
      h.live.length + calls.countP (fun c => c matches .insert _) := by
  induction calls generalizing h with
  | nil => rfl
  | cons call calls ih =>
    have hcall := hcalls call List.mem_cons_self
    have hrest := ih (hs.apply hcall) (fun c hc => hcalls c (List.mem_cons_of_mem _ hc))
      fun rid hmem => hs.tuple?_apply hcall (hcalls _ (List.mem_cons_of_mem _ hmem))
        (hfree rid (List.mem_cons_of_mem _ hmem))
    rw [List.foldl_cons, hrest, List.countP_cons]
    cases call with
    | insert data =>
      have hlive : (h.insert data).1.live.length = h.live.length + 1 :=
        (Heap.live_insert hcall).length_eq
      show (h.insert data).1.live.length + _ = _
      simp only [hlive, if_true]
      omega
    | delete rid =>
      -- A deletion of what is gone already leaves every live tuple.
      have hnone : h.tuple? rid = none := hfree rid List.mem_cons_self
      have hkeep : h.live.filter (fun e => e.1 ≠ rid) = h.live := by
        refine List.filter_eq_self.mpr fun e he => decide_eq_true ?_
        rintro rfl
        rw [Heap.mem_live.mp (show (e.1, e.2) ∈ h.live from he)] at hnone
        cases hnone
      have hlive := (Heap.live_delete (h := h) rid).length_eq
      rw [hkeep] at hlive
      show (h.delete rid).live.length + _ = _
      simp only [hlive, if_false, Bool.false_eq_true]
      omega

end Sealed

/-! ## Files of full pages -/

/-- A page that one tuple fills. -/
def fullPage : HeapPage := HeapPage.empty.put (List.replicate MAX_TUPLE 0)

theorem exists_fullPage : ∃ page, Slotted page fullPage := by
  have hfit : (List.replicate MAX_TUPLE (0 : UInt8)).length ≤ HeapPage.empty.free := by
    rw [List.length_replicate]
    decide
  obtain ⟨page, -, -, hslot⟩ := (slotted_initPage 0).placeTuple (by decide) hfit
  exact ⟨_, hslot⟩

theorem free_fullPage : fullPage.free = 0 := by
  rw [fullPage, HeapPage.free, HeapPage.put, List.length_replicate]
  decide

theorem sealed_replicate (M : ℕ) : Sealed M (List.replicate M fullPage) := by
  refine ⟨Nat.le_of_eq List.length_replicate.symm, fun {p pg} hp hpg => ?_⟩
  rw [List.getElem?_replicate, if_pos hp] at hpg
  rw [← Option.some.inj hpg]
  exact free_fullPage

/-- A file of full pages. -/
theorem exists_file (M : ℕ) (hM : M < 2 ^ 20) :
    ∃ file, FileLays file (List.replicate M fullPage) := by
  obtain ⟨page, hpage⟩ := exists_fullPage
  refine ⟨File.ofPages (List.replicate M page), fileLays_ofPages ?_ (by simpa using hM)⟩
  refine List.forall₂_iff_get.mpr ⟨by simp, fun p h₁ h₂ => ?_⟩
  simpa using hpage

/-! ## Recovery twice -/

namespace RecoveryManager

open Storage

/-- Recovery from these records inserts no tuple: no `INSERT` of a committed transaction and no
`DELETE` of an active one has a tuple. -/
def InsertsNothing (records : List LogRecord) : Prop := ∀ rec ∈ records, rec.tableName ≠ [] →
  ¬ (rec.type = .insert ∧ rec.newData ≠ [] ∧ rec.txnId ∈ (analyze records).committedTxns) ∧
  ¬ (rec.type = .delete ∧ rec.oldData ≠ [] ∧ rec.txnId ∈ (analyze records).activeTxns)

/-- The same process goes on, or another one starts on the same disk. -/
def Continues (s s' : Storage) : Prop :=
  s' = s ∨ ∃ poolSize, 0 < poolSize ∧
    s' = ⟨DiskManager.new s.diskMgr.disk, BufferPool.new poolSize⟩

/-- From whatever the tables on the disk hold, a second recovery leaves in every table the bag of
tuples that the first one left. -/
def Idempotent (file : Str) (records : List LogRecord) : Prop := ∀ D s s₁ s₁' s₂,
  OnDisk (Named records) D s → (∀ rec ∈ records, D.Replayable rec) →
  (recoverAndFlush file).run s = (.ok (), s₁) → Continues s₁ s₁' →
  (recoverAndFlush file).run s₁' = (.ok (), s₂) →
  ∀ name, ∃ once twice t₁ t₂, (tuplesOn name).run s₁ = (.ok once, t₁) ∧
    (tuplesOn name).run s₂ = (.ok twice, t₂) ∧ (twice.map Prod.snd).Perm (once.map Prod.snd)

instance (records : List LogRecord) : Decidable (InsertsNothing records) :=
  inferInstanceAs (Decidable (∀ rec ∈ records, _ → _))

variable {records : List LogRecord} {D : HeapTables} {s s' : Storage} {name : Str}

theorem Continues.onDisk {names : Str → Prop} (h : Continues s s') (hs : OnDisk names D s) :
    OnDisk names D s' := by
  rcases h with rfl | ⟨poolSize, hpool, rfl⟩
  · exact hs
  · exact onDisk_new names hpool hs.files

/-- A recovery that inserts nothing only deletes. -/
theorem InsertsNothing.calls (h : InsertsNothing records) (hname : name ≠ []) :
    ∃ rids : List RID, recoverCalls records name = rids.map .delete := by
  refine HeapCall.exists_map_delete fun call hcall => ?_
  obtain ⟨rec, hmem, rfl, hcase⟩ := mem_recoverCalls hcall
  obtain ⟨hredo, hundo⟩ := h rec hmem hname
  cases call with
  | delete rid => exact ⟨rid, rfl⟩
  | insert data =>
    exfalso
    rcases hcase with ⟨htxn, hcall⟩ | ⟨htxn, hcall⟩
    · refine hredo ?_
      unfold LogRecord.redone at hcall
      split at hcall
      case h_1 htype =>
        split at hcall
        case isTrue => cases hcall
        case isFalse hdata => exact ⟨htype, hdata, htxn⟩
      case h_2 => cases hcall
      case h_3 => cases hcall
    · refine hundo ?_
      unfold LogRecord.undone at hcall
      split at hcall
      case h_1 => cases hcall
      case h_2 htype =>
        split at hcall
        case isTrue => cases hcall
        case isFalse hdata => exact ⟨htype, hdata, htxn⟩
      case h_3 => cases hcall

/-- What the heap of a table is after a recovery that inserts nothing. -/
theorem InsertsNothing.recover (h : InsertsNothing records) (name : Str) :
    ∃ rids : List RID, ∀ D : HeapTables,
      D.recover records name = (D name).map fun g => rids.foldl Heap.delete g := by
  by_cases hname : name = []
  · refine ⟨[], fun D => ?_⟩
    rw [HeapTables.recover, HeapTables.apply, if_pos hname]
    exact Option.map_id'.symm
  · obtain ⟨rids, hcalls⟩ := h.calls hname
    refine ⟨rids, fun D => ?_⟩
    rw [HeapTables.recover, HeapTables.apply, if_neg hname, hcalls]
    exact congrArg (Option.map · (D name)) (funext fun g => HeapCall.foldl_delete rids g)

/-- A recovery that inserts nothing may be repeated. -/
theorem idempotent_of_insertsNothing {file : Str}
    (hread : LogManager.readAllRecords file = .ok records) (h : InsertsNothing records) :
    Idempotent file records := by
  intro D s s₁ s₁' s₂ hs hreplay hrun₁ hcont hrun₂ name
  have hsmall : ∀ {D : HeapTables} {s : Storage}, OnDisk (Named records) D s →
      ∀ name g, D.recover records name = some g → g.length < 2 ^ 20 := by
    intro D s hs name g hg
    obtain ⟨rids, hrecover⟩ := h.recover name
    rw [hrecover D] at hg
    obtain ⟨g₀, hg₀, rfl⟩ := Option.map_eq_some_iff.mp hg
    rw [Heap.length_foldl_delete]
    exact hs.small hg₀
  have hs₁ := wp_of_ok (recover_spec hread hs hreplay (hsmall hs)) hrun₁
  have hs₁' := hcont.onDisk hs₁
  have hs₂ := wp_of_ok (recover_spec hread hs₁' (fun rec hrec => (hreplay rec hrec).apply)
    (hsmall hs₁')) hrun₂
  obtain ⟨t₁, ht₁⟩ := hs₁.tuplesOn name
  obtain ⟨t₂, ht₂⟩ := hs₂.tuplesOn name
  refine ⟨_, _, t₁, t₂, ht₁, ht₂, ?_⟩
  obtain ⟨rids, hrecover⟩ := h.recover name
  rw [hrecover, hrecover]
  cases D name with
  | none => exact .refl _
  | some g =>
    refine List.Perm.map _ ((Heap.live_foldl_delete rids _).trans (List.Perm.of_eq ?_))
    refine List.filter_eq_self.mpr fun e he => ?_
    exact (List.mem_filter.mp ((Heap.live_foldl_delete rids g).mem_iff.mp he)).2

/-- The images of the records fit a page, and the tables they are about stay below 4 GiB when the
records are replayed twice. -/
structure Moderate (records : List LogRecord) (M : ℕ) : Prop where
  images : ∀ rec ∈ records, rec.newData.length ≤ MAX_TUPLE ∧ rec.oldData.length ≤ MAX_TUPLE
  pages : ∀ rec ∈ records, rec.rid.pageId < M
  length : M + 4 * records.length < 2 ^ 20

/-- When recovery inserts a tuple into a table, a second recovery inserts it once more into a file
of full pages. -/
theorem not_idempotent {file : Str} {M : ℕ} {data : Str}
    (hread : LogManager.readAllRecords file = .ok records) (hlog : Moderate records M)
    (hname : name ≠ []) (hcall : .insert data ∈ recoverCalls records name) :
    ¬ Idempotent file records := by
  intro h
  let h₀ : Heap := List.replicate M fullPage
  let D : HeapTables := fun n => if n = name then some h₀ else none
  have hlen₀ : h₀.length = M := List.length_replicate
  have hbound := hlog.length
  obtain ⟨full, hfull⟩ := exists_file M (by omega)
  have hs := onDisk_single (Named records) name hfull Nat.one_pos
  have hreplay : ∀ rec ∈ records, D.Replayable rec := by
    intro rec hrec g hg call hc
    simp only [D] at hg
    split at hg
    case isFalse => cases hg
    case isTrue =>
      obtain rfl := Option.some.inj hg
      obtain ⟨hnew, hold⟩ := hlog.images rec hrec
      rcases LogRecord.call_cases hc with rfl | ⟨rfl, -⟩ | ⟨rfl, -⟩
      · show rec.rid.pageId < h₀.length
        rw [hlen₀]
        exact hlog.pages rec hrec
      · exact hnew
      · exact hold
  have hadmits : ∀ c ∈ recoverCalls records name, Sealed.Admits M c := by
    intro c hc
    obtain ⟨rec, hrec, -, hcase⟩ := mem_recoverCalls hc
    rcases LogRecord.call_cases (hcase.imp And.right And.right) with rfl | ⟨rfl, hdata⟩ | ⟨rfl, hdata⟩
    · exact hlog.pages rec hrec
    · exact hdata
    · exact hdata
  let h₁ : Heap := (recoverCalls records name).foldl HeapCall.apply h₀
  let h₂ : Heap := (recoverCalls records name).foldl HeapCall.apply h₁
  have hD₁ : ∀ n, D.recover records n = if n = name then some h₁ else none := by
    intro n
    by_cases hn : n = name
    · subst hn
      simp only [HeapTables.recover, HeapTables.apply, if_neg hname, D, if_true]
      rfl
    · simp only [HeapTables.recover, HeapTables.apply, D, if_neg hn]
      split <;> rfl
  have hD₂ : ∀ n, (D.recover records).recover records n = if n = name then some h₂ else none := by
    intro n
    by_cases hn : n = name
    · subst hn
      rw [HeapTables.recover, HeapTables.apply, if_neg hname, hD₁, if_pos rfl, if_pos rfl]
      rfl
    · rw [HeapTables.recover, HeapTables.apply, hD₁, if_neg hn]
      split <;> rfl
  have hcalls := length_recoverCalls_le records name
  have hlen₁ : h₁.length ≤ M + 2 * records.length := by
    have hle := HeapCall.length_foldl_le (recoverCalls records name) h₀
    simp only [h₁]
    omega
  have hlen₂ : h₂.length ≤ M + 4 * records.length := by
    have hle := HeapCall.length_foldl_le (recoverCalls records name) h₁
    simp only [h₂]
    omega
  have hsmall₁ : ∀ n g, D.recover records n = some g → g.length < 2 ^ 20 := by
    intro n g hg
    rw [hD₁] at hg
    split at hg
    case isTrue => rw [← Option.some.inj hg]; omega
    case isFalse => cases hg
  have hsmall₂ : ∀ n g, (D.recover records).recover records n = some g → g.length < 2 ^ 20 := by
    intro n g hg
    rw [hD₂] at hg
    split at hg
    case isTrue => rw [← Option.some.inj hg]; omega
    case isFalse => cases hg
  obtain ⟨⟨⟩, s₁, hrun₁, hs₁⟩ := wp_total.mp (recover_spec hread hs hreplay hsmall₁)
  obtain ⟨⟨⟩, s₂, hrun₂, hs₂⟩ := wp_total.mp
    (recover_spec hread hs₁ (fun rec hrec => (hreplay rec hrec).apply) hsmall₂)
  obtain ⟨once, twice, t₁, t₂, honce, htwice, hperm⟩ :=
    h D _ s₁ s₁ s₂ hs hreplay hrun₁ (Or.inl rfl) hrun₂ name
  obtain ⟨t₁', ht₁⟩ := hs₁.tuplesOn name
  obtain ⟨t₂', ht₂⟩ := hs₂.tuplesOn name
  rw [hD₁, if_pos rfl, honce] at ht₁
  rw [hD₂, if_pos rfl, htwice] at ht₂
  obtain rfl : once = h₁.live := Except.ok.inj (Prod.mk.inj ht₁).1
  obtain rfl : twice = h₂.live := Except.ok.inj (Prod.mk.inj ht₂).1
  -- The first recovery deleted all it will ever delete; the second one only adds.
  obtain ⟨hsealed, hfree⟩ := (sealed_replicate M).foldl hadmits
  have hlive := hsealed.length_live_foldl hadmits fun rid hrid => hfree rid (Or.inl hrid)
  have hpos : 0 < (recoverCalls records name).countP (fun c => c matches .insert _) :=
    List.countP_pos_iff.mpr ⟨_, hcall, rfl⟩
  have hsame := hperm.length_eq
  simp only [List.length_map] at hsame
  have hlive' : h₂.live.length = h₁.live.length +
    (recoverCalls records name).countP (fun c => c matches .insert _) := hlive
  omega

/-- A log that may be recovered twice inserts nothing. -/
theorem insertsNothing_of_idempotent {file : Str} {M : ℕ}
    (hread : LogManager.readAllRecords file = .ok records) (hlog : Moderate records M)
    (h : Idempotent file records) : InsertsNothing records := by
  intro rec hrec hname
  constructor
  · rintro ⟨htype, hdata, htxn⟩
    have hcall : HeapCall.insert rec.newData ∈ recoverCalls records rec.tableName := by
      refine List.mem_append.mpr (Or.inl (List.mem_filterMap.mpr ⟨rec, ?_, ?_⟩))
      · exact List.mem_filter.mpr ⟨hrec, decide_eq_true ⟨htxn, rfl⟩⟩
      · simp only [LogRecord.redone, htype, if_neg hdata]
    exact not_idempotent hread hlog hname hcall h
  · rintro ⟨htype, hdata, htxn⟩
    have hcall : HeapCall.insert rec.oldData ∈ recoverCalls records rec.tableName := by
      refine List.mem_append.mpr (Or.inr (List.mem_filterMap.mpr ⟨rec, ?_, ?_⟩))
      · exact List.mem_filter.mpr ⟨List.mem_reverse.mpr hrec, decide_eq_true ⟨htxn, rfl⟩⟩
      · simp only [LogRecord.undone, htype, if_neg hdata]
    exact not_idempotent hread hlog hname hcall h

/-- A log whose recovery inserts nothing may be recovered twice, whatever the tables hold; and any
other log whose tables can be below 4 GiB must not. -/
theorem recover_twice_iff {file : Str} (hread : LogManager.readAllRecords file = .ok records) :
    (InsertsNothing records → Idempotent file records) ∧
    ((∃ M, Moderate records M) → Idempotent file records → InsertsNothing records) :=
  ⟨idempotent_of_insertsNothing hread,
    fun ⟨_, hlog⟩ h => insertsNothing_of_idempotent hread hlog h⟩

/-- A committed transaction that deleted a tuple. -/
theorem recover_twice_iff_deletion :
    let records : List LogRecord := [{ txnId := 1 },
      { type := .delete, txnId := 1, tableName := lit "t", oldData := [7] },
      { type := .commitTxn, txnId := 1 }]
    Idempotent (LogManager.framed 1 records) (LogManager.number 1 records) := by
  intro records
  have hread : LogManager.readAllRecords (LogManager.framed 1 records) =
      .ok (LogManager.number 1 records) := Machine.toOption_eq_some.mp (by decide +kernel)
  exact (recover_twice_iff hread).1 (by decide +kernel)

/-- The log of a committed transaction that inserted a tuple. -/
def sampleInsertion : List LogRecord := LogManager.number 1 [{ txnId := 1 },
  { type := .insert, txnId := 1, tableName := lit "t", newData := [7] },
  { type := .commitTxn, txnId := 1 }]

/-- A committed transaction that inserted a tuple: a table that was empty has it twice after the
second recovery. -/
theorem recover_twice_adds :
    ((do
      let _ ← PageManager.createTable (lit "t")
      Storage.flushAllPages
      recoverAndFlush (sampleInsertion.flatMap LogManager.frame)
      recoverAndFlush (sampleInsertion.flatMap LogManager.frame)
      tuplesOn (lit "t")).run ⟨DiskManager.new fun _ => none, BufferPool.new 4⟩).1.toOption =
      some [(⟨0, 0⟩, [7]), (⟨0, 1⟩, [7])] ∧
    ¬ Idempotent (sampleInsertion.flatMap LogManager.frame) sampleInsertion := by
  have hread : LogManager.readAllRecords (sampleInsertion.flatMap LogManager.frame) =
      .ok sampleInsertion := Machine.toOption_eq_some.mp (by decide +kernel)
  refine ⟨by decide +kernel, not_idempotent (M := 1) hread ⟨?_, ?_, by decide⟩
    (by decide : lit "t" ≠ []) (by decide +kernel : HeapCall.insert [7] ∈ recoverCalls sampleInsertion (lit "t"))⟩
  · decide +kernel
  · decide +kernel

end RecoveryManager

end MiniDB
