import MiniDB.Recovery.Sessions

/-!
# Logged histories

A process that creates tables and runs transactions on them. Every insertion and every deletion is
logged with the record identifier it was made at, in the order in which they were made. The records
of a table are then a history of its heap: each tells what its call found there. Of a transaction
the log tells the state that the transaction manager has it in.

## Main definitions

* `Genuine`: records that tell what happened to a heap
* `heapOf`: the heap they tell of
* `Orderly`: records that tell of the transactions of a manager
* `Process`, `TxnOp`: a process and the calls of its transactions
* `Process.Tracked`: the log of a process tells of its tables and of its transactions

## Main results

* `Process.workload_spec`: the log of every process does
* `Process.crash_reads`: and so does what a crash leaves of it
-/

namespace MiniDB

open Program

/-! ## Records of a heap -/

/-- A page whose slots fit its header and whose tuples have a size that can be stored. -/
structure HeapPage.Tidy (pg : HeapPage) : Prop where
  slots : pg.slots.length ≤ MAX_SLOTS_PER_PAGE
  tuples : ∀ {data}, some data ∈ pg.slots → Storable data

namespace HeapPage.Tidy

variable {pg : HeapPage} {data : Str} {i : ℕ}

theorem put (h : pg.Tidy) (hslot : pg.nextSlot < MAX_SLOTS_PER_PAGE) (hdata : Storable data) :
    (pg.put data).Tidy where
  slots := by
    have hle := h.slots
    have hnext := pg.nextSlot_le
    rw [length_put]
    split <;> omega
  tuples := by
    intro data' hmem
    obtain ⟨i, hi⟩ := List.getElem?_of_mem hmem
    rw [getElem?_put] at hi
    split at hi
    case isTrue => exact Option.some.inj (Option.some.inj hi) ▸ hdata
    case isFalse => exact h.tuples (List.mem_of_getElem? hi)

theorem clear (h : pg.Tidy) (i : ℕ) : (pg.clear i).Tidy where
  slots := (List.length_set ..).trans_le h.slots
  tuples hmem := by
    rcases List.mem_or_eq_of_mem_set hmem with hmem | heq
    · exact h.tuples hmem
    · cases heq

/-- A slot below the next one has a tuple. -/
theorem tuple?_of_lt (h : pg.Tidy) (hi : i < pg.nextSlot) : pg.tuple? i ≠ none := by
  have hlt : i < pg.slots.length := hi.trans_le pg.nextSlot_le
  have hsome : pg.slots[i].isNone = false := by
    simpa using List.not_of_lt_findIdx hi
  obtain ⟨data, hdata⟩ := Option.ne_none_iff_exists'.mp (Option.isNone_eq_false_iff.mp hsome |>
    Option.isSome_iff_ne_none.mp)
  have hne : data ≠ [] := (h.tuples (hdata ▸ List.getElem_mem hlt)).ne_nil
  simp [tuple?, List.getElem?_eq_getElem hlt, hdata, hne]

/-- The next slot is the first without a tuple. -/
theorem nextSlot_eq (h : pg.Tidy) (hfree : pg.tuple? i = none)
    (hbelow : ∀ k < i, pg.tuple? k ≠ none) : pg.nextSlot = i := by
  rcases Nat.lt_trichotomy pg.nextSlot i with hlt | heq | hlt
  · exact absurd pg.tuple?_nextSlot (hbelow _ hlt)
  · exact heq
  · exact absurd hfree (h.tuple?_of_lt hlt)

theorem empty : HeapPage.empty.Tidy := ⟨Nat.zero_le _, nofun⟩

theorem of_tuple? (h : pg.Tidy) (hi : pg.tuple? i = some data) :
    i < MAX_SLOTS_PER_PAGE ∧ Storable data := by
  obtain ⟨hjoin, -⟩ := Option.filter_eq_some_iff.mp hi
  have hget := Option.join_eq_some_iff.mp hjoin
  exact ⟨(List.getElem?_eq_some_iff.mp hget).1.trans_le h.slots,
    h.tuples (List.mem_of_getElem? hget)⟩

end HeapPage.Tidy

/-- Every page is tidy. -/
def Heap.Tidy (h : Heap) : Prop := ∀ pg ∈ h, HeapPage.Tidy pg

namespace Heap.Tidy

variable {h : Heap} {data : Str} {rid : RID}

theorem insert (hh : h.Tidy) (hdata : Storable data) : (h.insert data).1.Tidy := by
  rcases h.insert_cases data with ⟨p, pg, hp, -, hslot, heq⟩ | heq
  · rw [heq]
    intro pg' hpg'
    rcases List.mem_or_eq_of_mem_set hpg' with hmem | rfl
    · exact hh pg' hmem
    · exact (hh pg (List.mem_of_getElem? hp)).put hslot hdata
  · rw [heq]
    intro pg' hpg'
    rcases List.mem_append.mp hpg' with hmem | hmem
    · exact hh pg' hmem
    · rw [List.mem_singleton.mp hmem]
      exact HeapPage.Tidy.empty.put (by decide) hdata

theorem delete (hh : h.Tidy) (rid : RID) : (h.delete rid).Tidy := by
  intro pg' hpg'
  obtain ⟨p, hp⟩ := List.getElem?_of_mem hpg'
  rw [Heap.delete, List.getElem?_modify] at hp
  obtain ⟨pg, hpg, rfl⟩ := Option.map_eq_some_iff.mp hp
  have hpage := hh pg (List.mem_of_getElem? hpg)
  split
  · exact hpage.clear _
  · exact hpage

theorem of_tuple? (hh : h.Tidy) (hrid : h.tuple? rid = some data) :
    rid.slotNum < MAX_SLOTS_PER_PAGE ∧ Storable data := by
  obtain ⟨pg, hpg, htuple⟩ := Option.bind_eq_some_iff.mp hrid
  exact (hh pg (List.mem_of_getElem? hpg)).of_tuple? htuple

end Heap.Tidy

/-- The record identifier of an insertion is one of the heap it leaves. -/
theorem Heap.insert_rid (h : Heap) (data : Str) :
    (h.insert data).2.pageId < (h.insert data).1.length ∧
      (h.insert data).2.slotNum < MAX_SLOTS_PER_PAGE := by
  rcases h.insert_cases data with ⟨p, pg, hp, -, hslot, heq⟩ | heq
  · rw [heq, List.length_set]
    exact ⟨(List.getElem?_eq_some_iff.mp hp).1, hslot⟩
  · rw [heq, Heap.append, List.length_append]
    exact ⟨Nat.lt_succ_self _, Nat.zero_lt_succ _⟩

/-- The call of a record on the heap of its table. -/
def LogRecord.applied (h : Heap) (rec : LogRecord) : Heap :=
  match rec.type with
  | .insert => (h.insert rec.newData).1
  | .delete => h.delete rec.rid
  | _ => h

/-- The record tells where an insertion has put its tuple, or which tuple a deletion has found. -/
def LogRecord.Matches (h : Heap) (rec : LogRecord) : Prop :=
  match rec.type with
  | .insert => Storable rec.newData ∧ (h.insert rec.newData).2 = rec.rid
  | .delete => h.tuple? rec.rid = some rec.oldData
  | _ => True

/-- The records tell what happened to the heap, one after the other. -/
def Genuine (h : Heap) : List LogRecord → Prop
  | [] => True
  | rec :: recs => rec.Matches h ∧ Genuine (rec.applied h) recs

/-- What these records have made of an empty table. -/
def heapOf (recs : List LogRecord) : Heap := recs.foldl LogRecord.applied [HeapPage.empty]

/-- The records of a table. -/
def onTable (name : Str) (records : List LogRecord) : List LogRecord :=
  records.filter (·.tableName = name)

section Records

variable {h : Heap} {recs recs' : List LogRecord} {rec : LogRecord}

theorem genuine_append : Genuine h (recs ++ recs') ↔
    Genuine h recs ∧ Genuine (recs.foldl LogRecord.applied h) recs' := by
  induction recs generalizing h with
  | nil => exact ⟨fun hg => ⟨trivial, hg⟩, And.right⟩
  | cons rec recs ih => rw [List.cons_append, Genuine, ih, List.foldl_cons, Genuine, and_assoc]

theorem genuine_concat : Genuine [HeapPage.empty] (recs ++ [rec]) ↔
    Genuine [HeapPage.empty] recs ∧ rec.Matches (heapOf recs) := by
  rw [genuine_append]
  exact and_congr_right fun _ => and_iff_left trivial

theorem heapOf_concat (recs : List LogRecord) (rec : LogRecord) :
    heapOf (recs ++ [rec]) = rec.applied (heapOf recs) := by
  rw [heapOf, List.foldl_append]
  rfl

theorem onTable_concat (name : Str) (recs : List LogRecord) (rec : LogRecord) :
    onTable name (recs ++ [rec]) =
      if rec.tableName = name then onTable name recs ++ [rec] else onTable name recs := by
  unfold onTable
  rw [List.filter_append]
  split
  case isTrue hrec => rw [List.filter_cons_of_pos (by simpa using hrec), List.filter_nil]
  case isFalse hrec =>
    rw [List.filter_cons_of_neg (by simpa using hrec), List.filter_nil, List.append_nil]

theorem Genuine.of_isPrefix (hg : Genuine h recs') (hp : recs <+: recs') : Genuine h recs := by
  obtain ⟨rest, rfl⟩ := hp
  exact (genuine_append.mp hg).1

theorem LogRecord.length_le_applied (h : Heap) (rec : LogRecord) :
    h.length ≤ (rec.applied h).length := by
  unfold LogRecord.applied
  split
  · rcases h.length_insert rec.newData with hlen | hlen <;> omega
  · exact Nat.le_of_eq (Heap.length_delete rec.rid).symm
  · exact Nat.le_refl _

theorem length_le_foldl_applied (h : Heap) (recs : List LogRecord) :
    h.length ≤ (recs.foldl LogRecord.applied h).length := by
  refine List.foldlRecOn (motive := fun h' => h.length ≤ List.length h') recs LogRecord.applied
    (Nat.le_refl _) ?_
  exact fun h' hle rec _ => hle.trans (LogRecord.length_le_applied h' rec)

/-- A heap of records has no fewer pages than after the first of them. -/
theorem length_heapOf_le (hp : recs <+: recs') : (heapOf recs).length ≤ (heapOf recs').length := by
  obtain ⟨rest, rfl⟩ := hp
  rw [heapOf, heapOf, List.foldl_append]
  exact length_le_foldl_applied _ _

theorem LogRecord.Matches.tidy (hm : rec.Matches h) (hh : h.Tidy) : (rec.applied h).Tidy := by
  unfold LogRecord.applied
  split
  case h_1 htype =>
    rw [LogRecord.Matches, htype] at hm
    exact hh.insert hm.1
  case h_2 => exact hh.delete _
  case h_3 => exact hh

theorem Genuine.tidy (hg : Genuine [HeapPage.empty] recs) : (heapOf recs).Tidy := by
  induction recs using List.reverseRecOn with
  | nil =>
    intro pg hpg
    rw [List.mem_singleton.mp hpg]
    exact .empty
  | append_singleton recs rec ih =>
    obtain ⟨hrecs, hm⟩ := genuine_concat.mp hg
    rw [heapOf_concat]
    exact hm.tidy (ih hrecs)

/-- A record is about a page of the heap, and a slot that fits its header. -/
theorem LogRecord.Matches.rid (hm : rec.Matches h) (hh : h.Tidy)
    (htype : rec.type = .insert ∨ rec.type = .delete) :
    rec.rid.pageId < (rec.applied h).length ∧ rec.rid.slotNum < MAX_SLOTS_PER_PAGE := by
  unfold LogRecord.Matches at hm
  unfold LogRecord.applied
  rcases htype with htype | htype
  · rw [htype] at hm ⊢
    simp only at hm ⊢
    rw [← hm.2]
    exact h.insert_rid rec.newData
  · rw [htype] at hm ⊢
    simp only at hm ⊢
    exact ⟨(Heap.pageId_lt hm).trans_eq (Heap.length_delete rec.rid).symm, (hh.of_tuple? hm).1⟩

/-- The numbers of the records do not matter. -/
theorem genuine_number (n : ℕ) (name : Str) : Genuine h (onTable name (LogManager.number n recs)) ↔
    Genuine h (onTable name recs) := by
  induction recs generalizing n h with
  | nil => exact Iff.rfl
  | cons rec recs ih =>
    unfold onTable at ih ⊢
    rw [LogManager.number]
    by_cases hrec : rec.tableName = name
    · rw [List.filter_cons_of_pos (by simpa using hrec), List.filter_cons_of_pos (by simpa using hrec),
        Genuine, Genuine, ih]
      exact Iff.rfl
    · rw [List.filter_cons_of_neg (by simpa using hrec), List.filter_cons_of_neg (by simpa using hrec),
        ih]

theorem heapOf_number (n : ℕ) (name : Str) (recs : List LogRecord) :
    heapOf (onTable name (LogManager.number n recs)) = heapOf (onTable name recs) := by
  unfold heapOf
  generalize [HeapPage.empty] = h
  induction recs generalizing n h with
  | nil => rfl
  | cons rec recs ih =>
    unfold onTable at ih ⊢
    rw [LogManager.number]
    by_cases hrec : rec.tableName = name
    · rw [List.filter_cons_of_pos (by simpa using hrec), List.filter_cons_of_pos (by simpa using hrec),
        List.foldl_cons, List.foldl_cons, ih]
      rfl
    · rw [List.filter_cons_of_neg (by simpa using hrec), List.filter_cons_of_neg (by simpa using hrec),
        ih]

end Records

/-! ## Records of transactions -/

open RecoveryManager in
/-- The analysis of the records has every transaction in the state in which the manager has it, and
no part of the log has one both active and committed. Ids have been given out in ascending order. -/
structure Orderly (mgr : TransactionManager) (records : List LogRecord) : Prop where
  active : ∀ id, id ∈ (analyze records).activeTxns ↔ mgr.transactions.find? id = some .active
  committed : ∀ id,
    id ∈ (analyze records).committedTxns ↔ mgr.transactions.find? id = some .committed
  aborted : ∀ id, id ∈ (analyze records).abortedTxns ↔ mgr.transactions.find? id = some .aborted
  apart : ∀ {recs id}, recs <+: records → id ∈ (analyze recs).activeTxns →
    id ∉ (analyze recs).committedTxns
  ids : ∃ n ≤ records.length, mgr.nextTxnId = Int32.ofNat (n + 1) ∧
    ∀ id, mgr.transactions.find? id ≠ none → ∃ m < n, id = Int32.ofNat (m + 1)

namespace Orderly

variable {mgr : TransactionManager} {records : List LogRecord} {j : Journal} {txnId : Int32}

theorem init : Orderly .new [] where
  active _ := by simp [RecoveryManager.analyze, TransactionManager.new]
  committed _ := by simp [RecoveryManager.analyze, TransactionManager.new]
  aborted _ := by simp [RecoveryManager.analyze, TransactionManager.new]
  apart hp := by
    rw [List.prefix_nil.mp hp]
    simp [RecoveryManager.analyze]
  ids := ⟨0, Nat.le_refl _, rfl, fun id hid => absurd rfl hid⟩

theorem ofNat_inj {m n : ℕ} (hm : m < 2 ^ 32) (hn : n < 2 ^ 32)
    (h : Int32.ofNat m = Int32.ofNat n) : m = n := by
  have hbits : m % 2 ^ 32 = n % 2 ^ 32 := congrArg (fun i : Int32 => i.toBitVec.toNat) h
  rwa [Nat.mod_eq_of_lt hm, Nat.mod_eq_of_lt hn] at hbits

/-- The next id is a new one, as long as the ids have not run out. -/
theorem fresh (h : Orderly mgr records) (hlen : records.length < 2 ^ 31) :
    mgr.transactions.find? mgr.nextTxnId = none := by
  obtain ⟨n, hn, hnext, hids⟩ := h.ids
  by_contra hfound
  obtain ⟨m, hm, heq⟩ := hids _ hfound
  have hsame := ofNat_inj (by omega) (by omega) (hnext.symm.trans heq)
  omega

/-- A transaction manager and a log after one more call, by what the call does to the state of a
transaction. -/
theorem step (h : Orderly mgr records) {mgr' : TransactionManager} {rec : LogRecord}
    (hactive : ∀ id, id ∈ (RecoveryManager.analyzeRecord (RecoveryManager.analyze records)
      rec).activeTxns ↔ mgr'.transactions.find? id = some .active)
    (hcommitted : ∀ id, id ∈ (RecoveryManager.analyzeRecord (RecoveryManager.analyze records)
      rec).committedTxns ↔ mgr'.transactions.find? id = some .committed)
    (haborted : ∀ id, id ∈ (RecoveryManager.analyzeRecord (RecoveryManager.analyze records)
      rec).abortedTxns ↔ mgr'.transactions.find? id = some .aborted)
    (hids : ∃ n ≤ records.length + 1, mgr'.nextTxnId = Int32.ofNat (n + 1) ∧
      ∀ id, mgr'.transactions.find? id ≠ none → ∃ m < n, id = Int32.ofNat (m + 1)) :
    Orderly mgr' (records ++ [rec]) where
  active := by rwa [RecoveryManager.analyze_concat]
  committed := by rwa [RecoveryManager.analyze_concat]
  aborted := by rwa [RecoveryManager.analyze_concat]
  apart := by
    intro recs id hp hmem hmem'
    rcases List.prefix_concat_iff.mp hp with rfl | hp
    · rw [RecoveryManager.analyze_concat, hactive] at hmem
      rw [RecoveryManager.analyze_concat, hcommitted, hmem] at hmem'
      cases hmem'
    · exact h.apart hp hmem hmem'
  ids := by rwa [List.length_append, List.length_singleton]

/-- A transaction that is begun. -/
theorem begin (h : Orderly mgr records) (hlen : records.length < 2 ^ 31) :
    Orderly mgr.begin.1 (records ++ [TxnCall.begin.record mgr]) := by
  have hfresh := h.fresh hlen
  have hfind : ∀ id, mgr.begin.1.transactions.find? id =
      if id = mgr.nextTxnId then some .active else mgr.transactions.find? id := by
    intro id
    rw [TransactionManager.begin, hfresh]
    exact Dict.find?_insert ..
  refine h.step (fun id => ?_) (fun id => ?_) (fun id => ?_) ?_
  · rw [hfind]
    by_cases hid : id = mgr.nextTxnId
    · simp [RecoveryManager.analyzeRecord, TxnCall.record, hid]
    · simp [RecoveryManager.analyzeRecord, TxnCall.record, hid, h.active]
  · rw [hfind]
    by_cases hid : id = mgr.nextTxnId
    · simp [RecoveryManager.analyzeRecord, TxnCall.record, hid, h.committed, hfresh]
    · simp [RecoveryManager.analyzeRecord, TxnCall.record, hid, h.committed]
  · rw [hfind]
    by_cases hid : id = mgr.nextTxnId
    · simp [RecoveryManager.analyzeRecord, TxnCall.record, hid, h.aborted, hfresh]
    · simp [RecoveryManager.analyzeRecord, TxnCall.record, hid, h.aborted]
  · obtain ⟨n, hn, hnext, hids⟩ := h.ids
    refine ⟨n + 1, by omega, ?_, fun id hid => ?_⟩
    · show mgr.nextTxnId + 1 = _
      rw [hnext]
      exact (Int32.ofNat_add (n + 1) 1).symm
    · rw [hfind] at hid
      split at hid
      case isTrue heq => exact ⟨n, Nat.lt_succ_self n, heq.trans hnext⟩
      case isFalse =>
        obtain ⟨m, hm, heq⟩ := hids id hid
        exact ⟨m, Nat.lt_succ_of_lt hm, heq⟩

/-- An active transaction that ends. -/
theorem finish (h : Orderly mgr records) (hactive : mgr.transactions.find? txnId = some .active)
    {state : TxnState} {rec : LogRecord} (hrec : rec.txnId = txnId)
    (hstate : state = .committed ∧ rec.type = .commitTxn ∨
      state = .aborted ∧ rec.type = .abortTxn) :
    Orderly (mgr.setState txnId state) (records ++ [rec]) := by
  have hmgr : mgr.setState txnId state =
      { mgr with transactions := mgr.transactions.insert txnId state } := by
    rw [TransactionManager.setState, hactive]
  have hfind : ∀ id, (mgr.setState txnId state).transactions.find? id =
      if id = txnId then some state else mgr.transactions.find? id := by
    intro id
    rw [hmgr]
    exact Dict.find?_insert ..
  refine h.step (fun id => ?_) (fun id => ?_) (fun id => ?_) ?_
  · rw [hfind]
    rcases hstate with ⟨rfl, htype⟩ | ⟨rfl, htype⟩
    · by_cases hid : id = txnId <;>
        simp [RecoveryManager.analyzeRecord, htype, hrec, hid, h.active]
    · by_cases hid : id = txnId <;>
        simp [RecoveryManager.analyzeRecord, htype, hrec, hid, h.active]
  · rw [hfind]
    rcases hstate with ⟨rfl, htype⟩ | ⟨rfl, htype⟩
    · by_cases hid : id = txnId <;>
        simp [RecoveryManager.analyzeRecord, htype, hrec, hid, h.committed]
    · by_cases hid : id = txnId <;>
        simp [RecoveryManager.analyzeRecord, htype, hid, h.committed, hactive]
  · rw [hfind]
    rcases hstate with ⟨rfl, htype⟩ | ⟨rfl, htype⟩
    · by_cases hid : id = txnId <;>
        simp [RecoveryManager.analyzeRecord, htype, hid, h.aborted, hactive]
    · by_cases hid : id = txnId <;>
        simp [RecoveryManager.analyzeRecord, htype, hrec, hid, h.aborted]
  · obtain ⟨n, hn, hnext, hids⟩ := h.ids
    refine ⟨n, by omega, by rw [hmgr]; exact hnext, fun id hid => ?_⟩
    rw [hfind] at hid
    split at hid
    case isTrue heq => exact hids id (by rw [heq, hactive]; simp)
    case isFalse => exact hids id hid

/-- A record of an insertion or a deletion. -/
theorem change (h : Orderly mgr records) {rec : LogRecord}
    (htype : rec.type = .insert ∨ rec.type = .delete) : Orderly mgr (records ++ [rec]) := by
  have hsame : RecoveryManager.analyzeRecord (RecoveryManager.analyze records) rec =
      RecoveryManager.analyze records := by
    unfold RecoveryManager.analyzeRecord
    rcases htype with htype | htype <;> rw [htype]
  obtain ⟨n, hn, hids⟩ := h.ids
  exact h.step (by rw [hsame]; exact h.active) (by rw [hsame]; exact h.committed)
    (by rw [hsame]; exact h.aborted) ⟨n, by omega, hids⟩

end Orderly

/-! ## Processes -/

/-- A process: its managers, and the ids of the files of its tables. -/
structure Process where
  mgr : TransactionManager
  log : LogManager
  storage : Storage
  tableFiles : Dict Str ℤ

/-- A call of a transaction on the tables. -/
inductive TxnOp
  | begin
  | insert (txnId : Int32) (tableName : Str) (data : Str)
  | delete (txnId : Int32) (tableName : Str) (rid : RID)
  | commit (txnId : Int32)
  | abort (txnId : Int32)
deriving DecidableEq

namespace Process

variable {α : Type}

/-- A process with a new log. -/
def start (disk : Str → Option File) (poolSize : ℕ) : Process :=
  ⟨.new, ⟨[], [], 1⟩, ⟨DiskManager.new disk, BufferPool.new poolSize⟩, .empty⟩

/-- A call of the page manager. -/
def onStorage (x : Program Storage Fault α) : Program Process Fault α :=
  x.zoom (·.storage) fun s p => { p with storage := s }

/-- A call of the managers of transactions and of the log. -/
def logged (call : TxnCall) : Program Process Fault Unit := Program.modify fun p => { p with
  mgr := (call.exec (p.mgr, p.log)).1
  log := (call.exec (p.mgr, p.log)).2 }

/-- A table created, and kept open. -/
def createTable (tableName : Str) : Program Process Fault Unit := do
  let fileId ← onStorage (PageManager.createTable tableName)
  Program.modify fun p => { p with tableFiles := p.tableFiles.insert tableName fileId }

/-- The file of a table, for a transaction that is active. -/
def access (p : Process) (txnId : Int32) (tableName : Str) : Option ℤ :=
  match p.mgr.transactions.find? txnId with
  | some .active => p.tableFiles.find? tableName
  | _ => none

/-- A call of a transaction. One that has ended makes no calls, and what is not there is not
deleted. -/
def exec : TxnOp → Program Process Fault Unit
  | .begin => logged .begin
  | .insert txnId tableName data => do
    match (← Program.get).access txnId tableName with
    | none => return ()
    | some fileId =>
      let rid ← onStorage (PageManager.insertTuple fileId data data.length)
      logged (.insert txnId tableName rid data)
  | .delete txnId tableName rid => do
    let p ← Program.get
    match p.access txnId tableName with
    | none => return ()
    | some fileId =>
      if rid.pageId < PageManager.getPageCount p.storage fileId then
        let oldData ← onStorage (PageManager.readTuple fileId rid)
        if oldData ≠ [] then
          onStorage (PageManager.deleteTuple fileId rid)
          logged (.delete txnId tableName rid oldData)
  | .commit txnId => do
    if (← Program.get).mgr.transactions.find? txnId = some .active then
      logged (.commit txnId)
  | .abort txnId => do
    if (← Program.get).mgr.transactions.find? txnId = some .active then
      logged (.abort txnId)

/-- Tables created, and calls made on them. -/
def workload (names : List Str) (ops : List TxnOp) : Program Process Fault Unit := do
  names.foldlM (fun _ name => createTable name) ()
  ops.foldlM (fun _ op => exec op) ()

/-- The bytes of the log in its file after a crash that has lost what was in the stream, but for the
first `cut` bytes of it. -/
def crash (p : Process) (cut : ℕ) : Str := p.log.file ++ p.log.pending.take cut

end Process

/-- The tuple of an insertion has a size that can be stored. -/
def TxnOp.Storable : TxnOp → Prop
  | .insert _ _ data => MiniDB.Storable data
  | _ => True

instance : ∀ op : TxnOp, Decidable op.Storable
  | .insert _ _ data => inferInstanceAs (Decidable (MiniDB.Storable data))
  | .begin | .delete .. | .commit _ | .abort _ => inferInstanceAs (Decidable True)

/-- The fields that a record of a process has. -/
def LogRecord.Shaped (names : List Str) (rec : LogRecord) : Prop :=
  match rec.type with
  | .insert => rec.tableName ∈ names ∧ rec.oldData = []
  | .delete => rec.tableName ∈ names ∧ rec.newData = []
  | .beginTxn | .commitTxn | .abortTxn =>
    rec.tableName = [] ∧ rec.oldData = [] ∧ rec.newData = [] ∧ rec.rid = ⟨0, 0⟩
  | _ => False

/-- The tables are open, and hold these heaps. -/
def Holding (tableFiles : Dict Str ℤ) (heaps : Str → Heap) (s : Storage) : Prop :=
  ∃ H, Stores H s ∧
    (∀ {name f}, tableFiles.find? name = some f → H f = some ⟨tableFile name, heaps name⟩) ∧
    ∀ {f h}, H f = some h → ∃ name, tableFiles.find? name = some f ∧ h.path = tableFile name

namespace Process

/-- The log of the process tells of its transactions and of the heaps of its tables. -/
structure Tracked (names : List Str) (j : Journal) (p : Process) : Prop where
  log : j.Tracks [] 1 (p.mgr, p.log)
  orderly : Orderly j.mgr j.records
  shaped : ∀ rec ∈ j.records, rec.Shaped names
  genuine : ∀ name, Genuine [HeapPage.empty] (onTable name j.records)
  heaps : Holding p.tableFiles (fun name => heapOf (onTable name j.records)) p.storage
  tables : ∀ name, p.tableFiles.find? name ≠ none ↔ name ∈ names
  pending : ∀ rec ∈ j.pending, rec.txnId ∉ (RecoveryManager.analyze j.records).committedTxns

variable {names : List Str} {j : Journal} {p : Process} {name : Str}

/-- A call on an open table changes the heap of that table. -/
theorem holding_update {tableFiles : Dict Str ℤ} {heaps : Str → Heap} {s' : Storage} {f : ℤ}
    {h' : Heap} {H : Heaps}
    (hopen : ∀ {name f}, tableFiles.find? name = some f → H f = some ⟨tableFile name, heaps name⟩)
    (hback : ∀ {f h}, H f = some h →
      ∃ name, tableFiles.find? name = some f ∧ h.path = tableFile name)
    (hf : tableFiles.find? name = some f)
    (hs' : Stores (Function.update H f (some ⟨tableFile name, h'⟩)) s') :
    Holding tableFiles (Function.update heaps name h') s' := by
  refine ⟨_, hs', fun {name' g} hg => ?_, fun {g h} hg => ?_⟩
  · by_cases hgf : g = f
    · subst hgf
      obtain rfl : name' = name := by
        have hsame := (hopen hf).symm.trans (hopen hg)
        exact (tableFile_inj (congrArg HeapFile.path (Option.some.inj hsame))).symm
      rw [Function.update_self, Function.update_self]
    · have hne : name' ≠ name := by
        rintro rfl
        exact hgf (Option.some.inj (hg.symm.trans hf))
      rw [Function.update_of_ne hgf, Function.update_of_ne hne]
      exact hopen hg
  · by_cases hgf : g = f
    · subst hgf
      rw [Function.update_self] at hg
      exact ⟨name, hf, Option.some.inj hg ▸ rfl⟩
    · rw [Function.update_of_ne hgf] at hg
      exact hback hg

/-- The heaps of the tables after one more record. -/
theorem heaps_concat (records : List LogRecord) (rec : LogRecord) :
    (fun name => heapOf (onTable name (records ++ [rec]))) =
      Function.update (fun name => heapOf (onTable name records)) rec.tableName
        (rec.applied (heapOf (onTable rec.tableName records))) := by
  funext name
  rw [onTable_concat]
  split
  case isTrue hname =>
    subst hname
    rw [heapOf_concat, Function.update_self]
  case isFalse hname => rw [Function.update_of_ne (Ne.symm hname)]

/-- A call that is logged, with what it did to the tables. -/
theorem Tracked.logged (h : Tracked names j p) {call : TxnCall} {s' : Storage}
    (horderly : Orderly (j.exec call).mgr (j.records ++ [call.record j.mgr]))
    (hshaped : (call.record j.mgr).Shaped names)
    (hmatches : (call.record j.mgr).Matches
      (heapOf (onTable (call.record j.mgr).tableName j.records)))
    (hheaps : Holding p.tableFiles (Function.update
      (fun name => heapOf (onTable name j.records)) (call.record j.mgr).tableName
      ((call.record j.mgr).applied (heapOf (onTable (call.record j.mgr).tableName j.records)))) s')
    (hstate : (∃ txnId, call = .commit txnId) ∨ (call.record j.mgr).type ≠ .commitTxn ∧
      (j.exec call).mgr.transactions.find? (call.record j.mgr).txnId ≠ some .committed) :
    wp (· = .io) (Process.logged call) (fun _ p' => Tracked names (j.exec call) p')
      { p with storage := s' } where
  log := h.log.exec call
  orderly := by rwa [Journal.records_exec]
  shaped := by
    intro rec hrec
    rw [Journal.records_exec, List.mem_append, List.mem_singleton] at hrec
    rcases hrec with hrec | rfl
    · exact h.shaped rec hrec
    · exact hshaped
  genuine := by
    intro name
    rw [Journal.records_exec, onTable_concat]
    split
    case isFalse => exact h.genuine name
    case isTrue hname =>
      subst hname
      exact genuine_concat.mpr ⟨h.genuine _, hmatches⟩
  heaps := by rwa [Journal.records_exec, heaps_concat]
  tables := h.tables
  pending := by
    intro rec hrec
    rw [Journal.records_exec]
    -- A commit flushes the log; any other record waits, and is not of a committed transaction.
    rcases hstate with ⟨txnId, rfl⟩ | ⟨htype, hstate⟩
    · cases hrec
    · have hpending : (j.exec call).pending = j.pending ++ [call.record j.mgr] := by
        cases call with
        | commit txnId => exact absurd rfl htype
        | _ => rfl
      rw [hpending, List.mem_append, List.mem_singleton] at hrec
      rcases hrec with hrec | rfl
      · have hsame : (RecoveryManager.analyzeRecord (RecoveryManager.analyze j.records)
            (call.record j.mgr)).committedTxns =
            (RecoveryManager.analyze j.records).committedTxns := by
          unfold RecoveryManager.analyzeRecord
          split <;> first | rfl | contradiction
        rw [RecoveryManager.analyze_concat, hsame]
        exact h.pending rec hrec
      · rw [horderly.committed]
        exact hstate

/-- A call that begins or ends a transaction. -/
theorem Tracked.transaction (h : Tracked names j p) {call : TxnCall}
    (horderly : Orderly (j.exec call).mgr (j.records ++ [call.record j.mgr]))
    (hcall : call = .begin ∨ ∃ txnId, call = .commit txnId ∨ call = .abort txnId)
    (hstate : (∃ txnId, call = .commit txnId) ∨ (call.record j.mgr).type ≠ .commitTxn ∧
      (j.exec call).mgr.transactions.find? (call.record j.mgr).txnId ≠ some .committed) :
    wp (· = .io) (Process.logged call) (fun _ p' => Tracked names (j.exec call) p') p := by
  have hshaped : (call.record j.mgr).Shaped names := by
    rcases hcall with rfl | ⟨txnId, rfl | rfl⟩ <;> exact ⟨rfl, rfl, rfl, rfl⟩
  have hmatches : ∀ g, (call.record j.mgr).Matches g := by
    rcases hcall with rfl | ⟨txnId, rfl | rfl⟩ <;> exact fun _ => trivial
  have hsame : ∀ g, (call.record j.mgr).applied g = g := by
    rcases hcall with rfl | ⟨txnId, rfl | rfl⟩ <;> exact fun _ => rfl
  refine h.logged horderly hshaped (hmatches _) ?_ hstate
  rw [hsame]
  have hupdate : Function.update (fun name => heapOf (onTable name j.records))
      (call.record j.mgr).tableName (heapOf (onTable (call.record j.mgr).tableName j.records)) =
      fun name => heapOf (onTable name j.records) := Function.update_eq_self _ _
  rw [hupdate]
  exact h.heaps

/-- A transaction with access to a table is active. -/
theorem access_eq_some {txnId : Int32} {f : ℤ} (h : p.access txnId name = some f) :
    p.mgr.transactions.find? txnId = some .active ∧ p.tableFiles.find? name = some f := by
  unfold access at h
  split at h
  case h_1 hactive => exact ⟨hactive, h⟩
  case h_2 => cases h

/-- A call of a transaction appends at most one record. -/
theorem Tracked.exec (h : Tracked names j p) {op : TxnOp} (hop : op.Storable)
    (hlen : j.records.length < 2 ^ 31) :
    wp (· = .io) (Process.exec op) (fun _ p' => ∃ j', Tracked names j' p' ∧
      j'.records.length ≤ j.records.length + 1) p := by
  have hmgr : p.mgr = j.mgr := congrArg Prod.fst h.log
  have hskip : ∃ j', Tracked names j' p ∧ j'.records.length ≤ j.records.length + 1 :=
    ⟨j, h, Nat.le_succ _⟩
  have hcall : ∀ {call : TxnCall} {p' : Process}, Tracked names (j.exec call) p' →
      ∃ j', Tracked names j' p' ∧ j'.records.length ≤ j.records.length + 1 := by
    intro call p' h'
    refine ⟨_, h', ?_⟩
    rw [Journal.records_exec, List.length_append]
    exact Nat.le_refl _
  obtain ⟨H, hstores, hopen, hback⟩ := h.heaps
  cases op with
  | begin =>
    have hstate : j.mgr.begin.1.transactions.find? j.mgr.nextTxnId = some .active := by
      rw [TransactionManager.begin, h.orderly.fresh hlen]
      exact Dict.find?_insert_self ..
    refine wp_mono (h.transaction (h.orderly.begin hlen) (Or.inl rfl) (Or.inr ⟨by rintro ⟨⟩, ?_⟩))
      fun _ _ => hcall
    exact fun hcommitted => by cases hstate.symm.trans hcommitted
  | commit txnId =>
    simp only [Process.exec, wp_bind, wp_get]
    split
    case isFalse => exact hskip
    case isTrue hactive =>
      rw [hmgr] at hactive
      refine wp_mono (h.transaction ?_ (Or.inr ⟨txnId, Or.inl rfl⟩) (Or.inl ⟨txnId, rfl⟩))
        fun _ _ => hcall
      exact h.orderly.finish hactive rfl (Or.inl ⟨rfl, rfl⟩)
  | abort txnId =>
    simp only [Process.exec, wp_bind, wp_get]
    split
    case isFalse => exact hskip
    case isTrue hactive =>
      rw [hmgr] at hactive
      have hstate : (j.mgr.abort txnId).transactions.find? txnId = some .aborted := by
        rw [TransactionManager.abort, TransactionManager.setState, hactive]
        exact Dict.find?_insert_self ..
      refine wp_mono (h.transaction ?_ (Or.inr ⟨txnId, Or.inr rfl⟩) (Or.inr ⟨by rintro ⟨⟩, ?_⟩))
        fun _ _ => hcall
      · exact h.orderly.finish hactive rfl (Or.inr ⟨rfl, rfl⟩)
      · exact fun hcommitted => by cases hstate.symm.trans hcommitted
  | insert txnId name data =>
    simp only [Process.exec, wp_bind, wp_get]
    cases haccess : p.access txnId name with
    | none => exact hskip
    | some f =>
      obtain ⟨hactive, hf⟩ := access_eq_some haccess
      rw [hmgr] at hactive
      have hname : name ∈ names := (h.tables name).mp (by rw [hf]; simp)
      simp only [onStorage, wp_zoom, wp_bind]
      refine wp_mono (hstores.insertTuple (hopen hf) hop.2) ?_
      rintro rid s' ⟨rfl, hs'⟩
      refine wp_mono (h.logged (h.orderly.change (Or.inl rfl)) ⟨hname, rfl⟩ ⟨hop, rfl⟩ ?_
        (Or.inr ⟨by rintro ⟨⟩, ?_⟩)) fun _ _ => hcall
      · exact holding_update hopen hback hf hs'
      · exact fun hcommitted => by cases hactive.symm.trans hcommitted
  | delete txnId name rid =>
    simp only [Process.exec, wp_bind, wp_get]
    cases haccess : p.access txnId name with
    | none => exact hskip
    | some f =>
      obtain ⟨hactive, hf⟩ := access_eq_some haccess
      rw [hmgr] at hactive
      have hname : name ∈ names := (h.tables name).mp (by rw [hf]; simp)
      simp only
      split
      case isFalse => exact hskip
      case isTrue hpage =>
        rw [PageManager.getPageCount, hstores.getFilePageCount (hopen hf)] at hpage
        simp only [onStorage, wp_zoom, wp_bind]
        refine wp_mono_total (hstores.readTuple (hopen hf) hpage) ?_
        rintro oldData s₁ ⟨hold, hs₁⟩
        split
        case isFalse =>
          exact ⟨j, ⟨h.log, h.orderly, h.shaped, h.genuine, ⟨H, hs₁, hopen, hback⟩, h.tables,
            h.pending⟩, Nat.le_succ _⟩
        case isTrue hne =>
          have htuple : (heapOf (onTable name j.records)).tuple? rid = some oldData := by
            cases hrid : (heapOf (onTable name j.records)).tuple? rid with
            | none => exact absurd (hold.trans (by rw [hrid]; rfl)) hne
            | some bytes => rw [hold, hrid]; rfl
          simp only [wp_bind, wp_zoom]
          refine wp_mono_total (hs₁.deleteTuple (hopen hf) hpage) ?_
          rintro - s₂ hs₂
          refine wp_mono (h.logged (h.orderly.change (Or.inr rfl)) ⟨hname, rfl⟩ htuple ?_
            (Or.inr ⟨by rintro ⟨⟩, ?_⟩)) fun _ _ => hcall
          · exact holding_update hopen hback hf hs₂
          · exact fun hcommitted => by cases hactive.symm.trans hcommitted

/-- A table created before the first call. -/
theorem Tracked.createTable (h : Tracked names {} p) (hname : name ∉ names) :
    wp (· = .io) (Process.createTable name)
      (fun _ p' => Tracked (names ++ [name]) {} p') p := by
  obtain ⟨H, hstores, hopen, hback⟩ := h.heaps
  -- Truncating the file does no harm: no open table has its path.
  have hpath : ∀ {g hf}, H g = some hf → hf.path ≠ DiskManager.fullPath (name ++ lit ".db") := by
    intro g hf hg hp
    obtain ⟨name', hname', hpath'⟩ := hback hg
    obtain rfl : name' = name := tableFile_inj (hpath'.symm.trans hp)
    exact hname ((h.tables name').mp (by rw [hname']; simp))
  simp only [Process.createTable, onStorage, wp_bind, wp_zoom, wp_modify]
  refine wp_mono (hstores.createTable name hpath) ?_
  rintro f s' ⟨hnone, hs'⟩
  refine ⟨h.log, h.orderly, by rintro rec ⟨⟩, h.genuine,
    ⟨_, hs', fun {name' g} hg => ?_, fun {g hf} hg => ?_⟩, fun name' => ?_, by rintro rec ⟨⟩⟩
  · by_cases hn : name' = name
    · subst hn
      rw [Dict.find?_insert_self] at hg
      obtain rfl := Option.some.inj hg
      exact Function.update_self ..
    · rw [Dict.find?_insert_of_ne _ _ hn] at hg
      have hgf : g ≠ f := by
        rintro rfl
        rw [hopen hg] at hnone
        cases hnone
      rw [Function.update_of_ne hgf]
      exact hopen hg
  · by_cases hgf : g = f
    · subst hgf
      rw [Function.update_self] at hg
      exact ⟨name, Dict.find?_insert_self .., Option.some.inj hg ▸ rfl⟩
    · rw [Function.update_of_ne hgf] at hg
      obtain ⟨name', hname', hpath'⟩ := hback hg
      have hn : name' ≠ name := by
        rintro rfl
        exact hpath hg hpath'
      exact ⟨name', by rw [Dict.find?_insert_of_ne _ _ hn]; exact hname', hpath'⟩
  · rw [List.mem_append, List.mem_singleton, ← h.tables]
    by_cases hn : name' = name
    · subst hn
      simp [Dict.find?_insert_self]
    · simp [Dict.find?_insert_of_ne _ _ hn, hn]

theorem tracked_start (disk : Str → Option File) {poolSize : ℕ} (hpool : 0 < poolSize) :
    Tracked [] {} (start disk poolSize) where
  log := rfl
  orderly := Orderly.init
  shaped := nofun
  genuine _ := trivial
  heaps := ⟨_, Stores.stores_new disk hpool, nofun, nofun⟩
  tables _ := by simp [start]
  pending := nofun

/-- The log of every process that has created tables and run transactions tells of them; only a
failed disk operation ends such a run. -/
theorem workload_spec (disk : Str → Option File) {poolSize : ℕ} (hpool : 0 < poolSize)
    (hnames : names.Nodup) {ops : List TxnOp} (hops : ∀ op ∈ ops, op.Storable)
    (hlen : ops.length ≤ 2 ^ 31) :
    wp (· = .io) (workload names ops)
      (fun _ p => ∃ j, Tracked names j p ∧ j.records.length ≤ ops.length) (start disk poolSize) := by
  rw [workload, wp_bind]
  have hcreate : wp (· = .io) (names.foldlM (fun _ name => createTable name) ())
      (fun _ p => Tracked names {} p) (start disk poolSize) := by
    refine wp_foldlM (fun done _ p => Tracked done {} p) names ?_ (tracked_start disk hpool)
    rintro done name rest - p hsplit h
    refine h.createTable fun hmem => ?_
    rw [hsplit, List.nodup_append] at hnames
    exact hnames.2.2 name hmem name List.mem_cons_self rfl
  refine wp_mono hcreate fun _ p h => ?_
  -- Each call leaves one record at most, so the ids do not run out.
  refine wp_foldlM (fun done _ p => ∃ j, Tracked names j p ∧ j.records.length ≤ done.length) ops ?_
    ⟨{}, h, Nat.le_refl _⟩
  rintro done op rest - p hsplit ⟨j, hj, hdone⟩
  have hlt : done.length < ops.length := by
    rw [hsplit, List.length_append, List.length_cons]
    omega
  have hop : op ∈ ops := by rw [hsplit]; simp
  refine wp_mono (hj.exec (hops op hop) (by omega)) ?_
  rintro - p' ⟨j', hj', hle⟩
  refine ⟨j', hj', ?_⟩
  rw [List.length_append, List.length_singleton]
  omega

/-! ## The log after a crash -/

/-- A record of a history, with the heap it was made on. -/
theorem exists_split {recs : List LogRecord} {rec : LogRecord} (hg : Genuine [HeapPage.empty] recs)
    (hrec : rec ∈ recs) : ∃ before after, recs = before ++ rec :: after ∧
      rec.Matches (heapOf before) ∧ (heapOf before).Tidy ∧
      (rec.applied (heapOf before)).length ≤ (heapOf recs).length := by
  obtain ⟨before, after, rfl⟩ := List.append_of_mem hrec
  have hpre : before ++ [rec] <+: before ++ rec :: after := ⟨after, by simp⟩
  obtain ⟨hbefore, hm⟩ := genuine_concat.mp (hg.of_isPrefix hpre)
  refine ⟨before, after, rfl, hm, hbefore.tidy, ?_⟩
  rw [← heapOf_concat]
  exact length_heapOf_le hpre

/-- The images of the records, and the pages they are about. -/
theorem Tracked.fits (h : Tracked names j p) {rec : LogRecord} (hrec : rec ∈ j.records) :
    rec.newData.length ≤ MAX_TUPLE ∧ rec.oldData.length ≤ MAX_TUPLE ∧
      rec.rid.slotNum < MAX_SLOTS_PER_PAGE ∧
      rec.rid.pageId < max 1 (heapOf (onTable rec.tableName j.records)).length := by
  have hshape := h.shaped rec hrec
  have htable : rec ∈ onTable rec.tableName j.records :=
    List.mem_filter.mpr ⟨hrec, decide_eq_true rfl⟩
  obtain ⟨before, after, -, hm, htidy, hle⟩ := exists_split (h.genuine _) htable
  unfold LogRecord.Shaped at hshape
  split at hshape
  case h_1 htype =>
    obtain ⟨hpage, hslot⟩ := hm.rid htidy (Or.inl htype)
    rw [LogRecord.Matches, htype] at hm
    exact ⟨hm.1.2, by rw [hshape.2]; exact Nat.zero_le _, hslot, by omega⟩
  case h_2 htype =>
    obtain ⟨hpage, hslot⟩ := hm.rid htidy (Or.inr htype)
    rw [LogRecord.Matches, htype] at hm
    exact ⟨by rw [hshape.2]; exact Nat.zero_le _, (htidy.of_tuple? hm).2.2, hslot, by omega⟩
  case h_6 => exact hshape.elim
  all_goals
    obtain ⟨-, hold, hnew, hrid⟩ := hshape
    rw [hold, hnew, hrid]
    exact ⟨Nat.zero_le _, Nat.zero_le _, by decide, by simp⟩

theorem one_le_length_heapOf (recs : List LogRecord) : 1 ≤ (heapOf recs).length :=
  length_heapOf_le List.nil_prefix

/-- The records of what is no table of the process change no heap. -/
theorem Tracked.heapOf_other (h : Tracked names j p) (hname : name ∉ names) :
    heapOf (onTable name j.records) = [HeapPage.empty] := by
  have hsame : ∀ rec ∈ onTable name j.records, ∀ g, rec.applied g = g := by
    intro rec hrec g
    obtain ⟨hmem, htable⟩ := List.mem_filter.mp hrec
    obtain rfl : rec.tableName = name := of_decide_eq_true htable
    have hshape := h.shaped rec hmem
    unfold LogRecord.Shaped at hshape
    unfold LogRecord.applied
    cases htype : rec.type with
    | insert => rw [htype] at hshape; exact absurd hshape.1 hname
    | delete => rw [htype] at hshape; exact absurd hshape.1 hname
    | _ => rfl
  exact List.foldlRecOn (motive := (· = [HeapPage.empty])) _ LogRecord.applied rfl
    fun g hg rec hrec => (hsame rec hrec g).trans hg

/-- The fields of the records have the widths of their types, as long as the pages have 32-bit
numbers. -/
theorem Tracked.wellFormed (h : Tracked names j p) (hnames : ∀ name ∈ names, name.length < 2 ^ 16)
    (hpages : ∀ name, (heapOf (onTable name j.records)).length ≤ 2 ^ 32) :
    ∀ rec ∈ j.records, rec.WellFormed := by
  intro rec hrec
  obtain ⟨hnew, hold, hslot, hpage⟩ := h.fits hrec
  have hshape := h.shaped rec hrec
  have hsize : MAX_TUPLE = 3576 := rfl
  have hslots : MAX_SLOTS_PER_PAGE = 128 := rfl
  have hname : rec.tableName.length < 2 ^ 16 := by
    unfold LogRecord.Shaped at hshape
    split at hshape
    case h_1 => exact hnames _ hshape.1
    case h_2 => exact hnames _ hshape.1
    case h_6 => exact hshape.elim
    all_goals
      rw [hshape.1]
      decide
  refine ⟨?_, hname, ?_, by omega, ?_⟩
  · unfold LogRecord.Shaped at hshape
    split at hshape
    case h_6 => exact hshape.elim
    all_goals
      rename_i htype
      rw [htype]
      rfl
  · have hle := hpages rec.tableName
    omega
  · rw [LogManager.length_serializeRecord]
    omega

/-- What is read of the log after a crash: all that was flushed, and some of the records behind
it. -/
theorem Tracked.crash_reads (h : Tracked names j p) (hwf : ∀ rec ∈ j.records, rec.WellFormed)
    (hlen : j.records.length < 2 ^ 63) (cut : ℕ) :
    LogManager.readAllRecords (p.crash cut) = .ok (LogManager.number 1 (j.kept cut)) := by
  have hlog : p.log = ⟨[] ++ LogManager.framed 1 j.flushed,
      LogManager.framed (1 + j.flushed.length) j.pending,
      1 + j.flushed.length + j.pending.length⟩ := congrArg Prod.snd h.log
  obtain ⟨tail, htail, hread, -⟩ := Journal.framed_kept
    (fun r hr => hwf r (List.mem_append_right _ hr)) 1 cut
  have hkept := j.kept_isPrefix cut
  have hle := hkept.length_le
  rw [crash, hlog, List.nil_append, htail,
    LogManager.readAllRecords_framed (fun r hr => hwf r (hkept.subset hr)) (by omega), hread,
    Machine.ok_map, List.append_nil]

/-- The records that are read after a crash are records of the process. -/
theorem mem_kept {cut : ℕ} {rec : LogRecord} (hrec : rec ∈ LogManager.number 1 (j.kept cut)) :
    ∃ rec' ∈ j.records, ∃ k, rec = { rec' with lsn := k } := by
  obtain ⟨rec', hrec', hstamp⟩ := LogManager.mem_number hrec
  exact ⟨rec', (j.kept_isPrefix cut).subset hrec', hstamp⟩

/-- A crash loses no record of a committed transaction. -/
theorem Tracked.mem_kept_of_committed (h : Tracked names j p) (cut : ℕ) {rec : LogRecord}
    (hrec : rec ∈ LogManager.number 1 j.records)
    (hcommitted : rec.txnId ∈ (RecoveryManager.analyze j.records).committedTxns) :
    rec ∈ LogManager.number 1 (j.kept cut) := by
  rw [Journal.records, LogManager.number_append] at hrec
  rcases List.mem_append.mp hrec with hrec | hrec
  · rw [Journal.kept, LogManager.number_append]
    exact List.mem_append_left _ hrec
  · obtain ⟨rec', hrec', k, rfl⟩ := LogManager.mem_number hrec
    exact absurd hcommitted (h.pending rec' hrec')

theorem Tracked.committed_kept (h : Tracked names j p) (cut : ℕ) :
    (RecoveryManager.analyze (j.kept cut)).committedTxns =
      (RecoveryManager.analyze j.records).committedTxns := by
  ext txnId
  constructor
  · intro hmem
    obtain ⟨r, hr, hcommit⟩ := RecoveryManager.mem_committedTxns.mp hmem
    exact RecoveryManager.mem_committedTxns.mpr ⟨r, (j.kept_isPrefix cut).subset hr, hcommit⟩
  · intro hmem
    obtain ⟨r, hr, htype, rfl⟩ := RecoveryManager.mem_committedTxns.mp hmem
    refine RecoveryManager.mem_committedTxns.mpr ⟨r, ?_, htype, rfl⟩
    rcases List.mem_append.mp hr with hr | hr
    · exact List.mem_append_left _ hr
    · exact absurd hmem (h.pending r hr)

/-- A record with a call is about a table of the process. -/
theorem Tracked.table_of_call (h : Tracked names j p) {cut : ℕ} {rec : LogRecord}
    (hrec : rec ∈ LogManager.number 1 (j.kept cut)) {call : HeapCall}
    (hcall : rec.redone = some call ∨ rec.undone = some call) : rec.tableName ∈ names := by
  obtain ⟨rec', hrec', k, rfl⟩ := mem_kept hrec
  have hshape := h.shaped rec' hrec'
  rw [LogRecord.Shaped] at hshape
  rcases LogRecord.type_of_call hcall with htype | htype
  · rw [show rec'.type = .insert from htype] at hshape
    exact hshape.1
  · rw [show rec'.type = .delete from htype] at hshape
    exact hshape.1

/-- The records that are read after a crash can be replayed on tables that have not lost pages. -/
theorem Tracked.replayable (h : Tracked names j p) {D : HeapTables}
    (hD : ∀ name ∈ names, ∀ g, D name = some g →
      (heapOf (onTable name j.records)).length ≤ g.length) (cut : ℕ) :
    ∀ rec ∈ LogManager.number 1 (j.kept cut), D.Replayable rec := by
  intro rec hrec g hg call hcall
  have hle := hD _ (h.table_of_call hrec hcall) g hg
  obtain ⟨rec', hrec', k, rfl⟩ := mem_kept hrec
  obtain ⟨hnew, hold, -, hpage⟩ := h.fits hrec'
  have hone := one_le_length_heapOf (onTable rec'.tableName j.records)
  have hlt : rec'.rid.pageId < g.length := by
    simp only at hle
    omega
  rcases LogRecord.call_cases hcall with rfl | ⟨rfl, -⟩ | ⟨rfl, -⟩
  · exact hlt
  · exact hnew
  · exact hold

/-- Recovery leaves alone what is no table of the process. -/
theorem Tracked.recover_other (h : Tracked names j p) {D : HeapTables} (hname : name ∉ names)
    (cut : ℕ) : D.recover (LogManager.number 1 (j.kept cut)) name = D name := by
  have hcalls : recoverCalls (LogManager.number 1 (j.kept cut)) name = [] := by
    refine List.eq_nil_iff_forall_not_mem.mpr fun call hcall => ?_
    obtain ⟨rec, hrec, rfl, hcase⟩ := mem_recoverCalls hcall
    exact hname (h.table_of_call hrec (hcase.imp And.right And.right))
  rw [HeapTables.recover, HeapTables.apply, hcalls]
  split
  · rfl
  · exact Option.map_id'

end Process

end MiniDB
