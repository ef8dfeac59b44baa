import MiniDB.Recovery.LogManager
import MiniDB.Storage.Reopen

/-!
# The recovery manager

`Recovery.h` and `Recovery.cpp`: the log is read from its beginning, the transactions are sorted
into active, committed and aborted ones, the operations of the committed ones are applied again in
the order of the log, and those of the active ones are reversed from its end. What recovery does to
the tables is a function of the records and of their heaps.

## Main definitions

* `RecoveryManager.analyze`, `RecoveryManager.redoPhase`, `RecoveryManager.undoPhase`,
  `RecoveryManager.recover`: the phases of the source
* `LogRecord.redone`, `LogRecord.undone`: the calls on a heap file that a record stands for
* `recoverCalls`: the calls that recovery makes on a table
* `HeapTables.recover`: these calls on the heaps of the tables
* `HeapTables.Replayable`: a record whose calls fit the heaps

## Main results

* `RecoveryManager.recover_spec`: recovery of the tables on the disk returns, and it is recovery of
  their heaps
-/

namespace MiniDB

open Program

/-- The transactions of a log by what has become of them. -/
structure Analysis where
  activeTxns : Finset Int32 := ∅
  committedTxns : Finset Int32 := ∅
  abortedTxns : Finset Int32 := ∅

namespace RecoveryManager

/-- The body of the loop of the analysis phase. -/
def analyzeRecord (a : Analysis) (rec : LogRecord) : Analysis :=
  match rec.type with
  | .beginTxn => { a with activeTxns := insert rec.txnId a.activeTxns }
  | .commitTxn => { a with
      activeTxns := a.activeTxns.erase rec.txnId
      committedTxns := insert rec.txnId a.committedTxns }
  | .abortTxn => { a with
      activeTxns := a.activeTxns.erase rec.txnId
      abortedTxns := insert rec.txnId a.abortedTxns }
  | _ => a

/-- The analysis phase. -/
def analyze (records : List LogRecord) : Analysis := records.foldl analyzeRecord {}

/-- The body of the loop that opens the tables. -/
def openTableOf (tableFiles : Dict Str ℤ) (rec : LogRecord) : Program Storage Fault (Dict Str ℤ) :=
  if rec.tableName ≠ [] ∧ tableFiles.find? rec.tableName = none then do
    let fileId ← PageManager.openTable rec.tableName
    return if 0 ≤ fileId then tableFiles.insert rec.tableName fileId else tableFiles
  else return tableFiles

/-- `insertTuple` on the bytes of a record, if there are any. -/
def insertImage (fileId : ℤ) (data : Str) : Program Storage Fault Unit := do
  if data ≠ [] then
    let _ ← PageManager.insertTuple fileId data (data.length % 2 ^ 16)

/-- The body of the loop of `redoPhase`. -/
def redoRecord (committedTxns : Finset Int32) (tableFiles : Dict Str ℤ) (rec : LogRecord) :
    Program Storage Fault Unit :=
  if rec.txnId ∈ committedTxns then
    match tableFiles.find? rec.tableName with
    | none => return ()
    | some fileId =>
      match rec.type with
      | .insert => insertImage fileId rec.newData
      | .delete => PageManager.deleteTuple fileId rec.rid
      | _ => return ()
  else return ()

/-- `RecoveryManager::redoPhase`. -/
def redoPhase (records : List LogRecord) (committedTxns : Finset Int32)
    (tableFiles : Dict Str ℤ) : Program Storage Fault Unit :=
  records.foldlM (fun _ rec => redoRecord committedTxns tableFiles rec) ()

/-- The body of the loop of `undoPhase`. -/
def undoRecord (uncommittedTxns : Finset Int32) (tableFiles : Dict Str ℤ) (rec : LogRecord) :
    Program Storage Fault Unit :=
  if rec.txnId ∈ uncommittedTxns then
    match tableFiles.find? rec.tableName with
    | none => return ()
    | some fileId =>
      match rec.type with
      | .insert => PageManager.deleteTuple fileId rec.rid
      | .delete => insertImage fileId rec.oldData
      | _ => return ()
  else return ()

/-- `RecoveryManager::undoPhase`. -/
def undoPhase (records : List LogRecord) (uncommittedTxns : Finset Int32)
    (tableFiles : Dict Str ℤ) : Program Storage Fault Unit :=
  records.reverse.foldlM (fun _ rec => undoRecord uncommittedTxns tableFiles rec) ()

/-- `RecoveryManager::recover` with a log file of these bytes. -/
def recover (file : Str) : Program Storage Fault Unit := do
  let records ← Program.lift (LogManager.readAllRecords file)
  if records = [] then return ()
  else
    let a := analyze records
    let tableFiles ← records.foldlM openTableOf .empty
    redoPhase records a.committedTxns tableFiles
    undoPhase records a.activeTxns tableFiles

/-- Recovery, and a flush of all pages. -/
def recoverAndFlush (file : Str) : Program Storage Fault Unit := do
  recover file
  Storage.flushAllPages

/-- `RecoveryManager::checkpoint`. -/
def checkpoint (log : LogManager) : LogManager :=
  (log.appendLog { type := .checkpoint, txnId := 0 }).flushLog

end RecoveryManager

/-! ## Recovery of heaps -/

namespace HeapCall

/-- The call on a heap. -/
def apply (h : Heap) : HeapCall → Heap
  | .insert data => (h.insert data).1
  | .delete rid => h.delete rid

/-- The tuple has room on a page, and the page of the record identifier is there. -/
def FitsHeap (h : Heap) : HeapCall → Prop
  | .insert data => data.length ≤ MAX_TUPLE
  | .delete rid => rid.pageId < h.length

theorem length_le_apply (h : Heap) (call : HeapCall) : h.length ≤ (call.apply h).length := by
  cases call with
  | delete rid => exact Nat.le_of_eq (Heap.length_delete rid).symm
  | insert data =>
    show h.length ≤ (h.insert data).1.length
    rcases h.length_insert data with hlen | hlen <;> omega

theorem length_le_foldl (calls : List HeapCall) (h : Heap) :
    h.length ≤ (calls.foldl apply h).length := by
  refine List.foldlRecOn (motive := fun h' => h.length ≤ List.length h') calls apply
    (Nat.le_refl _) ?_
  exact fun h' hle call _ => hle.trans (length_le_apply h' call)

theorem length_foldl_le (calls : List HeapCall) (h : Heap) :
    (calls.foldl apply h).length ≤ h.length + calls.length := by
  induction calls generalizing h with
  | nil => exact Nat.le_refl _
  | cons call calls ih =>
    have hcall : (call.apply h).length ≤ h.length + 1 := by
      cases call with
      | delete rid => exact (Nat.le_of_eq (Heap.length_delete rid)).trans (Nat.le_succ _)
      | insert data =>
        show (h.insert data).1.length ≤ h.length + 1
        rcases h.length_insert data with hlen | hlen <;> omega
    have hrest := ih (call.apply h)
    rw [List.foldl_cons, List.length_cons]
    omega

/-- Calls that only delete. -/
theorem exists_map_delete {calls : List HeapCall} (h : ∀ c ∈ calls, ∃ rid, c = .delete rid) :
    ∃ rids : List RID, calls = rids.map .delete := by
  induction calls with
  | nil => exact ⟨[], rfl⟩
  | cons call calls ih =>
    obtain ⟨rid, rfl⟩ := h call List.mem_cons_self
    obtain ⟨rids, rfl⟩ := ih fun c hc => h c (List.mem_cons_of_mem _ hc)
    exact ⟨rid :: rids, rfl⟩

theorem foldl_delete (rids : List RID) (h : Heap) :
    (rids.map HeapCall.delete).foldl apply h = rids.foldl Heap.delete h := by
  rw [List.foldl_map]
  rfl

end HeapCall

/-- The call that applies a record again; a record without a tuple to insert has none. -/
def LogRecord.redone (rec : LogRecord) : Option HeapCall :=
  match rec.type with
  | .insert => if rec.newData = [] then none else some (.insert rec.newData)
  | .delete => some (.delete rec.rid)
  | _ => none

/-- The call that reverses a record. -/
def LogRecord.undone (rec : LogRecord) : Option HeapCall :=
  match rec.type with
  | .insert => some (.delete rec.rid)
  | .delete => if rec.oldData = [] then none else some (.insert rec.oldData)
  | _ => none

/-- The calls of a record are about its images and its record identifier. -/
theorem LogRecord.call_cases {rec : LogRecord} {call : HeapCall}
    (h : rec.redone = some call ∨ rec.undone = some call) :
    call = .delete rec.rid ∨ call = .insert rec.newData ∧ rec.newData ≠ [] ∨
      call = .insert rec.oldData ∧ rec.oldData ≠ [] := by
  rcases h with h | h
  · unfold LogRecord.redone at h
    split at h
    case h_1 =>
      split at h
      case isTrue => cases h
      case isFalse hdata => exact Or.inr (Or.inl ⟨(Option.some.inj h).symm, hdata⟩)
    case h_2 => exact Or.inl (Option.some.inj h).symm
    case h_3 => cases h
  · unfold LogRecord.undone at h
    split at h
    case h_1 => exact Or.inl (Option.some.inj h).symm
    case h_2 =>
      split at h
      case isTrue => cases h
      case isFalse hdata => exact Or.inr (Or.inr ⟨(Option.some.inj h).symm, hdata⟩)
    case h_3 => cases h

theorem LogRecord.type_of_call {rec : LogRecord} {call : HeapCall}
    (h : rec.redone = some call ∨ rec.undone = some call) :
    rec.type = .insert ∨ rec.type = .delete := by
  unfold LogRecord.redone LogRecord.undone at h
  cases htype : rec.type <;> simp_all

/-- The calls on a table for the records of some transactions. -/
def phaseCalls (call : LogRecord → Option HeapCall) (txns : Finset Int32) (name : Str)
    (records : List LogRecord) : List HeapCall :=
  (records.filter fun rec => rec.txnId ∈ txns ∧ rec.tableName = name).filterMap call

/-- The calls that recovery makes on a table. -/
def recoverCalls (records : List LogRecord) (name : Str) : List HeapCall :=
  phaseCalls LogRecord.redone (RecoveryManager.analyze records).committedTxns name records ++
    phaseCalls LogRecord.undone (RecoveryManager.analyze records).activeTxns name records.reverse

/-- The calls that recovery makes are those of the records. -/
theorem mem_recoverCalls {records : List LogRecord} {name : Str} {call : HeapCall}
    (h : call ∈ recoverCalls records name) :
    ∃ rec ∈ records, rec.tableName = name ∧
      (rec.txnId ∈ (RecoveryManager.analyze records).committedTxns ∧ rec.redone = some call ∨
        rec.txnId ∈ (RecoveryManager.analyze records).activeTxns ∧ rec.undone = some call) := by
  rcases List.mem_append.mp h with h | h
  · obtain ⟨rec, hrec, hcall⟩ := List.mem_filterMap.mp h
    obtain ⟨hmem, hcond⟩ := List.mem_filter.mp hrec
    obtain ⟨htxn, hname⟩ := of_decide_eq_true hcond
    exact ⟨rec, hmem, hname, Or.inl ⟨htxn, hcall⟩⟩
  · obtain ⟨rec, hrec, hcall⟩ := List.mem_filterMap.mp h
    obtain ⟨hmem, hcond⟩ := List.mem_filter.mp hrec
    obtain ⟨htxn, hname⟩ := of_decide_eq_true hcond
    exact ⟨rec, List.mem_reverse.mp hmem, hname, Or.inr ⟨htxn, hcall⟩⟩

theorem length_recoverCalls_le (records : List LogRecord) (name : Str) :
    (recoverCalls records name).length ≤ 2 * records.length := by
  have hphase : ∀ (call : LogRecord → Option HeapCall) (txns : Finset Int32)
      (records : List LogRecord), (phaseCalls call txns name records).length ≤ records.length :=
    fun call txns records => (List.length_filterMap_le _ _).trans (List.length_filter_le _ _)
  have hredo := hphase LogRecord.redone (RecoveryManager.analyze records).committedTxns records
  have hundo := hphase LogRecord.undone (RecoveryManager.analyze records).activeTxns records.reverse
  rw [List.length_reverse] at hundo
  rw [recoverCalls, List.length_append]
  omega

namespace HeapTables

/-- Calls on every table; a table without a name is not opened. -/
def apply (D : HeapTables) (calls : Str → List HeapCall) : HeapTables := fun name =>
  if name = [] then D name else (D name).map ((calls name).foldl HeapCall.apply)

/-- Recovery from these records. -/
def recover (D : HeapTables) (records : List LogRecord) : HeapTables :=
  D.apply (recoverCalls records)

/-- The calls of the record fit the heap of its table. -/
def Replayable (D : HeapTables) (rec : LogRecord) : Prop := ∀ h, D rec.tableName = some h →
  ∀ call, rec.redone = some call ∨ rec.undone = some call → call.FitsHeap h

variable {D : HeapTables} {calls calls' : Str → List HeapCall} {name : Str}

theorem apply_ne_none : D.apply calls name ≠ none ↔ D name ≠ none := by
  unfold apply
  split
  · exact Iff.rfl
  · cases D name <;> simp

/-- Calls make no heap shorter. -/
theorem exists_of_apply {h' : Heap} (hD : D.apply calls name = some h') :
    ∃ h, D name = some h ∧ h.length ≤ h'.length := by
  unfold apply at hD
  split at hD
  · exact ⟨h', hD, Nat.le_refl _⟩
  · obtain ⟨h, hh, rfl⟩ := Option.map_eq_some_iff.mp hD
    exact ⟨h, hh, HeapCall.length_le_foldl _ _⟩

theorem apply_append (D : HeapTables) :
    D.apply (fun name => calls name ++ calls' name) = (D.apply calls).apply calls' := by
  funext name
  unfold apply
  split
  · rfl
  · simp only [Option.map_map, List.foldl_append]
    rfl

theorem apply_nil (D : HeapTables) : D.apply (fun _ => []) = D := by
  funext name
  unfold apply
  split
  · rfl
  · exact Option.map_id'

/-- One call on one table. -/
theorem apply_single {h : Heap} (hname : name ≠ []) (hD : D name = some h) (call : HeapCall) :
    D.apply (fun n => if name = n then [call] else []) =
      Function.update D name (some (call.apply h)) := by
  funext n
  by_cases hn : name = n
  · subst hn
    rw [Function.update_self]
    simp only [apply, if_neg hname, if_pos, hD]
    rfl
  · rw [Function.update_of_ne (Ne.symm hn)]
    simp only [apply, if_neg hn]
    split
    · rfl
    · exact Option.map_id'

/-- Calls on a table that is not there. -/
theorem apply_missing (hD : name = [] ∨ D name = none) (calls : List HeapCall) :
    D.apply (fun n => if name = n then calls else []) = D := by
  funext n
  unfold apply
  split
  case isTrue => rfl
  case isFalse hn =>
    dsimp only
    split
    case isFalse => exact Option.map_id'
    case isTrue hname =>
      subst hname
      rw [hD.resolve_left hn]
      rfl

theorem Replayable.apply {rec : LogRecord} (h : D.Replayable rec) :
    (D.apply calls).Replayable rec := by
  intro g' hg' call hcall
  obtain ⟨g, hg, hle⟩ := exists_of_apply hg'
  have hfits := h g hg call hcall
  cases call with
  | insert data => exact hfits
  | delete rid => exact Nat.lt_of_lt_of_le hfits hle

end HeapTables

/-- The calls for one more record. -/
theorem phaseCalls_concat (call : LogRecord → Option HeapCall) (txns : Finset Int32)
    (records : List LogRecord) (rec : LogRecord) (name : Str) :
    phaseCalls call txns name (records ++ [rec]) = phaseCalls call txns name records ++
      if rec.txnId ∈ txns ∧ rec.tableName = name then (call rec).toList else [] := by
  unfold phaseCalls
  rw [List.filter_append, List.filterMap_append]
  by_cases hrec : rec.txnId ∈ txns ∧ rec.tableName = name
  · rw [if_pos hrec, List.filter_cons_of_pos (by simpa using hrec), List.filter_nil]
    cases hcall : call rec <;> simp [hcall]
  · rw [if_neg hrec, List.filter_cons_of_neg (by simpa using hrec)]
    rfl

/-! ## Recovery of the tables on the disk -/

namespace RecoveryManager

open Storage

/-- The names of the tables in a log. -/
def Named (records : List LogRecord) (name : Str) : Prop :=
  name ≠ [] ∧ ∃ rec ∈ records, rec.tableName = name

variable {records : List LogRecord} {rec : LogRecord} {D : HeapTables} {tableFiles : Dict Str ℤ}
  {s : Storage} {H : Heaps} {f : ℤ} {path : Str} {h : Heap}

/-- The tables of the log are opened, as far as they are there. -/
theorem openTables_spec (hs : OnDisk (Named records) D s) :
    wp (fun _ => False) (records.foldlM openTableOf .empty) (fun tableFiles s' =>
      Loaded (Named records) D tableFiles s' ∧ AllOpen (Named records) D tableFiles ∧
        tableFiles.find? [] = none) s := by
  refine wp_mono (wp_foldlM (fun done tableFiles s' =>
    Loaded (Named records) D tableFiles s' ∧ AllOpen (Named done) D tableFiles ∧
      tableFiles.find? [] = none) records ?_ ⟨hs.loaded, ?_, rfl⟩) fun _ _ h => h
  · rintro done rec rest tableFiles s₁ hrecords ⟨hl, hall, hempty⟩
    have hmem : rec ∈ records := by rw [hrecords]; simp
    have hmore : ∀ {tableFiles' : Dict Str ℤ},
        (∀ name, tableFiles.find? name ≠ none → tableFiles'.find? name ≠ none) →
        (rec.tableName ≠ [] → D rec.tableName ≠ none →
          tableFiles'.find? rec.tableName ≠ none) →
        AllOpen (Named (done ++ [rec])) D tableFiles' := by
      rintro tableFiles' hkeep hthis name ⟨hne, r, hr, rfl⟩ hD
      rcases List.mem_append.mp hr with hr | hr
      · exact hkeep _ (hall _ ⟨hne, r, hr, rfl⟩ hD)
      · obtain rfl := List.mem_singleton.mp hr
        exact hthis hne hD
    unfold openTableOf
    split
    case isFalse hcond =>
      refine ⟨hl, hmore (fun _ hn => hn) fun hne _ hnone => hcond ⟨hne, hnone⟩, hempty⟩
    case isTrue hcond =>
      obtain ⟨hne, hnone⟩ := hcond
      rw [wp_bind]
      cases hD : D rec.tableName with
      | none =>
        refine wp_total.mpr ⟨-1, s₁, hl.openTable_none hnone hD, ?_⟩
        rw [if_neg (by decide), wp_pure]
        exact ⟨hl, hmore (fun _ hn => hn) fun _ h => absurd hD h, hempty⟩
      | some g =>
        refine wp_mono (hl.openTable hnone ⟨hne, rec, hmem, rfl⟩ hD) ?_
        rintro f s₂ ⟨hf, hl₂⟩
        rw [if_pos hf, wp_pure]
        refine ⟨hl₂, hmore (fun name hn => ?_) fun _ _ => ?_, ?_⟩
        · rw [Dict.find?_insert]
          split
          · simp
          · exact hn
        · rw [Dict.find?_insert_self]
          simp
        · rw [Dict.find?_insert_of_ne _ _ hne.symm]
          exact hempty
  · rintro name ⟨-, rec, hrec, -⟩
    cases hrec

/-- The call of a record on the file of its table. -/
def onFile (call : HeapCall) (fileId : ℤ) : Program Storage Fault Unit :=
  match call with
  | .insert data => insertImage fileId data
  | .delete rid => PageManager.deleteTuple fileId rid

theorem frames_onFile (call : HeapCall) (f : ℤ) : Frames (onFile call f) := by
  cases call with
  | delete rid => exact Frames.deleteTuple f rid
  | insert data =>
    unfold onFile insertImage
    dsimp only
    split
    · exact (Frames.insertTuple _ _ _).bind fun _ => .pure _
    · exact .pure _

theorem onFile_spec (hs : Stores H s) (hH : H f = some ⟨path, h⟩) {call : HeapCall}
    (hne : call ≠ .insert []) (hfits : call.FitsHeap h) :
    wp (AtLimit h.length) (onFile call f)
      (fun _ s' => Stores (Function.update H f (some ⟨path, call.apply h⟩)) s') s := by
  cases call with
  | delete rid => exact wp_weaken (hs.deleteTuple hH hfits) fun _ => False.elim
  | insert data =>
    have hdata : data ≠ [] := fun he => hne (he ▸ rfl)
    have hle : data.length ≤ MAX_TUPLE := hfits
    have hlen : data.length % 2 ^ 16 = data.length := Nat.mod_eq_of_lt (hle.trans_lt (by decide))
    simp only [onFile, insertImage, if_pos hdata, wp_bind, hlen]
    refine wp_mono (hs.insertTuple_limit hH hle) ?_
    exact fun _ s' hs' => hs'.2

/-- The call of a record on its table, if its transaction is one of these and the table is open. -/
def onRecord (call : LogRecord → Option HeapCall) (txns : Finset Int32) (tableFiles : Dict Str ℤ)
    (rec : LogRecord) : Program Storage Fault Unit :=
  if rec.txnId ∈ txns then
    match tableFiles.find? rec.tableName, call rec with
    | some fileId, some c => onFile c fileId
    | _, _ => return ()
  else return ()

theorem redoRecord_eq (txns : Finset Int32) (tableFiles : Dict Str ℤ) (rec : LogRecord) :
    redoRecord txns tableFiles rec = onRecord LogRecord.redone txns tableFiles rec := by
  unfold redoRecord onRecord LogRecord.redone
  split
  case isFalse => rfl
  case isTrue =>
    cases tableFiles.find? rec.tableName with
    | none => rfl
    | some f =>
      cases rec.type with
      | insert => by_cases hdata : rec.newData = [] <;> simp [hdata, insertImage, onFile]
      | _ => rfl

theorem undoRecord_eq (txns : Finset Int32) (tableFiles : Dict Str ℤ) (rec : LogRecord) :
    undoRecord txns tableFiles rec = onRecord LogRecord.undone txns tableFiles rec := by
  unfold undoRecord onRecord LogRecord.undone
  split
  case isFalse => rfl
  case isTrue =>
    cases tableFiles.find? rec.tableName with
    | none => rfl
    | some f =>
      cases rec.type with
      | delete => by_cases hdata : rec.oldData = [] <;> simp [hdata, insertImage, onFile]
      | _ => rfl

/-- A call that inserts has a tuple. -/
theorem redone_ne (rec : LogRecord) : rec.redone ≠ some (.insert []) := by
  unfold LogRecord.redone
  split
  · split
    · simp
    · rename_i hdata
      simpa using hdata
  · simp
  · simp

theorem undone_ne (rec : LogRecord) : rec.undone ≠ some (.insert []) := by
  unfold LogRecord.undone
  split
  · simp
  · split
    · simp
    · rename_i hdata
      simpa using hdata
  · simp

/-- The fault of a table that cannot grow any more. -/
def SomeAtLimit (D : HeapTables) (e : Fault) : Prop :=
  e = .io ∧ ∃ name h, D name = some h ∧ INVALID_PAGE_ID ≤ h.length

/-- A phase makes its calls on the open tables. -/
theorem phase_spec {call : LogRecord → Option HeapCall} (hne : ∀ rec, call rec ≠ some (.insert []))
    (txns : Finset Int32) {records' : List LogRecord} (hsub : ∀ rec ∈ records', rec ∈ records)
    (hfits : ∀ rec ∈ records', ∀ calls h, D.apply calls rec.tableName = some h → ∀ c,
      call rec = some c → c.FitsHeap h)
    (hs : Loaded (Named records) D tableFiles s) (hall : AllOpen (Named records) D tableFiles)
    (hempty : tableFiles.find? [] = none) :
    wp (SomeAtLimit (D.apply fun name => phaseCalls call txns name records'))
      (records'.foldlM (fun _ rec => onRecord call txns tableFiles rec) ())
      (fun _ s' => Loaded (Named records)
        (D.apply fun name => phaseCalls call txns name records') tableFiles s') s := by
  refine wp_foldlM (fun done _ s' => Loaded (Named records)
    (D.apply fun name => phaseCalls call txns name done) tableFiles s') records' ?_ ?_
  · rintro done rec rest - s₁ hrecords hl
    have hmem : rec ∈ records' := by rw [hrecords]; simp
    have hall' : AllOpen (Named records) (D.apply fun name => phaseCalls call txns name done)
        tableFiles := fun name hname hD => hall name hname (HeapTables.apply_ne_none.mp hD)
    have hnext : (D.apply fun name => phaseCalls call txns name (done ++ [rec])) =
        (D.apply fun name => phaseCalls call txns name done).apply fun name =>
          if rec.txnId ∈ txns ∧ rec.tableName = name then (call rec).toList else [] := by
      rw [← HeapTables.apply_append]
      exact congrArg D.apply (funext fun name => phaseCalls_concat call txns done rec name)
    -- A heap that is too long now is too long at the end.
    have hlimit : ∀ e h, (D.apply fun name => phaseCalls call txns name done) rec.tableName = some h →
        AtLimit h.length e →
        SomeAtLimit (D.apply fun name => phaseCalls call txns name records') e := by
      rintro e h hD ⟨rfl, hle⟩
      refine ⟨rfl, rec.tableName, ?_⟩
      have hsplit : (D.apply fun name => phaseCalls call txns name records') =
          (D.apply fun name => phaseCalls call txns name done).apply fun name =>
            phaseCalls call txns name (rec :: rest) := by
        rw [← HeapTables.apply_append, hrecords]
        refine congrArg D.apply (funext fun name => ?_)
        simp only [phaseCalls, List.filter_append, List.filterMap_append]
      rw [hsplit]
      have hsome : (D.apply fun name => phaseCalls call txns name done) rec.tableName ≠ none := by
        rw [hD]
        simp
      obtain ⟨h', hh'⟩ := Option.ne_none_iff_exists'.mp (HeapTables.apply_ne_none.mpr hsome)
      obtain ⟨h₁, hh₁, hle'⟩ := HeapTables.exists_of_apply hh'
      obtain rfl := Option.some.inj (hh₁.symm.trans hD)
      exact ⟨h', hh', hle.trans hle'⟩
    have hfits' := hfits rec hmem (fun name => phaseCalls call txns name done)
    rw [hnext]
    generalize (D.apply fun name => phaseCalls call txns name done) = D' at hl hall' hlimit hfits'
    unfold onRecord
    split
    case isFalse htxn =>
      simp only [htxn, false_and, if_false, HeapTables.apply_nil, wp_pure]
      exact hl
    case isTrue htxn =>
      simp only [htxn, true_and]
      cases hf : tableFiles.find? rec.tableName with
      | none =>
        have hmissing : rec.tableName = [] ∨ D' rec.tableName = none := by
          by_cases hname : rec.tableName = []
          · exact Or.inl hname
          · refine Or.inr (by_contra fun hD => ?_)
            exact hall' _ ⟨hname, rec, hsub rec hmem, rfl⟩ hD hf
        simp only [wp_pure, HeapTables.apply_missing hmissing]
        exact hl
      | some f =>
        have hname : rec.tableName ≠ [] := by
          intro he
          rw [he, hempty] at hf
          cases hf
        obtain ⟨_, _, hopen, _⟩ := hl.stores
        obtain ⟨g, hD, -⟩ := hopen hf
        cases hcall : call rec with
        | none =>
          have hnil : (fun name => if rec.tableName = name then (none : Option HeapCall).toList
              else []) = fun _ => [] := by
            funext name
            split <;> rfl
          simp only [wp_pure, hnil, HeapTables.apply_nil]
          exact hl
        | some c =>
          simp only [Option.toList_some, HeapTables.apply_single hname hD]
          refine wp_weaken (wp_mono (hl.onTable hall' hf hD (frames_onFile c f)
            (Q := (· = c.apply g)) fun H s hs hH => ?_) ?_) fun e he => hlimit e g hD he
          · refine wp_mono (onFile_spec hs hH (fun he => hne rec (by rw [hcall, he]))
              (hfits' g hD c hcall)) ?_
            exact fun _ s' hs' => ⟨_, rfl, hs'⟩
          · rintro - s₂ ⟨_, rfl, hl₂⟩
            exact hl₂
  · have hnil : (fun name => phaseCalls call txns name []) = fun _ => [] := rfl
    rw [hnil, HeapTables.apply_nil]
    exact hs

/-- Recovery of the tables on the disk, followed by a flush, returns, and it is recovery of their
heaps. -/
theorem recover_spec {file : Str} (hread : LogManager.readAllRecords file = .ok records)
    (hs : OnDisk (Named records) D s) (hreplay : ∀ rec ∈ records, D.Replayable rec)
    (hsmall : ∀ name h, D.recover records name = some h → h.length < 2 ^ 20) :
    wp (fun _ => False) (recoverAndFlush file)
      (fun _ s' => OnDisk (Named records) (D.recover records) s') s := by
  simp only [recoverAndFlush, recover, hread, wp_bind, wp_lift_ok]
  split
  case isTrue hnil =>
    subst hnil
    have hsame : D.recover [] = D := HeapTables.apply_nil D
    rw [hsame] at hsmall ⊢
    rw [wp_pure]
    refine hs.loaded.flushAllPages ?_ hsmall
    rintro name ⟨-, rec, hrec, -⟩
    cases hrec
  case isFalse =>
    have hrecover : D.recover records = (D.apply fun name => phaseCalls LogRecord.redone
        (analyze records).committedTxns name records).apply fun name => phaseCalls LogRecord.undone
          (analyze records).activeTxns name records.reverse := HeapTables.apply_append D
    have hlimit : ∀ e, SomeAtLimit (D.recover records) e → False := by
      rintro e ⟨-, name, h, hD, hle⟩
      have hlt := hsmall name h hD
      simp only [INVALID_PAGE_ID] at hle
      omega
    simp only [wp_bind, redoPhase, undoPhase, redoRecord_eq, undoRecord_eq]
    refine wp_mono (openTables_spec hs) ?_
    rintro tableFiles s₁ ⟨hl, hall, hempty⟩
    have hredo := phase_spec redone_ne (analyze records).committedTxns (fun rec hrec => hrec)
      (fun rec hrec calls h hD c hc => (hreplay rec hrec).apply h hD c (Or.inl hc)) hl hall hempty
    refine wp_mono (wp_weaken hredo ?_) ?_
    · rintro e ⟨rfl, name, h, hD, hle⟩
      have hsome : D.recover records name ≠ none := by
        rw [hrecover]
        exact HeapTables.apply_ne_none.mpr (by rw [hD]; simp)
      obtain ⟨h', hD'⟩ := Option.ne_none_iff_exists'.mp hsome
      have hsame := hD'
      rw [hrecover] at hsame
      obtain ⟨h₁, hD₁, hle'⟩ := HeapTables.exists_of_apply hsame
      obtain rfl := Option.some.inj (hD₁.symm.trans hD)
      exact hlimit .io ⟨rfl, name, h', hD', hle.trans hle'⟩
    intro _ s₂ hl₂
    have hundo := phase_spec undone_ne (analyze records).activeTxns
      (fun rec hrec => List.mem_reverse.mp hrec) (fun rec hrec calls h hD c hc =>
        (hreplay rec (List.mem_reverse.mp hrec)).apply.apply h hD c (Or.inr hc)) hl₂
      (fun name hname hD => hall name hname (HeapTables.apply_ne_none.mp hD)) hempty
    rw [← hrecover] at hundo
    refine wp_mono (wp_weaken hundo hlimit) ?_
    intro _ s₃ hl₃
    exact hl₃.flushAllPages
      (fun name hname hD => hall name hname (HeapTables.apply_ne_none.mp hD)) hsmall

end RecoveryManager

end MiniDB
