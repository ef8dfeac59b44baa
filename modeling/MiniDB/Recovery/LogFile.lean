import MiniDB.Recovery.LogManager

/-!
# The log as a sequence of records

A record is read back from its bytes, and a file of framed records is read back as these records.
Every session numbers its records on from the last one of the file. A crash cuts the bytes of the
last session at any place; what is left of a frame then ends the reading, but the next session
writes its records behind it, where the reader takes them for the rest of the frame.

## Main definitions

* `LogRecord.WellFormed`: the fields of a record have the widths of their types
* `LogManager.number`: records with the log sequence numbers they get
* `LogManager.session`, `LogManager.sessions`: a session that is closed, and several in a row
* `LogManager.crash`, `LogManager.resume`: a session cut off, and the one after it
* `LogManager.wholeRecords`, `LogManager.tornBytes`: what a cut leaves

## Main results

* `LogManager.deserializeRecord_serializeRecord`: a record is read back from its bytes
* `LogManager.sessions_read_back`: what any sessions have appended is read back
* `LogManager.resume_iff`: after a crash this goes on exactly when no frame was torn
-/

namespace MiniDB

/-- A record whose fields have the widths of their types and whose size fits its frame. -/
structure LogRecord.WellFormed (record : LogRecord) : Prop where
  type : LogRecordType.ofByte record.type.toByte = record.type
  tableName : record.tableName.length < 2 ^ 16
  pageId : record.rid.pageId < 2 ^ 32
  slotNum : record.rid.slotNum < 2 ^ 16
  size : (LogManager.serializeRecord record).length < 2 ^ 32

namespace LogManager

variable {record r : LogRecord} {records : List LogRecord} {n : ℕ}

/-! ## One record -/

/-- A segment of a buffer, and what comes behind it. -/
theorem slice_of_drop {data B C : Str} {i j : ℕ} (h : data.drop i = B ++ C)
    (hj : j = i + B.length) (hi : i ≤ data.length) :
    Vec.slice Fault.overrun data i B.length = .ok B ∧ data.drop j = C ∧ j ≤ data.length := by
  have hlen := congrArg List.length h
  rw [List.length_drop, List.length_append] at hlen
  refine ⟨?_, ?_, by omega⟩
  · rw [Vec.slice, if_pos (by omega), h, List.take_left]
  · rw [hj, ← List.drop_drop, h, List.drop_left]

/-- A number of a buffer, and what comes behind it. -/
theorem readNat_of_drop {data C : Str} {i j w n : ℕ} (h : data.drop i = Bytes.encode w n ++ C)
    (hn : n < 256 ^ w) (hj : j = i + w) (hi : i ≤ data.length) :
    readNat data i w = .ok n ∧ data.drop j = C ∧ j ≤ data.length := by
  have hslice := slice_of_drop h (hj.trans (by rw [Bytes.length_encode])) hi
  rw [Bytes.length_encode] at hslice
  refine ⟨?_, hslice.2⟩
  rw [readNat, hslice.1, Machine.ok_map, Bytes.decode_encode_of_lt hn]

theorem length_serializeRecord (record : LogRecord) : (serializeRecord record).length =
    29 + record.tableName.length + record.oldData.length + record.newData.length := by
  simp only [serializeRecord, List.length_append, Bytes.length_encode, List.length_singleton]
  omega

/-- A record is read back from its bytes. -/
theorem deserializeRecord_serializeRecord (h : record.WellFormed) (hlsn : record.lsn < 2 ^ 64) :
    deserializeRecord (serializeRecord record) = .ok record := by
  obtain ⟨lsn, type, txnId, tableName, ⟨pageId, slotNum⟩, oldData, newData⟩ := record
  obtain ⟨htype, hname, hpage, hslot, hsize⟩ := h
  rw [length_serializeRecord] at hsize
  simp only at hlsn htype hname hpage hslot hsize
  generalize hdata : serializeRecord _ = data
  have d₀ : data.drop 0 = Bytes.encode 8 lsn ++ ([type.toByte] ++
      (Bytes.encode 4 txnId.toUInt32.toNat ++ (Bytes.encode 2 tableName.length ++ (tableName ++
      (Bytes.encode 4 pageId ++ (Bytes.encode 2 slotNum ++ (Bytes.encode 4 oldData.length ++
      (oldData ++ (Bytes.encode 4 newData.length ++ (newData ++ [])))))))))) := by
    rw [List.drop_zero, ← hdata, serializeRecord]
    simp only [List.append_assoc, List.append_nil]
  obtain ⟨h₁, d₁, hi⟩ := readNat_of_drop (j := 8) d₀ hlsn rfl (Nat.zero_le _)
  obtain ⟨-, d₂, hi⟩ := slice_of_drop (j := 9) d₁ rfl hi
  have hget : Vec.get Fault.overrun data 8 = .ok type.toByte := by
    have hhead := congrArg List.head? d₁
    rw [List.head?_drop] at hhead
    exact Vec.get_of_getElem? hhead
  obtain ⟨h₃, d₃, hi⟩ := readNat_of_drop (j := 13) d₂ (by simpa using txnId.toUInt32.toNat_lt) rfl hi
  obtain ⟨h₄, d₄, hi⟩ := readNat_of_drop (j := 15) d₃ hname rfl hi
  obtain ⟨h₅, d₅, hi⟩ := slice_of_drop (j := 15 + tableName.length) d₄ rfl hi
  obtain ⟨h₆, d₆, hi⟩ := readNat_of_drop (j := 15 + tableName.length + 4) d₅ hpage rfl hi
  obtain ⟨h₇, d₇, hi⟩ := readNat_of_drop (j := 15 + tableName.length + 6) d₆ hslot rfl hi
  have hold : oldData.length < 256 ^ 4 := by simp only [Nat.reducePow] at hsize ⊢; omega
  have hnew : newData.length < 256 ^ 4 := by simp only [Nat.reducePow] at hsize ⊢; omega
  obtain ⟨h₈, d₈, hi⟩ := readNat_of_drop (j := 15 + tableName.length + 10) d₇ hold rfl hi
  obtain ⟨h₉, d₉, hi⟩ :=
    slice_of_drop (j := 15 + tableName.length + 10 + oldData.length) d₈ rfl hi
  obtain ⟨h₁₀, d₁₀, hi⟩ :=
    readNat_of_drop (j := 15 + tableName.length + 10 + oldData.length + 4) d₉ hnew rfl hi
  obtain ⟨h₁₁, -, -⟩ := slice_of_drop d₁₀ rfl hi
  have hid : (UInt32.ofNat txnId.toUInt32.toNat).toInt32 = txnId := by simp
  rw [deserializeRecord]
  simp only [h₁, hget, h₃, h₄, h₅, h₆, h₇, h₈, h₉, h₁₀, h₁₁, Machine.ok_bind, Machine.pure_eq_ok, hid,
    htype]

/-! ## A file of records -/

/-- With more fuel than bytes the loop reads to the end. -/
theorem readRecords_fuel : ∀ {fuel fuel' : ℕ} {bytes : Str}, bytes.length < fuel →
    bytes.length < fuel' → readRecords fuel bytes = readRecords fuel' bytes := by
  intro fuel
  induction fuel with
  | zero => intro fuel' bytes h; exact absurd h (Nat.not_lt_zero _)
  | succ fuel ih =>
    intro fuel' bytes h h'
    obtain _ | fuel' := fuel'
    · exact absurd h' (Nat.not_lt_zero _)
    · simp only [readRecords]
      split
      case isTrue => rfl
      case isFalse hfour =>
        split
        case isTrue => rfl
        case isFalse =>
          have hless : ((bytes.drop 4).drop (Bytes.decode (bytes.take 4))).length < fuel := by
            rw [List.length_drop, List.length_drop]
            omega
          have hless' : ((bytes.drop 4).drop (Bytes.decode (bytes.take 4))).length < fuel' := by
            rw [List.length_drop, List.length_drop]
            omega
          rw [ih hless hless']

theorem length_frame (record : LogRecord) :
    (frame record).length = 4 + (serializeRecord record).length := by
  rw [frame, List.length_append, Bytes.length_encode]

theorem decode_take_frame (h : record.WellFormed) (tail : Str) :
    Bytes.decode ((frame record ++ tail).take 4) = (serializeRecord record).length := by
  have htake : (frame record ++ tail).take 4 = Bytes.encode 4 (serializeRecord record).length := by
    rw [frame, List.append_assoc]
    exact List.take_left' (Bytes.length_encode ..)
  rw [htake]
  exact Bytes.decode_encode_of_lt h.size

theorem drop_frame (record : LogRecord) (tail : Str) :
    (frame record ++ tail).drop 4 = serializeRecord record ++ tail := by
  rw [frame, List.append_assoc]
  exact List.drop_left' (Bytes.length_encode ..)

/-- A framed record is read, and then what comes behind it. -/
theorem readAllRecords_frame (h : record.WellFormed) (hlsn : record.lsn < 2 ^ 64) (tail : Str) :
    readAllRecords (frame record ++ tail) = (record :: ·) <$> readAllRecords tail := by
  have hlen : (frame record ++ tail).length = 4 + (serializeRecord record).length + tail.length := by
    rw [List.length_append, length_frame]
  rw [readAllRecords, readRecords, if_neg (by omega)]
  simp only [decode_take_frame h, drop_frame]
  rw [if_neg (by simp), List.take_left, List.drop_left, deserializeRecord_serializeRecord h hlsn,
    readRecords_fuel (by omega) (Nat.lt_succ_self _)]
  rfl

/-- Less than a frame is not read. -/
theorem readAllRecords_torn (h : record.WellFormed) {t : ℕ} (ht : t < (frame record).length) :
    readAllRecords ((frame record).take t) = .ok [] := by
  have hlen : ((frame record).take t).length = t := List.length_take_of_le (Nat.le_of_lt ht)
  rw [readAllRecords, readRecords, hlen]
  split
  case isTrue => rfl
  case isFalse hfour =>
    have htake : ((frame record).take t).take 4 = (frame record ++ []).take 4 := by
      rw [List.take_take, Nat.min_eq_left (Nat.not_lt.mp hfour), List.append_nil]
    have hdrop : (((frame record).take t).drop 4).length < (serializeRecord record).length := by
      rw [List.length_drop, hlen]
      rw [length_frame] at ht
      omega
    simp only [htake, decode_take_frame h, hdrop, if_true]

/-! ## Numbered records -/

/-- The records with the log sequence numbers from `n` on. -/
def number (n : ℕ) : List LogRecord → List LogRecord
  | [] => []
  | record :: records => { record with lsn := n } :: number (n + 1) records

@[simp] theorem length_number (n : ℕ) (records : List LogRecord) :
    (number n records).length = records.length := by
  induction records generalizing n with
  | nil => rfl
  | cons record records ih => rw [number, List.length_cons, List.length_cons, ih]

theorem mem_number (h : r ∈ number n records) : ∃ r' ∈ records, ∃ k, r = { r' with lsn := k } := by
  induction records generalizing n with
  | nil => cases h
  | cons record records ih =>
    rcases List.mem_cons.mp h with rfl | h
    · exact ⟨record, List.mem_cons_self, n, rfl⟩
    · obtain ⟨r', hr', hr⟩ := ih h
      exact ⟨r', List.mem_cons_of_mem _ hr', hr⟩

theorem number_append (n : ℕ) (records records' : List LogRecord) :
    number n (records ++ records') = number n records ++ number (n + records.length) records' := by
  induction records generalizing n with
  | nil => rfl
  | cons record records ih =>
    rw [List.cons_append, number, number, ih, List.length_cons, List.cons_append, Nat.add_assoc,
      Nat.add_comm 1]

theorem number_isPrefix {records' : List LogRecord} (h : records <+: records') (n : ℕ) :
    number n records <+: number n records' := by
  obtain ⟨rest, rfl⟩ := h
  rw [number_append]
  exact List.prefix_append _ _

/-- The numbers ascend. -/
theorem number_sorted (n : ℕ) (records : List LogRecord) :
    (number n records).Pairwise (·.lsn < ·.lsn) ∧ ∀ r ∈ number n records, n ≤ r.lsn := by
  induction records generalizing n with
  | nil => exact ⟨.nil, nofun⟩
  | cons record records ih =>
    obtain ⟨hsorted, hle⟩ := ih (n + 1)
    refine ⟨List.pairwise_cons.mpr ⟨hle, hsorted⟩, fun r hr => ?_⟩
    rcases List.mem_cons.mp hr with rfl | hr
    · exact Nat.le_refl n
    · exact Nat.le_of_succ_le (hle r hr)

/-- The frames of the records numbered from `n` on. -/
def framed (n : ℕ) (records : List LogRecord) : Str := (number n records).flatMap frame

theorem framed_append (n : ℕ) (records records' : List LogRecord) :
    framed n (records ++ records') = framed n records ++ framed (n + records.length) records' := by
  rw [framed, number_append, List.flatMap_append]
  rfl

theorem framed_cons (n : ℕ) (record : LogRecord) (records : List LogRecord) :
    framed n (record :: records) = frame { record with lsn := n } ++ framed (n + 1) records :=
  List.flatMap_cons

theorem framed_concat (n : ℕ) (records : List LogRecord) (record : LogRecord) :
    framed n (records ++ [record]) =
      framed n records ++ frame { record with lsn := n + records.length } := by
  rw [framed_append, framed_cons]
  exact congrArg _ (List.append_nil _)

theorem wellFormed_stamp (h : record.WellFormed) (n : ℕ) :
    { record with lsn := n : LogRecord }.WellFormed where
  type := h.type
  tableName := h.tableName
  pageId := h.pageId
  slotNum := h.slotNum
  size := by
    have hsize := h.size
    rw [length_serializeRecord] at hsize ⊢
    exact hsize

/-- The records of the frames are read, and then what comes behind them. -/
theorem readAllRecords_framed (h : ∀ r ∈ records, r.WellFormed)
    (hlsn : n + records.length ≤ 2 ^ 64) (tail : Str) :
    readAllRecords (framed n records ++ tail) = (number n records ++ ·) <$> readAllRecords tail := by
  induction records generalizing n with
  | nil =>
    show readAllRecords tail = (fun records => [] ++ records) <$> readAllRecords tail
    cases readAllRecords tail <;> rfl
  | cons record records ih =>
    obtain ⟨hrecord, hrest⟩ := List.forall_mem_cons.mp h
    rw [List.length_cons] at hlsn
    have hlt : n < 2 ^ 64 := by omega
    rw [framed_cons, List.append_assoc,
      readAllRecords_frame (wellFormed_stamp hrecord n) hlt, ih hrest (by omega), number]
    cases readAllRecords tail <;> rfl

/-! ## Sessions -/

/-- A session that opens the log, appends the records and closes it. -/
def session (file : Str) (records : List LogRecord) : Except Fault Str := do
  let log ← openLog file
  return (records.foldl appendLog log).flushLog.file

/-- Sessions one after the other. -/
def sessions (file : Str) (history : List (List LogRecord)) : Except Fault Str :=
  history.foldlM session file

theorem foldl_appendLog (log : LogManager) (records : List LogRecord) :
    records.foldl appendLog log = { log with
      pending := log.pending ++ framed log.nextLSN records
      nextLSN := log.nextLSN + records.length } := by
  induction records generalizing log with
  | nil => simp [framed, number]
  | cons record records ih =>
    rw [List.foldl_cons, ih, appendLog, framed_cons, List.append_assoc, List.length_cons,
      Nat.add_assoc, Nat.add_comm 1]

theorem foldl_nextLSN (n : ℕ) (records : List LogRecord) :
    (number n records).foldl (fun n rec => if n ≤ rec.lsn then rec.lsn + 1 else n) n =
      n + records.length := by
  induction records generalizing n with
  | nil => rfl
  | cons record records ih =>
    rw [number, List.foldl_cons, if_pos (Nat.le_refl n), ih, List.length_cons, Nat.add_assoc,
      Nat.add_comm 1]

/-- A log opened on numbered records, and on bytes behind them that are not read. -/
theorem openLog_framed (h : ∀ r ∈ records, r.WellFormed) (hlsn : records.length + 1 ≤ 2 ^ 64)
    {tail : Str} (htail : readAllRecords tail = .ok []) :
    openLog (framed 1 records ++ tail) =
      .ok ⟨framed 1 records ++ tail, [], records.length + 1⟩ := by
  have hread := readAllRecords_framed (n := 1) h (by omega) tail
  rw [htail, Machine.ok_map, List.append_nil] at hread
  rw [openLog, hread, Machine.ok_bind, foldl_nextLSN, Nat.add_comm 1]
  rfl

theorem readAllRecords_nil : readAllRecords [] = .ok [] := rfl

/-- A session continues the numbers. -/
theorem session_framed (h : ∀ r ∈ records, r.WellFormed) (hlsn : records.length + 1 ≤ 2 ^ 64)
    {tail : Str} (htail : readAllRecords tail = .ok []) (added : List LogRecord) :
    session (framed 1 records ++ tail) added =
      .ok (framed 1 records ++ tail ++ framed (records.length + 1) added) := by
  rw [session, openLog_framed h hlsn htail, Machine.ok_bind, foldl_appendLog]
  rfl

theorem sessions_framed {history : List (List LogRecord)}
    (h : ∀ r ∈ records ++ history.flatten, r.WellFormed)
    (hlsn : (records ++ history.flatten).length + 1 ≤ 2 ^ 64) :
    sessions (framed 1 records) history = .ok (framed 1 (records ++ history.flatten)) := by
  unfold sessions
  induction history generalizing records with
  | nil =>
    rw [List.flatten_nil, List.append_nil]
    rfl
  | cons added history ih =>
    rw [List.flatten_cons, ← List.append_assoc] at h hlsn ⊢
    have hold : ∀ r ∈ records, r.WellFormed :=
      fun r hr => h r (List.mem_append_left _ (List.mem_append_left _ hr))
    have hlen : records.length + 1 ≤ 2 ^ 64 := by
      rw [List.length_append, List.length_append] at hlsn
      omega
    have hsession := session_framed hold hlen readAllRecords_nil added
    rw [List.append_nil, Nat.add_comm, ← framed_append] at hsession
    rw [List.foldlM_cons, hsession, Machine.ok_bind]
    exact ih h hlsn

/-- What any sessions have appended is read back: the records in their order, numbered from one; and
the next session goes on from there. The 64-bit log sequence numbers have not run out. -/
theorem sessions_read_back (history : List (List LogRecord))
    (hwf : ∀ records ∈ history, ∀ r ∈ records, r.WellFormed)
    (hlsn : history.flatten.length + 1 < 2 ^ 64) :
    ∃ file, sessions [] history = .ok file ∧
      readAllRecords file = .ok (number 1 history.flatten) ∧
      ∃ log, openLog file = .ok log ∧ log.nextLSN = history.flatten.length + 1 := by
  have h : ∀ r ∈ history.flatten, r.WellFormed := by
    intro r hr
    obtain ⟨records, hrecords, hmem⟩ := List.mem_flatten.mp hr
    exact hwf records hrecords r hmem
  have hrun : sessions (framed 1 []) history = .ok (framed 1 ([] ++ history.flatten)) :=
    sessions_framed (by simpa using h) (by simpa using Nat.le_of_lt hlsn)
  have hread := readAllRecords_framed (n := 1) h (by omega) []
  rw [readAllRecords_nil, Machine.ok_map, List.append_nil, List.append_nil] at hread
  have hopen := openLog_framed h (Nat.le_of_lt hlsn) readAllRecords_nil
  rw [List.append_nil] at hopen
  exact ⟨_, hrun, hread, _, hopen, rfl⟩

/-- An insertion logged in one session and its commit in the next. -/
def sampleHistory : List (List LogRecord) :=
  [[{ txnId := 1 }, { type := .insert, txnId := 1, tableName := lit "t", newData := [7] }],
    [{ type := .commitTxn, txnId := 1 }]]

theorem sample_wellFormed : ∀ records ∈ sampleHistory, ∀ r ∈ records, r.WellFormed := by
  intro records hrecords r hr
  have hr' : r ∈ sampleHistory.flatten := List.mem_flatten.mpr ⟨records, hrecords, hr⟩
  have hall : ∀ r ∈ sampleHistory.flatten, LogRecordType.ofByte r.type.toByte = r.type ∧
      r.tableName.length < 2 ^ 16 ∧ r.rid.pageId < 2 ^ 32 ∧ r.rid.slotNum < 2 ^ 16 ∧
      (serializeRecord r).length < 2 ^ 32 := by decide
  obtain ⟨h₁, h₂, h₃, h₄, h₅⟩ := hall r hr'
  exact ⟨h₁, h₂, h₃, h₄, h₅⟩

theorem sessions_read_back_two_sessions : ∃ file, sessions [] sampleHistory = .ok file ∧
    readAllRecords file = .ok (number 1 sampleHistory.flatten) ∧
    ∃ log, openLog file = .ok log ∧ log.nextLSN = 4 :=
  sessions_read_back sampleHistory sample_wellFormed (by decide)

/-! ## Torn frames -/

/-- A session cut off after some of its bytes. -/
def crash (file : Str) (records : List LogRecord) (cut : ℕ) : Except Fault Str := do
  let log ← openLog file
  return file ++ (records.foldl appendLog log).pending.take cut

/-- Sessions, one that is cut off, and one after it; and what is read then. -/
def resume (history : List (List LogRecord)) (crashed : List LogRecord) (cut : ℕ)
    (added : List LogRecord) : Except Fault (List LogRecord) := do
  let file ← sessions [] history
  let file ← crash file crashed cut
  let file ← session file added
  readAllRecords file

/-- How many of the records are whole in the bytes before the cut. -/
def wholeRecords : ℕ → List LogRecord → ℕ
  | _, [] => 0
  | cut, record :: records =>
    if (frame record).length ≤ cut then wholeRecords (cut - (frame record).length) records + 1 else 0

/-- How many bytes of the next record are before the cut. -/
def tornBytes : ℕ → List LogRecord → ℕ
  | _, [] => 0
  | cut, record :: records =>
    if (frame record).length ≤ cut then tornBytes (cut - (frame record).length) records else cut

theorem length_frame_stamp (record : LogRecord) (n : ℕ) :
    (frame { record with lsn := n }).length = (frame record).length := by
  simp only [length_frame, length_serializeRecord]

/-- The bytes before a cut: the whole records, and a part of the next one. -/
theorem take_framed (n cut : ℕ) (records : List LogRecord) :
    (tornBytes cut records = 0 ∧
      (framed n records).take cut = framed n (records.take (wholeRecords cut records))) ∨
    ∃ record ∈ records, tornBytes cut records ≠ 0 ∧
      tornBytes cut records < (frame record).length ∧
      (framed n records).take cut = framed n (records.take (wholeRecords cut records)) ++
        (frame { record with lsn := n + wholeRecords cut records }).take
          (tornBytes cut records) := by
  induction records generalizing n cut with
  | nil => exact Or.inl ⟨rfl, List.take_nil⟩
  | cons record records ih =>
    have hlen := length_frame_stamp record n
    rw [framed_cons, wholeRecords, tornBytes, ← hlen]
    by_cases hcut : (frame { record with lsn := n }).length ≤ cut
    · rw [if_pos hcut, if_pos hcut, List.take_succ_cons, framed_cons, List.take_append,
        List.take_of_length_le hcut]
      rcases ih (n + 1) (cut - (frame { record with lsn := n }).length) with
        ⟨htorn, htake⟩ | ⟨next, hmem, htorn, hlt, htake⟩
      · exact Or.inl ⟨htorn, by rw [htake]⟩
      · refine Or.inr ⟨next, List.mem_cons_of_mem _ hmem, htorn, hlt, ?_⟩
        rw [htake, Nat.add_right_comm, ← Nat.add_assoc, List.append_assoc]
    · rw [if_neg hcut, if_neg hcut, List.take_zero]
      have hlt : cut < (frame { record with lsn := n }).length := Nat.not_le.mp hcut
      have htake : (frame { record with lsn := n } ++ framed (n + 1) records).take cut =
          (frame { record with lsn := n }).take cut := List.take_append_of_le_length (Nat.le_of_lt hlt)
      rw [htake]
      rcases Nat.eq_zero_or_pos cut with rfl | hpos
      · exact Or.inl ⟨rfl, rfl⟩
      · refine Or.inr ⟨record, List.mem_cons_self, Nat.ne_of_gt hpos, hlen ▸ hlt, ?_⟩
        rw [Nat.add_zero]
        rfl

theorem wholeRecords_le (cut : ℕ) (records : List LogRecord) :
    wholeRecords cut records ≤ records.length := by
  induction records generalizing cut with
  | nil => exact Nat.le_refl 0
  | cons record records ih =>
    rw [wholeRecords]
    split
    case isTrue => exact Nat.succ_le_succ (ih _)
    case isFalse => exact Nat.zero_le _

/-- What a record that was read tells of the first bytes of its buffer. -/
theorem head_of_deserializeRecord {data : Str} (h : deserializeRecord data = .ok record) :
    8 ≤ data.length ∧ Bytes.decode (data.take 8) = record.lsn ∧
      ∃ b, data[8]? = some b ∧ LogRecordType.ofByte b = record.type := by
  simp only [deserializeRecord, Machine.bind_eq_ok] at h
  obtain ⟨lsn, hlsn, b, hb, txnId, -, nameLen, -, tableName, -, pageId, -, slotNum, -, oldLen, -,
    oldData, -, newLen, -, newData, -, hrecord⟩ := h
  obtain rfl := Except.ok.inj hrecord
  have hslice : 8 ≤ data.length ∧ Bytes.decode (data.take 8) = lsn := by
    rw [readNat, Vec.slice, List.drop_zero, Nat.zero_add] at hlsn
    split at hlsn
    case isTrue hle => exact ⟨hle, Except.ok.inj hlsn⟩
    case isFalse => cases hlsn
  refine ⟨hslice.1, hslice.2, b, ?_, rfl⟩
  unfold Vec.get at hb
  split at hb
  case h_1 b' hget => rw [hget, Except.ok.inj hb]
  case h_2 => cases hb

/-- The reader takes the bytes of a torn frame and those behind it for one record. -/
theorem head_of_readAllRecords {bytes : Str} (h : readAllRecords bytes = .ok (record :: records)) :
    (bytes.drop 4).take 8 = Bytes.encode 8 record.lsn ∧
      ∃ b, bytes[12]? = some b ∧ LogRecordType.ofByte b = record.type := by
  simp only [readAllRecords, readRecords] at h
  split at h
  case isTrue => cases h
  case isFalse =>
    split at h
    case isTrue => cases h
    case isFalse =>
      obtain ⟨first, hfirst, h⟩ := Machine.bind_eq_ok.mp h
      obtain ⟨rest, -, h⟩ := Machine.bind_eq_ok.mp h
      obtain ⟨rfl, -⟩ := List.cons.inj (Except.ok.inj h)
      obtain ⟨hlen, hlsn, b, hb, htype⟩ := head_of_deserializeRecord hfirst
      -- The number is read from the first eight bytes, whatever the size says.
      have htake : ((bytes.drop 4).take (Bytes.decode (bytes.take 4))).take 8 =
          (bytes.drop 4).take 8 := by
        rw [List.take_take, Nat.min_eq_left]
        rw [List.length_take] at hlen
        omega
      rw [htake] at hlsn
      have height : ((bytes.drop 4).take 8).length = 8 := by
        rw [← htake]
        exact List.length_take_of_le hlen
      refine ⟨?_, b, ?_, htype⟩
      · rw [← hlsn]
        have hencode := Bytes.encode_decode ((bytes.drop 4).take 8)
        rw [height] at hencode
        exact hencode.symm
      · rw [List.getElem?_take] at hb
        split at hb
        case isTrue => rwa [List.getElem?_drop] at hb
        case isFalse => cases hb

/-- The first bytes of a frame: the size, the log sequence number and the type. -/
theorem frame_eq (record : LogRecord) : ∃ tail, frame record =
    Bytes.encode 4 (serializeRecord record).length ++ (Bytes.encode 8 record.lsn ++
      record.type.toByte :: tail) := by
  simp only [frame, serializeRecord, List.append_assoc, List.cons_append, List.nil_append]
  exact ⟨_, rfl⟩

theorem type_of_frame (record : LogRecord) : (frame record)[12]? = some record.type.toByte := by
  obtain ⟨tail, htail⟩ := frame_eq record
  rw [htail]
  rfl

theorem size_of_frame (record : LogRecord) :
    (frame record)[0]? = some (UInt8.ofNat (serializeRecord record).length) := by
  obtain ⟨tail, htail⟩ := frame_eq record
  rw [htail]
  rfl

/-- A number that is its own bytes moved up by `t` is zero. -/
theorem shifted_eq_zero {t n : ℕ} (ht : 0 < t) (ht' : t < 4)
    (h : List.replicate t 0 ++ (Bytes.encode 8 n).take (8 - t) = Bytes.encode 8 n) :
    n % 2 ^ 64 = 0 := by
  have hzero : Bytes.encode 8 n = List.replicate 8 0 := by
    generalize hb : Bytes.encode 8 n = bytes at h ⊢
    have hlen : bytes.length = 8 := by rw [← hb, Bytes.length_encode]
    match bytes, hlen with
    | [b₀, b₁, b₂, b₃, b₄, b₅, b₆, b₇], _ =>
      have hcases : t = 1 ∨ t = 2 ∨ t = 3 := by omega
      rcases hcases with rfl | rfl | rfl
      all_goals
        simp only [List.replicate, List.take, List.cons_append, List.nil_append, List.cons.injEq,
          and_true] at h
        obtain ⟨rfl, rfl, rfl, rfl, rfl, rfl, rfl, rfl⟩ := h
        rfl
  have hdecode := Bytes.decode_encode 8 n
  rw [hzero] at hdecode
  exact hdecode.symm

section Misread

variable {t : ℕ}

/-- The first `t` bytes of the frame of `record`, and behind them the frame of `added` with the same
number, which is not read back. -/
def Misread (record : LogRecord) (t : ℕ) (added : LogRecord) : Prop :=
  readAllRecords ((frame record).take t ++ frame { added with lsn := record.lsn }) ≠
    .ok [{ added with lsn := record.lsn }]

theorem length_take_frame (hlt : t < (frame record).length) :
    ((frame record).take t).length = t :=
  List.length_take_of_le (Nat.le_of_lt hlt)

/-- Where the torn frame ends, the size of the added record begins. -/
theorem size_behind (hlt : t < (frame record).length) (added : LogRecord) :
    ((frame record).take t ++ frame added)[t]? =
      some (UInt8.ofNat (serializeRecord added).length) := by
  have hlen := length_take_frame hlt
  rw [List.getElem?_append_right (by omega), hlen, Nat.sub_self, size_of_frame]

theorem wellFormed_begin : ({} : LogRecord).WellFormed :=
  ⟨rfl, by decide, by decide, by decide, by decide⟩

/-- A frame torn within its size: the size is read across the frames, and the number a few bytes too
early. -/
theorem misread_size (ht : t ≠ 0) (hfour : t < 4) (hlt : t < (frame record).length)
    (hlsn : record.lsn % 2 ^ 64 ≠ 0) : Misread record t {} := by
  intro hread
  obtain ⟨hnumber, -⟩ := head_of_readAllRecords hread
  refine hlsn (shifted_eq_zero (t := t) (by omega) hfour ?_)
  refine Eq.trans ?_ hnumber
  have hlen := length_take_frame hlt
  obtain ⟨tail, htail⟩ := frame_eq { lsn := record.lsn }
  rw [htail, List.drop_append, List.drop_of_length_le (by omega), hlen, List.nil_append]
  have hsize : (serializeRecord { lsn := record.lsn }).length = 29 := length_serializeRecord _
  have hencode : Bytes.encode 4 29 = [29, 0, 0, 0] := by decide
  rw [hsize, hencode]
  have hbytes : (Bytes.encode 8 record.lsn).length = 8 := Bytes.length_encode ..
  generalize Bytes.encode 8 record.lsn = bytes at hbytes ⊢
  match bytes, hbytes with
  | [b₀, b₁, b₂, b₃, b₄, b₅, b₆, b₇], _ =>
    have hcases : t = 1 ∨ t = 2 ∨ t = 3 := by omega
    rcases hcases with rfl | rfl | rfl <;> rfl

/-- A frame torn before its type: the size of the added record is read as the type. -/
theorem misread_type (hlt : 12 < (frame record).length) : Misread record 12 {} := by
  intro hread
  obtain ⟨-, b, hb, hb'⟩ := head_of_readAllRecords hread
  rw [size_behind hlt, length_serializeRecord] at hb
  rw [← Option.some.inj hb] at hb'
  cases hb'

/-- A frame torn within its number: the size of the added record is read as a byte of the number, and
of two sizes one is not that byte. -/
theorem exists_misread_number (hfour : 4 ≤ t) (htwelve : t < 12)
    (hlt : t < (frame record).length) :
    ∃ added : LogRecord, added.WellFormed ∧ Misread record t added := by
  have hmisread : ∀ {added : LogRecord}, ¬ Misread record t added →
      (Bytes.encode 8 record.lsn)[t - 4]? =
        some (UInt8.ofNat (serializeRecord { added with lsn := record.lsn }).length) := by
    intro added hread
    obtain ⟨hnumber, -⟩ := head_of_readAllRecords (not_not.mp hread)
    rw [← size_behind hlt, ← hnumber, List.getElem?_take, if_pos (by omega), List.getElem?_drop]
    congr 1
    omega
  by_cases hbyte : (Bytes.encode 8 record.lsn)[t - 4]? = some 29
  · refine ⟨{ newData := [0] }, ⟨rfl, by decide, by decide, by decide, by decide⟩, ?_⟩
    by_contra hread
    have hnot := hmisread hread
    have hsize : (serializeRecord { lsn := record.lsn, newData := [0] }).length = 30 :=
      length_serializeRecord _
    rw [hbyte, hsize] at hnot
    exact absurd (Option.some.inj hnot) (by decide)
  · refine ⟨{}, wellFormed_begin, ?_⟩
    by_contra hread
    refine hbyte ((hmisread hread).trans ?_)
    rw [length_serializeRecord]
    rfl

/-- A frame torn behind its type: the record is read with that type. -/
theorem exists_misread_body (h : record.WellFormed) (htype : 13 ≤ t)
    (hlt : t < (frame record).length) :
    ∃ added : LogRecord, added.WellFormed ∧ Misread record t added := by
  have hread : ∀ {added : LogRecord}, ¬ Misread record t added → record.type = added.type := by
    intro added hread
    have hlen := length_take_frame hlt
    obtain ⟨-, b, hb, hb'⟩ := head_of_readAllRecords (not_not.mp hread)
    rw [List.getElem?_append_left (by omega), List.getElem?_take, if_pos (by omega),
      type_of_frame] at hb
    rw [← Option.some.inj hb, h.type] at hb'
    exact hb'
  by_cases hbegin : record.type = .beginTxn
  · refine ⟨{ type := .commitTxn }, ⟨rfl, by decide, by decide, by decide, by decide⟩, ?_⟩
    by_contra hok
    have heq := hread hok
    rw [hbegin] at heq
    cases heq
  · refine ⟨{}, wellFormed_begin, ?_⟩
    by_contra hok
    exact hbegin (hread hok)

/-- A record of no transaction that is not read back behind a torn frame. -/
theorem exists_misread (h : record.WellFormed) (ht : t ≠ 0) (hlt : t < (frame record).length)
    (hlsn : record.lsn % 2 ^ 64 ≠ 0) :
    ∃ added : LogRecord, added.WellFormed ∧ Misread record t added := by
  -- The cases are the part of the frame in which it is torn: size, number, type, and the rest.
  by_cases hfour : t < 4
  · exact ⟨{}, wellFormed_begin, misread_size ht hfour hlt hlsn⟩
  by_cases htwelve : t < 12
  · exact exists_misread_number (by omega) htwelve hlt
  by_cases htype : t = 12
  · subst htype
    exact ⟨{}, wellFormed_begin, misread_type hlt⟩
  · exact exists_misread_body h (by omega) hlt

end Misread

/-- What is read after a crash and one more session, by the bytes that the crash has left of the
next record. -/
theorem resume_eq {history : List (List LogRecord)} {crashed added whole : List LogRecord} {cut : ℕ}
    {torn : Str} (hhistory : ∀ r ∈ history.flatten, r.WellFormed)
    (hwhole : ∀ r ∈ whole, r.WellFormed)
    (hlsn : history.flatten.length + whole.length + 1 ≤ 2 ^ 64)
    (hcut : (framed (history.flatten.length + 1) crashed).take cut =
      framed (history.flatten.length + 1) whole ++ torn)
    (htorn : readAllRecords torn = .ok []) :
    resume history crashed cut added =
      (number 1 (history.flatten ++ whole) ++ ·) <$>
        readAllRecords (torn ++ framed (history.flatten.length + whole.length + 1) added) := by
  have hsessions : sessions (framed 1 []) history = .ok (framed 1 ([] ++ history.flatten)) :=
    sessions_framed (by simpa using hhistory) (by simp only [List.nil_append]; omega)
  have hopen := openLog_framed hhistory (by omega) readAllRecords_nil
  rw [List.append_nil] at hopen
  have hcrash : crash (framed 1 history.flatten) crashed cut =
      .ok (framed 1 (history.flatten ++ whole) ++ torn) := by
    rw [crash, hopen, Machine.ok_bind, foldl_appendLog, List.nil_append, hcut, framed_append,
      Nat.add_comm 1, List.append_assoc]
    rfl
  have hall : ∀ r ∈ history.flatten ++ whole, r.WellFormed := by
    intro r hr
    exact (List.mem_append.mp hr).elim (hhistory r) (hwhole r)
  -- The next session numbers its records after the whole ones and writes behind the torn bytes.
  have hsession := session_framed hall (by rw [List.length_append]; exact hlsn) htorn added
  rw [List.length_append, List.append_assoc] at hsession
  have hread := readAllRecords_framed (n := 1) hall (by rw [List.length_append]; omega)
    (torn ++ framed (history.flatten.length + whole.length + 1) added)
  show (do
    let file ← sessions (framed 1 []) history
    let file ← crash file crashed cut
    let file ← session file added
    readAllRecords file) = _
  rw [hsessions, Machine.ok_bind, List.nil_append, hcrash, Machine.ok_bind, hsession,
    Machine.ok_bind, hread]

/-- After a crash the log goes on, with the records that are whole in what the crash has left and
then those of any next session, exactly when the crash has torn no frame. -/
theorem resume_iff (history : List (List LogRecord)) (crashed : List LogRecord) (cut : ℕ)
    (hhistory : ∀ records ∈ history, ∀ r ∈ records, r.WellFormed)
    (hcrashed : ∀ r ∈ crashed, r.WellFormed)
    (hlsn : history.flatten.length + crashed.length + 2 < 2 ^ 64) :
    (∀ added : List LogRecord, (∀ r ∈ added, r.WellFormed) →
      history.flatten.length + crashed.length + added.length + 1 < 2 ^ 64 →
      resume history crashed cut added =
        .ok (number 1 (history.flatten ++ crashed.take (wholeRecords cut crashed) ++ added))) ↔
    tornBytes cut crashed = 0 := by
  have hflat : ∀ r ∈ history.flatten, r.WellFormed := by
    intro r hr
    obtain ⟨records, hrecords, hmem⟩ := List.mem_flatten.mp hr
    exact hhistory records hrecords r hmem
  have hwhole : ∀ r ∈ crashed.take (wholeRecords cut crashed), r.WellFormed :=
    fun r hr => hcrashed r (List.mem_of_mem_take hr)
  have hlen : (crashed.take (wholeRecords cut crashed)).length ≤ crashed.length :=
    List.length_take_le' _ _
  rcases take_framed (history.flatten.length + 1) cut crashed with
    ⟨htorn, htake⟩ | ⟨next, hnext, htorn, hlt, htake⟩
  · refine iff_of_true (fun added hadded hbound => ?_) htorn
    have hcut := htake.trans (List.append_nil _).symm
    rw [resume_eq hflat hwhole (by omega) hcut readAllRecords_nil, List.nil_append]
    have hread := readAllRecords_framed
      (n := history.flatten.length + (crashed.take (wholeRecords cut crashed)).length + 1)
      hadded (by omega) []
    rw [readAllRecords_nil, Machine.ok_map, List.append_nil, List.append_nil] at hread
    rw [hread, Machine.ok_map, number_append 1 (history.flatten ++ _), List.length_append,
      Nat.add_comm 1]
  · refine iff_of_false (fun hall => ?_) htorn
    have hnumber : (crashed.take (wholeRecords cut crashed)).length = wholeRecords cut crashed :=
      List.length_take_of_le (wholeRecords_le cut crashed)
    obtain ⟨added, hadded, hmisread⟩ := exists_misread
      (wellFormed_stamp (hcrashed next hnext)
        (history.flatten.length + 1 + wholeRecords cut crashed)) htorn
      (by rw [length_frame_stamp]; exact hlt)
      (by simp only; rw [Nat.mod_eq_of_lt (by omega)]; omega)
    have hresume := hall [added] (by simpa using hadded) (by simp only [List.length_singleton]; omega)
    rw [resume_eq hflat hwhole (by omega) htake
      (readAllRecords_torn (wellFormed_stamp (hcrashed next hnext) _)
        (by rw [length_frame_stamp]; exact hlt))] at hresume
    obtain ⟨records, hread, heq⟩ := Machine.map_eq_ok.mp hresume
    rw [number_append 1 (history.flatten ++ _)] at heq
    have hrecords := List.append_cancel_left heq
    refine hmisread ?_
    have hone : framed (history.flatten.length +
        (crashed.take (wholeRecords cut crashed)).length + 1) [added] =
        frame { added with lsn := history.flatten.length + 1 + wholeRecords cut crashed } := by
      rw [framed_cons, hnumber, Nat.add_right_comm]
      exact List.append_nil _
    rw [hone] at hread
    rw [hread, hrecords, List.length_append, hnumber, number, ← Nat.add_assoc, Nat.add_comm 1,
      Nat.add_right_comm]
    rfl

/-- A crash at the end of a record, and a session after it. -/
theorem resume_iff_at_boundary : resume sampleHistory [{ txnId := 2 }] 33
    [{ type := .commitTxn, txnId := 2 }] = .ok (number 1 (sampleHistory.flatten ++
      [{ txnId := 2 }] ++ [{ type := .commitTxn, txnId := 2 }])) :=
  (resume_iff sampleHistory [{ txnId := 2 }] 33 sample_wellFormed
    (by simpa using ⟨rfl, by decide, by decide, by decide, by decide⟩) (by decide)).mpr (by decide)
    [{ type := .commitTxn, txnId := 2 }]
    (by simpa using ⟨rfl, by decide, by decide, by decide, by decide⟩) (by decide)

/-- The insertion of a tuple of a hundred bytes. -/
def sampleInsert : LogRecord :=
  { type := .insert, txnId := 1, tableName := lit "t", newData := List.replicate 100 1 }

/-- A crash within a record, and a session after it whose record is lost. -/
theorem resume_loses_record : ¬ ∀ (history : List (List LogRecord)) (crashed : List LogRecord)
    (cut : ℕ) (added : List LogRecord), (∀ records ∈ history, ∀ r ∈ records, r.WellFormed) →
    (∀ r ∈ crashed, r.WellFormed) → (∀ r ∈ added, r.WellFormed) →
    resume history crashed cut added =
      .ok (number 1 (history.flatten ++ crashed.take (wholeRecords cut crashed) ++ added)) := by
  intro h
  have hinsert : sampleInsert.WellFormed :=
    ⟨rfl, by decide, by decide, by decide, by rw [length_serializeRecord]; decide +kernel⟩
  have hok := h [] [sampleInsert] 40 [{ type := .commitTxn, txnId := 1 }] (by simp)
    (by simpa using hinsert)
    (by simpa using ⟨rfl, by decide, by decide, by decide, by decide⟩)
  have hlost : (resume [] [sampleInsert] 40 [{ type := .commitTxn, txnId := 1 }]).toOption =
      some [] := by decide +kernel
  rw [hok] at hlost
  exact absurd hlost (by decide +kernel)

end LogManager

end MiniDB
