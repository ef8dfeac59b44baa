import MiniDB.Recovery.LogFile

/-!
# Any bytes as a log

`readAllRecords` on bytes that no session has left as they are. Of the first bytes of a log it
returns the records whose frames are whole. On arbitrary bytes its loop always ends, but
`deserializeRecord` does not look at the length of the buffer: it stays inside exactly when the
three lengths embedded in the record leave room for one another and for the fields of fixed width.

## Main definitions

* `LogManager.FrameOf file body`: the bytes of a whole frame of the file
* `LogManager.Consistent body`: the embedded lengths of a record fit its buffer

## Main results

* `LogManager.readAllRecords_take`: the whole records of the first bytes of a log
* `LogManager.readAllRecords_inBounds_iff`: when no read leaves the buffer of a record
-/

namespace MiniDB.LogManager

/-! ## The first bytes of a log -/

/-- Of the first `n` bytes of any framed records exactly the records are read whose frames lie
within them, and the reading stops there. -/
theorem readAllRecords_take (records : List LogRecord)
    (h : ∀ r ∈ records, r.WellFormed ∧ r.lsn < 2 ^ 64) (n : ℕ) :
    ∃ k ≤ records.length, readAllRecords ((records.flatMap frame).take n) = .ok (records.take k) ∧
      ((records.take k).flatMap frame).length ≤ n ∧
      (k < records.length → n < ((records.take (k + 1)).flatMap frame).length) := by
  induction records generalizing n with
  | nil => exact ⟨0, Nat.le_refl 0, by rw [List.flatMap_nil, List.take_nil]; rfl, by simp, by simp⟩
  | cons r records ih =>
    obtain ⟨⟨hr, hlsn⟩, hrest⟩ := List.forall_mem_cons.mp h
    rw [List.flatMap_cons]
    by_cases hwhole : (frame r).length ≤ n
    · obtain ⟨k, hk, hread, hle, hlt⟩ := ih hrest (n - (frame r).length)
      refine ⟨k + 1, Nat.succ_le_succ hk, ?_, ?_, ?_⟩
      · rw [List.take_append, List.take_of_length_le hwhole, readAllRecords_frame hr hlsn, hread]
        rfl
      · rw [List.take_succ_cons, List.flatMap_cons, List.length_append]
        omega
      · intro hk'
        have hnext := hlt (Nat.lt_of_succ_lt_succ hk')
        rw [List.take_succ_cons, List.flatMap_cons, List.length_append]
        omega
    · have hcut : n < (frame r).length := Nat.not_le.mp hwhole
      refine ⟨0, Nat.zero_le _, ?_, by simp, fun _ => by simpa using hcut⟩
      rw [List.take_append_of_le_length (Nat.le_of_lt hcut), readAllRecords_torn hr hcut,
        List.take_zero]

/-- A beginning, an insertion and a commit cut seven bytes into the second frame. -/
theorem readAllRecords_take_torn :
    readAllRecords ((sampleHistory.flatten.flatMap frame).take 40) =
      .ok (sampleHistory.flatten.take 1) := by
  have hwf : ∀ r ∈ sampleHistory.flatten, r.WellFormed ∧ r.lsn < 2 ^ 64 := by
    intro r hr
    obtain ⟨records, hrecords, hmem⟩ := List.mem_flatten.mp hr
    have hlsn : ∀ r ∈ sampleHistory.flatten, r.lsn < 2 ^ 64 := by decide
    exact ⟨sample_wellFormed records hrecords r hmem, hlsn r hr⟩
  obtain ⟨k, hk, hread, hle, hlt⟩ := readAllRecords_take sampleHistory.flatten hwf 40
  match k, hk with
  | 0, _ => exact absurd (hlt (by decide)) (by decide)
  | 1, _ => exact hread
  | 2, _ => exact absurd hle (by decide)
  | 3, _ => exact absurd hle (by decide)

/-! ## Malformed logs -/

/-- A whole frame of a file: it begins where the frames before it end, and as many bytes follow its
size as the size says. -/
inductive FrameOf : Str → Str → Prop
  | first {size body rest : Str} : size.length = 4 → body.length = Bytes.decode size →
    FrameOf (size ++ (body ++ rest)) body
  | later {size body rest body' : Str} : size.length = 4 → body.length = Bytes.decode size →
    FrameOf rest body' → FrameOf (size ++ (body ++ rest)) body'

/-- The number in `w` bytes of a buffer. -/
def field (body : Str) (offset w : ℕ) : ℕ := Bytes.decode ((body.drop offset).take w)

/-- The length of the table name in a record. -/
def nameLenOf (body : Str) : ℕ := field body 13 2

/-- The length of the old data in a record. -/
def oldLenOf (body : Str) : ℕ := field body (21 + nameLenOf body) 4

/-- The length of the new data in a record. -/
def newLenOf (body : Str) : ℕ := field body (25 + nameLenOf body + oldLenOf body) 4

/-- The buffer has room for the fields of fixed width, and for the name and the data as long as the
record says they are. -/
def Consistent (body : Str) : Prop :=
  29 + nameLenOf body + oldLenOf body + newLenOf body ≤ body.length

instance (body : Str) : Decidable (Consistent body) := inferInstanceAs (Decidable (_ ≤ _))

theorem slice_eq_ok {data bytes : Str} {i n : ℕ} :
    Vec.slice Fault.overrun data i n = .ok bytes ↔
      i + n ≤ data.length ∧ (data.drop i).take n = bytes := by
  unfold Vec.slice
  split
  case isTrue h => simp [h]
  case isFalse h => simp [h]

theorem readNat_eq_ok {data : Str} {i w n : ℕ} :
    readNat data i w = .ok n ↔ i + w ≤ data.length ∧ field data i w = n := by
  unfold readNat Vec.slice field
  split
  case isTrue h => simp [h]
  case isFalse h => simp [h]

theorem get_eq_ok {data : Str} {i : ℕ} :
    (∃ b, Vec.get Fault.overrun data i = .ok b) ↔ i < data.length := by
  constructor
  · rintro ⟨b, hb⟩
    by_contra hlen
    rw [Vec.get_of_length_le (Nat.not_lt.mp hlen)] at hb
    cases hb
  · intro h
    exact ⟨_, Vec.get_of_getElem? (List.getElem?_eq_getElem h)⟩

/-- A record is read without a look beyond its buffer exactly when its lengths are consistent. -/
theorem deserializeRecord_eq_ok {data : Str} :
    (∃ record, deserializeRecord data = .ok record) ↔ Consistent data := by
  constructor
  · rintro ⟨record, h⟩
    simp only [deserializeRecord, Machine.bind_eq_ok] at h
    obtain ⟨lsn, -, b, -, txnId, -, nameLen, hname, tableName, -, pageId, -, slotNum, -, oldLen, hold,
      oldData, -, newLen, hnew, newData, hdata, -⟩ := h
    obtain ⟨-, hname⟩ := readNat_eq_ok.mp hname
    obtain ⟨-, hold⟩ := readNat_eq_ok.mp hold
    obtain ⟨-, hnew⟩ := readNat_eq_ok.mp hnew
    obtain ⟨hlen, -⟩ := slice_eq_ok.mp hdata
    have hname' : nameLenOf data = nameLen := hname
    have hold' : oldLenOf data = oldLen := by
      rw [oldLenOf, hname', ← hold]
      congr 1
      omega
    have hnew' : newLenOf data = newLen := by
      rw [newLenOf, hname', hold', ← hnew]
      congr 1
      omega
    rw [Consistent, hname', hold', hnew']
    omega
  · intro h
    unfold Consistent at h
    have hread : ∀ {i w}, i + w ≤ data.length → readNat data i w = .ok (field data i w) :=
      fun hle => readNat_eq_ok.mpr ⟨hle, rfl⟩
    have hslice : ∀ {i n}, i + n ≤ data.length →
        Vec.slice Fault.overrun data i n = .ok ((data.drop i).take n) :=
      fun hle => slice_eq_ok.mpr ⟨hle, rfl⟩
    obtain ⟨b, hb⟩ := get_eq_ok.mpr (show 8 < data.length by omega)
    have hname : readNat data 13 2 = .ok (nameLenOf data) := hread (by omega)
    have hold : readNat data (15 + nameLenOf data + 6) 4 = .ok (oldLenOf data) := by
      rw [show 15 + nameLenOf data + 6 = 21 + nameLenOf data by omega]
      exact hread (by omega)
    have hnew : readNat data (15 + nameLenOf data + 10 + oldLenOf data) 4 =
        .ok (newLenOf data) := by
      rw [show 15 + nameLenOf data + 10 + oldLenOf data =
        25 + nameLenOf data + oldLenOf data by omega]
      exact hread (by omega)
    have hlsn := hread (show 0 + 8 ≤ data.length by omega)
    have htxn := hread (show 9 + 4 ≤ data.length by omega)
    have htable := hslice (show 15 + nameLenOf data ≤ data.length by omega)
    have hpage := hread (show 15 + nameLenOf data + 4 ≤ data.length by omega)
    have hslot := hread (show 15 + nameLenOf data + 4 + 2 ≤ data.length by omega)
    have hdata := hslice (show 15 + nameLenOf data + 10 + oldLenOf data ≤ data.length by omega)
    have hdata' := hslice
      (show 15 + nameLenOf data + 10 + oldLenOf data + 4 + newLenOf data ≤ data.length by omega)
    simp only [deserializeRecord, hlsn, hb, htxn, hname, htable, hpage, hslot, hold, hdata, hnew,
      hdata', Machine.ok_bind]
    exact ⟨_, rfl⟩

/-! ## Reading fails only outside the buffer -/

section Faults

open Machine

theorem faultsIn_slice (data : Str) (i n : ℕ) :
    FaultsIn (· = .overrun) (Vec.slice Fault.overrun data i n) := by
  unfold Vec.slice
  refine .ite (faultsIn_ok _) ?_
  rintro e ⟨⟩
  rfl

theorem faultsIn_get (data : Str) (i : ℕ) :
    FaultsIn (· = .overrun) (Vec.get Fault.overrun data i) := by
  unfold Vec.get
  split
  · exact faultsIn_ok _
  · rintro e ⟨⟩
    rfl

theorem faultsIn_readNat (data : Str) (i w : ℕ) : FaultsIn (· = .overrun) (readNat data i w) :=
  (faultsIn_slice data i w).map

theorem faultsIn_deserializeRecord (data : Str) :
    FaultsIn (· = .overrun) (deserializeRecord data) := by
  unfold deserializeRecord
  refine (faultsIn_readNat _ _ _).bind fun _ _ => (faultsIn_get _ _).bind fun _ _ => ?_
  refine (faultsIn_readNat _ _ _).bind fun _ _ => (faultsIn_readNat _ _ _).bind fun _ _ => ?_
  refine (faultsIn_slice _ _ _).bind fun _ _ => (faultsIn_readNat _ _ _).bind fun _ _ => ?_
  refine (faultsIn_readNat _ _ _).bind fun _ _ => (faultsIn_readNat _ _ _).bind fun _ _ => ?_
  refine (faultsIn_slice _ _ _).bind fun _ _ => (faultsIn_readNat _ _ _).bind fun _ _ => ?_
  exact (faultsIn_slice _ _ _).bind fun _ _ => faultsIn_ok _

end Faults

theorem frameOf_cases {size body rest body' : Str} (hsize : size.length = 4)
    (hbody : body.length = Bytes.decode size) :
    FrameOf (size ++ (body ++ rest)) body' ↔ body' = body ∨ FrameOf rest body' := by
  constructor
  · intro h
    generalize hfile : size ++ (body ++ rest) = file at h
    cases h with
    | @first size' _ rest' hsize' hbody' =>
      obtain ⟨rfl, htail⟩ := List.append_inj hfile (hsize.trans hsize'.symm)
      exact Or.inl (List.append_inj_left htail (hbody.trans hbody'.symm)).symm
    | @later size' body'' rest' _ hsize' hbody' hrest' =>
      obtain ⟨rfl, htail⟩ := List.append_inj hfile (hsize.trans hsize'.symm)
      obtain ⟨rfl, rfl⟩ := List.append_inj htail (hbody.trans hbody'.symm)
      exact Or.inr hrest'
  · rintro (rfl | h)
    · exact .first hsize hbody
    · exact .later hsize hbody h

/-- The size and the bytes of a frame are in front of the file. -/
theorem FrameOf.length_le {file body : Str} (h : FrameOf file body) :
    4 + Bytes.decode (file.take 4) ≤ file.length := by
  have hsplit : ∀ {size body rest : Str}, size.length = 4 → body.length = Bytes.decode size →
      4 + Bytes.decode ((size ++ (body ++ rest)).take 4) ≤ (size ++ (body ++ rest)).length := by
    intro size body rest hsize hbody
    rw [← hsize, List.take_left, List.length_append, List.length_append, hbody]
    omega
  cases h with
  | first hsize hbody => exact hsplit hsize hbody
  | later hsize hbody _ => exact hsplit hsize hbody

/-- The loop returns when the frames it meets are consistent, and it always ends. -/
theorem readRecords_inBounds_iff (fuel : ℕ) (bytes : Str) (hfuel : bytes.length < fuel) :
    ((∃ records, readRecords fuel bytes = .ok records) ↔
      ∀ body, FrameOf bytes body → Consistent body) ∧ readRecords fuel bytes ≠ .error .fuel := by
  induction fuel generalizing bytes with
  | zero => exact absurd hfuel (Nat.not_lt_zero _)
  | succ fuel ih =>
    have hnone : (bytes.length < 4 ∨ (bytes.drop 4).length < Bytes.decode (bytes.take 4)) →
        ∀ body, FrameOf bytes body → Consistent body := by
      intro hshort body hbody
      have hle := hbody.length_le
      rw [List.length_drop] at hshort
      omega
    rw [readRecords]
    split
    case isTrue hfour =>
      exact ⟨iff_of_true ⟨[], rfl⟩ (hnone (Or.inl hfour)), by simp⟩
    case isFalse hfour =>
      simp only
      split
      case isTrue hshort => exact ⟨iff_of_true ⟨[], rfl⟩ (hnone (Or.inr hshort)), by simp⟩
      case isFalse hlong =>
        set body := (bytes.drop 4).take (Bytes.decode (bytes.take 4)) with hbody
        set rest := (bytes.drop 4).drop (Bytes.decode (bytes.take 4)) with hrest
        have hsize : (bytes.take 4).length = 4 := List.length_take_of_le (Nat.not_lt.mp hfour)
        have hlen : body.length = Bytes.decode (bytes.take 4) :=
          List.length_take_of_le (Nat.not_lt.mp hlong)
        have hsplit : bytes = bytes.take 4 ++ (body ++ rest) := by
          rw [List.take_append_drop, List.take_append_drop]
        have hless : rest.length < fuel := by
          rw [hrest, List.length_drop, List.length_drop]
          omega
        obtain ⟨hiff, hends⟩ := ih rest hless
        have hframes : (∀ body', FrameOf bytes body' → Consistent body') ↔
            Consistent body ∧ ∀ body', FrameOf rest body' → Consistent body' := by
          conv_lhs => rw [hsplit]
          simp only [frameOf_cases hsize hlen, forall_eq_or_imp]
        rw [hframes, ← hiff, ← deserializeRecord_eq_ok]
        cases hrecord : deserializeRecord body with
        | error e =>
          refine ⟨iff_of_false (by simp) (by simp), fun heq => ?_⟩
          obtain rfl : e = .fuel := Except.error.inj heq
          exact absurd (faultsIn_deserializeRecord body _ hrecord) (by decide)
        | ok record =>
          simp only [Machine.ok_bind]
          cases hrecords : readRecords fuel rest with
          | error e =>
            rw [hrecords] at hends
            exact ⟨iff_of_false (by simp) (by simp), hends⟩
          | ok records => exact ⟨iff_of_true ⟨_, rfl⟩ ⟨⟨_, rfl⟩, ⟨_, rfl⟩⟩, by simp⟩

/-- On any bytes the loop of `readAllRecords` ends. It returns, with every read inside the buffer of
its record, exactly when the embedded lengths of every whole frame fit the frame; then the log can
be opened. -/
theorem readAllRecords_inBounds_iff (file : Str) :
    ((∃ records, readAllRecords file = .ok records) ↔
      ∀ body, FrameOf file body → Consistent body) ∧
    readAllRecords file ≠ .error .fuel ∧
    ((∃ log, openLog file = .ok log) ↔ ∃ records, readAllRecords file = .ok records) := by
  obtain ⟨hiff, hends⟩ := readRecords_inBounds_iff (file.length + 1) file (Nat.lt_succ_self _)
  refine ⟨hiff, hends, ?_⟩
  unfold openLog
  cases readAllRecords file with
  | error e => exact iff_of_false (by simp) (by simp)
  | ok records => exact iff_of_true ⟨_, rfl⟩ ⟨_, rfl⟩

/-- A frame of size zero, whose first read is already outside the buffer; and one with the 29 bytes
of the fields of fixed width, whose name is said to be one byte long. -/
theorem readAllRecords_overruns : readAllRecords [0, 0, 0, 0] = .error .overrun ∧
    readAllRecords ([29, 0, 0, 0] ++ (List.replicate 13 0 ++ 1 :: List.replicate 15 0)) =
      .error .overrun := by
  decide

end MiniDB.LogManager
