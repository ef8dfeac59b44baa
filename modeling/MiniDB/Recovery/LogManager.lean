import MiniDB.Foundations.Machine
import MiniDB.Foundations.Vec
import MiniDB.Storage.DiskManager

/-!
# The log manager

`LogManager.h` and `LogManager.cpp`: the write-ahead log as a file of framed records. What a session
has appended is in the file once the stream is flushed; until then it is pending. A record is read
from the buffer of its frame, and a read past that buffer is a fault.

## Main definitions

* `LogRecord`: the records of the log
* `serializeRecord`, `deserializeRecord`: a record as bytes
* `LogManager`: the file, what is pending, and the next log sequence number
* `appendLog`, `logBegin`, `logCommit`, `logInsert`, `logDelete`, `readAllRecords`: the calls
-/

namespace MiniDB

/-- The types of log records; a byte that codes none of them is kept. -/
inductive LogRecordType
  | insert
  | delete
  | update
  | beginTxn
  | commitTxn
  | abortTxn
  | checkpoint
  | other (code : UInt8)
deriving DecidableEq, Repr

namespace LogRecordType

/-- The byte of a record type. -/
def toByte : LogRecordType → UInt8
  | insert => 0
  | delete => 1
  | update => 2
  | beginTxn => 3
  | commitTxn => 4
  | abortTxn => 5
  | checkpoint => 6
  | other code => code

/-- The record type of a byte. -/
def ofByte (code : UInt8) : LogRecordType :=
  if code = 0 then insert
  else if code = 1 then delete
  else if code = 2 then update
  else if code = 3 then beginTxn
  else if code = 4 then commitTxn
  else if code = 5 then abortTxn
  else if code = 6 then checkpoint
  else other code

end LogRecordType

/-- A record of the log, with the initial values of its constructor. -/
structure LogRecord where
  lsn : ℕ := 0
  type : LogRecordType := .beginTxn
  txnId : Int32 := 0
  tableName : Str := []
  rid : RID := ⟨0, 0⟩
  oldData : Str := []
  newData : Str := []
deriving DecidableEq

/-- The log manager: the bytes of its file, the bytes still in the stream, and the next log sequence
number. -/
structure LogManager where
  file : Str
  pending : Str
  nextLSN : ℕ
deriving DecidableEq

namespace LogManager

/-- `LogManager::serializeRecord`. -/
def serializeRecord (record : LogRecord) : Str :=
  Bytes.encode 8 record.lsn ++ [record.type.toByte] ++ Bytes.encode 4 record.txnId.toUInt32.toNat ++
    Bytes.encode 2 record.tableName.length ++ record.tableName ++
    Bytes.encode 4 record.rid.pageId ++ Bytes.encode 2 record.rid.slotNum ++
    Bytes.encode 4 record.oldData.length ++ record.oldData ++
    Bytes.encode 4 record.newData.length ++ record.newData

/-- A number of `w` bytes copied from a buffer. -/
def readNat (data : Str) (offset w : ℕ) : Except Fault ℕ :=
  Bytes.decode <$> Vec.slice .overrun data offset w

/-- `LogManager::deserializeRecord`. -/
def deserializeRecord (data : Str) : Except Fault LogRecord := do
  let lsn ← readNat data 0 8
  let type ← Vec.get .overrun data 8
  let txnId ← readNat data 9 4
  let nameLen ← readNat data 13 2
  let tableName ← Vec.slice .overrun data 15 nameLen
  let offset := 15 + nameLen
  let pageId ← readNat data offset 4
  let slotNum ← readNat data (offset + 4) 2
  let oldLen ← readNat data (offset + 6) 4
  let oldData ← Vec.slice .overrun data (offset + 10) oldLen
  let offset := offset + 10 + oldLen
  let newLen ← readNat data offset 4
  let newData ← Vec.slice .overrun data (offset + 4) newLen
  return ⟨lsn, .ofByte type, (UInt32.ofNat txnId).toInt32, tableName, ⟨pageId, slotNum⟩, oldData,
    newData⟩

/-- A record in its frame: its size, and its bytes. -/
def frame (record : LogRecord) : Str :=
  Bytes.encode 4 (serializeRecord record).length ++ serializeRecord record

/-- The loop of `readAllRecords`. -/
def readRecords : ℕ → Str → Except Fault (List LogRecord)
  | 0, _ => .error .fuel
  | fuel + 1, bytes =>
    if bytes.length < 4 then .ok []
    else
      let recordSize := Bytes.decode (bytes.take 4)
      let rest := bytes.drop 4
      if rest.length < recordSize then .ok []
      else do
        let record ← deserializeRecord (rest.take recordSize)
        let records ← readRecords fuel (rest.drop recordSize)
        return record :: records

/-- `LogManager::readAllRecords`: it reads the file, not what is still in the stream. -/
def readAllRecords (file : Str) : Except Fault (List LogRecord) := readRecords (file.length + 1) file

/-- `LogManager::open` on a file with these bytes. The next log sequence number is a natural number,
where the one of the source wraps at `2 ^ 64`. -/
def openLog (file : Str) : Except Fault LogManager := do
  let records ← readAllRecords file
  let nextLSN := records.foldl (fun n rec => if n ≤ rec.lsn then rec.lsn + 1 else n) 1
  return ⟨file, [], nextLSN⟩

/-- `LogManager::appendLog`: the log sequence number of the record is the next one, which is not
bounded here. The bytes stay in the stream until `flushLog`, although the stream of the source may
write some of them earlier: what a crash leaves is the file and any first part of what is pending. -/
def appendLog (log : LogManager) (record : LogRecord) : LogManager := { log with
  pending := log.pending ++ frame { record with lsn := log.nextLSN }
  nextLSN := log.nextLSN + 1 }

/-- `LogManager::flushLog`. -/
def flushLog (log : LogManager) : LogManager :=
  { log with file := log.file ++ log.pending, pending := [] }

/-- `LogManager::logBegin`. -/
def logBegin (log : LogManager) (txnId : Int32) : LogManager :=
  log.appendLog { type := .beginTxn, txnId := txnId }

/-- `LogManager::logCommit`. -/
def logCommit (log : LogManager) (txnId : Int32) : LogManager :=
  (log.appendLog { type := .commitTxn, txnId := txnId }).flushLog

/-- `LogManager::logAbort`. -/
def logAbort (log : LogManager) (txnId : Int32) : LogManager :=
  log.appendLog { type := .abortTxn, txnId := txnId }

/-- `LogManager::logInsert`. -/
def logInsert (log : LogManager) (txnId : Int32) (tableName : Str) (rid : RID) (data : Str) :
    LogManager :=
  log.appendLog
    { type := .insert, txnId := txnId, tableName := tableName, rid := rid, newData := data }

/-- `LogManager::logDelete`. -/
def logDelete (log : LogManager) (txnId : Int32) (tableName : Str) (rid : RID) (oldData : Str) :
    LogManager :=
  log.appendLog
    { type := .delete, txnId := txnId, tableName := tableName, rid := rid, oldData := oldData }

end LogManager

end MiniDB
