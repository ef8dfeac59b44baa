import MiniDB.Common
import MiniDB.Foundations.Bytes
import MiniDB.Foundations.Dict
import MiniDB.Foundations.Program

/-!
# The disk manager

`DiskManager.h` and `DiskManager.cpp`: table files as sequences of pages. A file of the data
directory is its size and its bytes; an open file is known by an id and keeps the number of its
pages. Streams are flushed after every write, so a write is on the disk when the call returns. The
model's file system refuses files of `2^32` pages, where the source's 32-bit page count would wrap:
growing a file that far is a failed disk operation.

## Main definitions

* `Fault`: the ways a call of the engine can end without returning
* `File`, `DiskManager`: a file, and the open files over the data directory
* `createFile`, `openFile`, `closeFile`, `readPage`, `writePage`, `allocateNewPage`: the calls
-/

namespace MiniDB

/-- What ends a call without a result: a `std::runtime_error` with its text, a failed disk
operation, an access outside the bytes of a page or a buffer, a value read at the type it does not
have, a call of a B+ tree that does not return, or a loop that outlives its fuel. -/
inductive Fault
  | runtimeError (what : Str)
  | io
  | overrun
  | badVariant
  | index
  | fuel
deriving DecidableEq, Repr

/-- A page of raw bytes. -/
abbrev Page := Block PAGE_SIZE

/-- A file: its size in bytes, and its bytes. -/
structure File where
  size : ℕ
  byte : ℕ → UInt8

namespace File

/-- The file just after it was created or truncated. -/
def empty : File := ⟨0, fun _ => 0⟩

/-- The page of bytes from an offset on; what lies beyond the end of the file is zero. -/
def readAt (file : File) (offset : ℕ) : Page := fun i =>
  if offset + i.val < file.size then file.byte (offset + i.val) else 0

/-- A page of bytes written at an offset; a gap before it is filled with zeros. -/
def writeAt (file : File) (offset : ℕ) (buffer : Page) : File where
  size := max file.size (offset + PAGE_SIZE)
  byte := fun i =>
    if offset ≤ i ∧ i < offset + PAGE_SIZE then buffer.byte (i - offset)
    else if i < file.size then file.byte i else 0

end File

/-- An open file: its path and the number of its pages. -/
structure FileHandle where
  fileName : Str
  pageCount : ℕ
deriving DecidableEq, Repr

/-- The disk manager: the files of the disk by their paths, the open files and the next id. -/
structure DiskManager where
  disk : Str → Option File
  files : Dict ℤ FileHandle
  nextFileId : ℤ

namespace DiskManager

/-- `DiskManager::DiskManager` over the files that are already there. -/
def new (disk : Str → Option File) : DiskManager where
  disk := disk
  files := .empty
  nextFileId := 1

/-- The path of a file in the data directory. -/
def fullPath (fileName : Str) : Str := lit "minidb_data" ++ lit "/" ++ fileName

/-- The error of a call with an id that is not open. -/
def invalidFile : Fault := .runtimeError (lit "DiskManager: invalid file ID")

/-- The handle of an open file. -/
def handle (fileId : ℤ) : Program DiskManager Fault FileHandle := do
  match (← Program.get).files.find? fileId with
  | some h => return h
  | none => Program.throw invalidFile

/-- The contents of the file with a path. -/
def content (d : DiskManager) (path : Str) : File := (d.disk path).getD .empty

/-- The contents of a file replaced. -/
def setContent (d : DiskManager) (path : Str) (file : File) : DiskManager :=
  { d with disk := Function.update d.disk path (some file) }

/-- The page count of an open file changed. -/
def setHandle (d : DiskManager) (fileId : ℤ) (h : FileHandle) : DiskManager :=
  { d with files := d.files.insert fileId h }

/-- `DiskManager::createFile`: an existing file is truncated. -/
def createFile (fileName : Str) : Program DiskManager Fault ℤ := do
  let d ← Program.get
  let d := d.setContent (fullPath fileName) .empty
  let d := d.setHandle d.nextFileId ⟨fullPath fileName, 0⟩
  Program.set { d with nextFileId := d.nextFileId + 1 }
  return d.nextFileId

/-- `DiskManager::openFile`: `-1` when there is no such file. The size is cut to 32 bits before it
is divided by the page size. -/
def openFile (fileName : Str) : Program DiskManager Fault ℤ := do
  let d ← Program.get
  match d.disk (fullPath fileName) with
  | none => return -1
  | some file =>
    let d := d.setHandle d.nextFileId ⟨fullPath fileName, file.size % 2 ^ 32 / PAGE_SIZE⟩
    Program.set { d with nextFileId := d.nextFileId + 1 }
    return d.nextFileId

/-- `DiskManager::closeFile`. -/
def closeFile (fileId : ℤ) : Program DiskManager Fault Unit :=
  Program.modify fun d => { d with files := d.files.erase fileId }

/-- `DiskManager::readPage`. -/
def readPage (fileId : ℤ) (pageNum : ℕ) : Program DiskManager Fault Page := do
  let h ← handle fileId
  return ((← Program.get).content h.fileName).readAt (pageNum * PAGE_SIZE)

/-- `DiskManager::writePage`. -/
def writePage (fileId : ℤ) (pageNum : ℕ) (buffer : Page) : Program DiskManager Fault Unit := do
  let h ← handle fileId
  Program.modify fun d =>
    d.setContent h.fileName ((d.content h.fileName).writeAt (pageNum * PAGE_SIZE) buffer)
  if h.pageCount ≤ pageNum then
    Program.modify fun d => d.setHandle fileId { h with pageCount := (pageNum + 1) % 2 ^ 32 }

/-- `DiskManager::getFilePageCount`. -/
def getFilePageCount (d : DiskManager) (fileId : ℤ) : ℕ :=
  match d.files.find? fileId with
  | some h => h.pageCount
  | none => 0

/-- `DiskManager::allocateNewPage`: a page of zeros at the end of the file. -/
def allocateNewPage (fileId : ℤ) : Program DiskManager Fault ℕ := do
  let h ← handle fileId
  if h.pageCount < INVALID_PAGE_ID then
    Program.modify fun d => d.setHandle fileId { h with pageCount := h.pageCount + 1 }
    Program.modify fun d => d.setContent h.fileName
      ((d.content h.fileName).writeAt (h.pageCount * PAGE_SIZE) Block.zero)
    return h.pageCount
  else Program.throw .io

end DiskManager

end MiniDB
