import MiniDB.Storage.BufferPool

/-!
# The page manager

`PageManager.h` and `PageManager.cpp`: heap files of slotted pages. The header of a page is read and
written in the bytes of the page, so that a tuple copied over it is seen by every later read of it.
Every access to the slot arrays and every copy into or out of a page is checked. The bytes a pointer
into a page gives access to are those from its offset to the end of the page.

## Main definitions

* `Page.numSlots`, `Page.freeSpacePtr`, `Page.slotDirectory`, `Page.slotLengths`: the header
* `createTable`, `openTable`, `insertTuple`, `readTuple`, `deleteTuple`, `scanTable`: the calls
-/

namespace MiniDB

/-- `sizeof(SlottedPageHeader)`: a 32-bit page id, two 16-bit numbers and two arrays of 16-bit
numbers. -/
def HEADER_SIZE : ℕ := 4 + 2 + 2 + 2 * MAX_SLOTS_PER_PAGE + 2 * MAX_SLOTS_PER_PAGE

namespace Page

/-- `header->numSlots`. -/
def numSlots (page : Page) : ℕ := Block.field 2 page 4

/-- `header->freeSpacePtr`. -/
def freeSpacePtr (page : Page) : ℕ := Block.field 2 page 6

/-- `header->slotDirectory[i]`. -/
def slotDirectory (page : Page) (i : ℕ) : Except Fault ℕ :=
  if i < MAX_SLOTS_PER_PAGE then .ok (Block.field 2 page (8 + 2 * i)) else .error .overrun

/-- `header->slotLengths[i]`. -/
def slotLengths (page : Page) (i : ℕ) : Except Fault ℕ :=
  if i < MAX_SLOTS_PER_PAGE then .ok (Block.field 2 page (264 + 2 * i)) else .error .overrun

/-- An assignment to `header->pageId`. -/
def setPageId (page : Page) (v : ℕ) : Page := Block.setField 4 page 0 v

/-- An assignment to `header->numSlots`. -/
def setNumSlots (page : Page) (v : ℕ) : Page := Block.setField 2 page 4 v

/-- An assignment to `header->freeSpacePtr`. -/
def setFreeSpacePtr (page : Page) (v : ℕ) : Page := Block.setField 2 page 6 v

/-- An assignment to `header->slotDirectory[i]`. -/
def setSlotDirectory (page : Page) (i v : ℕ) : Except Fault Page :=
  if i < MAX_SLOTS_PER_PAGE then .ok (Block.setField 2 page (8 + 2 * i) v) else .error .overrun

/-- An assignment to `header->slotLengths[i]`. -/
def setSlotLengths (page : Page) (i v : ℕ) : Except Fault Page :=
  if i < MAX_SLOTS_PER_PAGE then .ok (Block.setField 2 page (264 + 2 * i) v) else .error .overrun

/-- `memcpy` of bytes into the page. -/
def copyIn (page : Page) (offset : ℕ) (bytes : Str) : Except Fault Page :=
  if offset + bytes.length ≤ PAGE_SIZE then .ok (page.write offset bytes) else .error .overrun

/-- `memcpy` of bytes out of the page. -/
def copyOut (page : Page) (offset length : ℕ) : Except Fault Str :=
  if offset + length ≤ PAGE_SIZE then .ok (page.read offset length) else .error .overrun

/-- The bytes a pointer into the page gives access to. -/
def bytesFrom (page : Page) (offset : ℕ) : Str := page.read offset (PAGE_SIZE - offset)

/-- `PAGE_SIZE - usedSpace` in 16 bits. -/
def freeSpace (page : Page) : ℕ := (2 ^ 16 + PAGE_SIZE - page.freeSpacePtr) % 2 ^ 16

end Page

namespace PageManager

open Storage

/-- `PageManager::initPage`. -/
def initPage (pageId : ℕ) : Page :=
  Page.setFreeSpacePtr (Page.setNumSlots (Page.setPageId Block.zero pageId) 0) HEADER_SIZE

/-- The allocation of a page that is then initialised, as `createTable` and `findFreePage` do it. -/
def newPage (fileId : ℤ) : Program Storage Fault ℕ := do
  let pageNum ← onDisk (DiskManager.allocateNewPage fileId)
  let idx ← fetchPage fileId pageNum true
  setPageData idx (initPage pageNum)
  unpinPage fileId pageNum true
  return pageNum

/-- `PageManager::createTable`. -/
def createTable (tableName : Str) : Program Storage Fault ℤ := do
  let fileName := tableName ++ lit ".db"
  let fileId ← onDisk (DiskManager.createFile fileName)
  let _ ← newPage fileId
  return fileId

/-- `PageManager::openTable`. -/
def openTable (tableName : Str) : Program Storage Fault ℤ :=
  onDisk (DiskManager.openFile (tableName ++ lit ".db"))

/-- The loop of `findFreePage`: the first page from `p` on, among `n`, with enough space. -/
def findFreePageFrom (fileId : ℤ) (requiredSpace : ℕ) :
    ℕ → ℕ → Program Storage Fault (Option ℕ)
  | 0, _ => return none
  | n + 1, p => do
    let idx ← fetchPage fileId p false
    let page ← pageData idx
    unpinPage fileId p false
    if requiredSpace ≤ page.freeSpace then return some p
    else findFreePageFrom fileId requiredSpace n (p + 1)

/-- `PageManager::findFreePage`. -/
def findFreePage (fileId : ℤ) (requiredSpace : ℕ) : Program Storage Fault ℕ := do
  let pageCount := (← Program.get).diskMgr.getFilePageCount fileId
  match ← findFreePageFrom fileId requiredSpace pageCount 0 with
  | some p => return p
  | none => newPage fileId

/-- The loop of `insertTuple`: the first empty slot from `i` on, among `n`. -/
def findEmptySlot (page : Page) : ℕ → ℕ → Except Fault (Option ℕ)
  | 0, _ => .ok none
  | n + 1, i => do
    if (← page.slotDirectory i) = 0 then
      if (← page.slotLengths i) = 0 then return some i
      else findEmptySlot page n (i + 1)
    else findEmptySlot page n (i + 1)

/-- A tuple copied to the free space of a page, and entered in the slot `slotIdx`. -/
def placeTuple (page : Page) (slotIdx : ℕ) (bytes : Str) : Except Fault Page := do
  let page ← page.setSlotDirectory slotIdx page.freeSpacePtr
  let page ← page.setSlotLengths slotIdx bytes.length
  let page ← page.copyIn page.freeSpacePtr bytes
  return page.setFreeSpacePtr (page.freeSpacePtr + bytes.length)

/-- The first `dataLen` bytes of a buffer. -/
def bytesOf (data : Str) (dataLen : ℕ) : Except Fault Str :=
  if dataLen ≤ data.length then .ok (data.take dataLen) else .error .overrun

/-- The branch of `insertTuple` for a page whose slots are all in use: the tuple is the first of a
new page. -/
def insertOnNewPage (fileId : ℤ) (bytes : Str) : Program Storage Fault RID := do
  let newPage ← onDisk (DiskManager.allocateNewPage fileId)
  let idx ← fetchPage fileId newPage true
  setPageData idx (initPage newPage)
  let page ← pageData idx
  let page ← Program.lift (placeTuple page 0 bytes)
  setPageData idx (page.setNumSlots 1)
  unpinPage fileId newPage true
  return ⟨newPage, 0⟩

/-- `PageManager::insertTuple`: the record identifier of the place of the tuple. -/
def insertTuple (fileId : ℤ) (data : Str) (dataLen : ℕ) : Program Storage Fault RID := do
  let pageNum ← findFreePage fileId dataLen
  let idx ← fetchPage fileId pageNum true
  let page ← pageData idx
  let slotIdx := (← Program.lift (findEmptySlot page page.numSlots 0)).getD page.numSlots
  let bytes ← Program.lift (bytesOf data dataLen)
  if MAX_SLOTS_PER_PAGE ≤ slotIdx then
    unpinPage fileId pageNum false
    insertOnNewPage fileId bytes
  else
    let page ← Program.lift (placeTuple page slotIdx bytes)
    setPageData idx (if page.numSlots ≤ slotIdx then page.setNumSlots (slotIdx + 1) else page)
    unpinPage fileId pageNum true
    return ⟨pageNum, slotIdx⟩

/-- The bytes of a live slot; none when the slot is empty or does not exist. -/
def slotBytes (page : Page) (slotNum : ℕ) : Except Fault Str := do
  if page.numSlots ≤ slotNum then return []
  else
    let length ← page.slotLengths slotNum
    if length = 0 then return []
    else page.copyOut (← page.slotDirectory slotNum) length

/-- `PageManager::readTuple`: the bytes copied to the caller's buffer; their number is the value
returned. -/
def readTuple (fileId : ℤ) (rid : RID) : Program Storage Fault Str := do
  let idx ← fetchPage fileId rid.pageId false
  let page ← pageData idx
  let bytes ← Program.lift (slotBytes page rid.slotNum)
  unpinPage fileId rid.pageId false
  return bytes

/-- The slot emptied, if the page has it. -/
def clearSlot (page : Page) (slotNum : ℕ) : Except Fault Page := do
  if slotNum < page.numSlots then
    let page ← page.setSlotDirectory slotNum 0
    page.setSlotLengths slotNum 0
  else return page

/-- `PageManager::deleteTuple`. -/
def deleteTuple (fileId : ℤ) (rid : RID) : Program Storage Fault Unit := do
  let idx ← fetchPage fileId rid.pageId true
  let page ← pageData idx
  let page ← Program.lift (clearSlot page rid.slotNum)
  setPageData idx page
  unpinPage fileId rid.pageId true

/-- `PageManager::getPageCount`. -/
def getPageCount (s : Storage) (fileId : ℤ) : ℕ := s.diskMgr.getFilePageCount fileId

section Scan

variable {β : Type} (callback : β → RID → Str → ℕ → Except Fault (β × Bool))

/-- The inner loop of `scanTable`, from the slot `s` on among `n`: what the callback has gathered,
and whether the scan goes on. -/
def scanSlots (page : Page) (p : ℕ) : ℕ → ℕ → β → Except Fault (β × Bool)
  | 0, _, b => .ok (b, true)
  | n + 1, s, b => do
    if 0 < (← page.slotLengths s) then
      let tupleData := page.bytesFrom (← page.slotDirectory s)
      let (b, go) ← callback b ⟨p, s⟩ tupleData (← page.slotLengths s)
      if go then scanSlots page p n (s + 1) b else return (b, false)
    else scanSlots page p n (s + 1) b

/-- The outer loop of `scanTable`, from the page `p` on among `n`. -/
def scanPages (fileId : ℤ) : ℕ → ℕ → β → Program Storage Fault β
  | 0, _, b => return b
  | n + 1, p, b => do
    let idx ← fetchPage fileId p false
    let page ← pageData idx
    let (b, go) ← Program.lift (scanSlots callback page p page.numSlots 0 b)
    unpinPage fileId p false
    if go then scanPages fileId n (p + 1) b else return b

/-- `PageManager::scanTable`; the callback works on what it has gathered so far and answers whether
to go on. -/
def scanTable (fileId : ℤ) (b : β) : Program Storage Fault β := do
  let pageCount := (← Program.get).diskMgr.getFilePageCount fileId
  scanPages callback fileId pageCount 0 b

end Scan

end PageManager

end MiniDB
