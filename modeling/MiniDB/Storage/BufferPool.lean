import MiniDB.Storage.DiskManager

/-!
# The buffer pool

`BufferPool.h` and `BufferPool.cpp`: a fixed number of page frames over the disk, with the least
recently used unpinned frame evicted first. The source's key packs a 32-bit file id and a 32-bit
page number into one number; here it is the pair. A position in the list of unpinned frames is kept
by the identity of its list node, as the iterators in `lruMap_` keep it. A pointer to the bytes of a
frame is the index of the frame.

## Main definitions

* `PageFrame`, `BufferPool`: the frames and the pool
* `Storage`: the disk manager and the pool over it
* `fetchPage`, `unpinPage`, `flushPage`, `flushAllPages`: the calls
* `pageData`, `setPageData`: the bytes behind the pointer that `fetchPage` returns
-/

namespace MiniDB

/-- A frame of the pool: the bytes of a page, and which page it is. -/
structure PageFrame where
  data : Page
  pageId : ℕ
  fileId : ℤ
  pageNum : ℕ
  isDirty : Bool
  pinCount : ℕ

/-- A frame that holds no page. -/
def PageFrame.unused : PageFrame := ⟨Block.zero, INVALID_PAGE_ID, -1, 0, false, 0⟩

/-- The key of a page: its file and its number in the file. -/
abbrev PageKey := ℤ × ℕ

/-- A node of the list of unpinned frames. -/
structure LruNode where
  id : ℕ
  frameIdx : ℕ
deriving DecidableEq, Repr

/-- The pool: `poolSize` frames, the frame of each cached page, the unpinned frames from the most to
the least recently used one with the node of each, the unused frames, and the statistics. -/
structure BufferPool where
  poolSize : ℕ
  frames : ℕ → PageFrame
  pageTable : Dict PageKey ℕ
  lruList : List LruNode
  lruMap : Dict ℕ ℕ
  nextNode : ℕ
  freeList : List ℕ
  cacheHits : ℕ
  cacheMisses : ℕ

/-- The disk manager and the buffer pool over it. -/
structure Storage where
  diskMgr : DiskManager
  bufferPool : BufferPool

namespace BufferPool

/-- `BufferPool::BufferPool(diskMgr, poolSize)`. -/
def new (poolSize : ℕ) : BufferPool where
  poolSize := poolSize
  frames := fun _ => .unused
  pageTable := .empty
  lruList := []
  lruMap := .empty
  nextNode := 0
  freeList := List.range poolSize
  cacheHits := 0
  cacheMisses := 0

/-- `BufferPool::makePageKey`. -/
def makePageKey (fileId : ℤ) (pageNum : ℕ) : PageKey := (fileId, pageNum)

/-- A frame replaced. -/
def setFrame (pool : BufferPool) (frameIdx : ℕ) (frame : PageFrame) : BufferPool :=
  { pool with frames := Function.update pool.frames frameIdx frame }

/-- A frame taken out of the list of unpinned frames if it is there. -/
def removeLru (pool : BufferPool) (frameIdx : ℕ) : BufferPool :=
  match pool.lruMap.find? frameIdx with
  | none => pool
  | some node => { pool with
      lruList := pool.lruList.filter fun n => n.id ≠ node
      lruMap := pool.lruMap.erase frameIdx }

/-- A frame put at the front of the list of unpinned frames. -/
def pushLru (pool : BufferPool) (frameIdx : ℕ) : BufferPool := { pool with
  lruList := ⟨pool.nextNode, frameIdx⟩ :: pool.lruList
  lruMap := pool.lruMap.insert frameIdx pool.nextNode
  nextNode := pool.nextNode + 1 }

/-- The error of a fetch that finds neither an unused nor an unpinned frame. -/
def allPinned : Fault := .runtimeError (lit "BufferPool: all frames are pinned, cannot evict")

end BufferPool

namespace Storage

open BufferPool

/-- A call of the disk manager. -/
def onDisk {α : Type} (x : Program DiskManager Fault α) : Program Storage Fault α :=
  x.zoom Storage.diskMgr fun d s => { s with diskMgr := d }

/-- A change of the pool. -/
def onPool (f : BufferPool → BufferPool) : Program Storage Fault Unit :=
  Program.modify fun s => { s with bufferPool := f s.bufferPool }

/-- `BufferPool::findVictimFrame`. -/
def findVictimFrame : Program Storage Fault ℕ := do
  let pool := (← Program.get).bufferPool
  match pool.freeList with
  | idx :: rest =>
    onPool fun pool => { pool with freeList := rest }
    return idx
  | [] =>
    match pool.lruList.getLast? with
    | none => Program.throw allPinned
    | some victim =>
      onPool fun pool => { pool with
        lruList := pool.lruList.dropLast
        lruMap := pool.lruMap.erase victim.frameIdx }
      return victim.frameIdx

/-- The page a frame holds, given up: out of the page table, and written back when it is dirty. -/
def evict (frame : PageFrame) : Program Storage Fault Unit := do
  if 0 ≤ frame.fileId ∧ frame.pageId ≠ INVALID_PAGE_ID then
    onPool fun pool =>
      { pool with pageTable := pool.pageTable.erase (makePageKey frame.fileId frame.pageNum) }
    if frame.isDirty then
      onDisk (DiskManager.writePage frame.fileId frame.pageNum frame.data)

/-- `BufferPool::fetchPage`: the index of the frame whose bytes the returned pointer points to. -/
def fetchPage (fileId : ℤ) (pageNum : ℕ) (forWrite : Bool) : Program Storage Fault ℕ := do
  let pool := (← Program.get).bufferPool
  match pool.pageTable.find? (makePageKey fileId pageNum) with
  | some frameIdx =>
    let frame := pool.frames frameIdx
    onPool fun pool => { pool with cacheHits := pool.cacheHits + 1 }
    onPool fun pool => pool.setFrame frameIdx { frame with
      pinCount := frame.pinCount + 1, isDirty := frame.isDirty || forWrite }
    onPool fun pool => pool.removeLru frameIdx
    return frameIdx
  | none =>
    onPool fun pool => { pool with cacheMisses := pool.cacheMisses + 1 }
    let frameIdx ← findVictimFrame
    evict (pool.frames frameIdx)
    let data ← onDisk (DiskManager.readPage fileId pageNum)
    onPool fun pool => pool.setFrame frameIdx ⟨data, pageNum, fileId, pageNum, forWrite, 1⟩
    onPool fun pool =>
      { pool with pageTable := pool.pageTable.insert (makePageKey fileId pageNum) frameIdx }
    return frameIdx

/-- `BufferPool::unpinPage`. -/
def unpinPage (fileId : ℤ) (pageNum : ℕ) (isDirty : Bool) : Program Storage Fault Unit := do
  let pool := (← Program.get).bufferPool
  match pool.pageTable.find? (makePageKey fileId pageNum) with
  | none => return ()
  | some frameIdx =>
    let frame := pool.frames frameIdx
    if frame.pinCount = 0 then return ()
    else
      onPool fun pool => pool.setFrame frameIdx { frame with
        pinCount := frame.pinCount - 1, isDirty := frame.isDirty || isDirty }
      if frame.pinCount - 1 = 0 then onPool fun pool => pool.pushLru frameIdx

/-- `BufferPool::flushPage`. -/
def flushPage (fileId : ℤ) (pageNum : ℕ) : Program Storage Fault Unit := do
  let pool := (← Program.get).bufferPool
  match pool.pageTable.find? (makePageKey fileId pageNum) with
  | none => return ()
  | some frameIdx =>
    let frame := pool.frames frameIdx
    if frame.isDirty then
      onDisk (DiskManager.writePage fileId pageNum frame.data)
      onPool fun pool => pool.setFrame frameIdx { frame with isDirty := false }

/-- The body of the loop of `flushAllPages`. -/
def flushFrame (frameIdx : ℕ) : Program Storage Fault Unit := do
  let frame := (← Program.get).bufferPool.frames frameIdx
  if frame.isDirty ∧ 0 ≤ frame.fileId then
    onDisk (DiskManager.writePage frame.fileId frame.pageNum frame.data)
    onPool fun pool => pool.setFrame frameIdx { frame with isDirty := false }

/-- `BufferPool::flushAllPages`. -/
def flushAllPages : Program Storage Fault Unit := do
  let pool := (← Program.get).bufferPool
  pool.pageTable.entries.foldlM (fun _ entry => flushFrame entry.2) ()

/-- The bytes of a frame. -/
def pageData (frameIdx : ℕ) : Program Storage Fault Page := do
  return ((← Program.get).bufferPool.frames frameIdx).data

/-- The bytes of a frame changed by its client. -/
def setPageData (frameIdx : ℕ) (data : Page) : Program Storage Fault Unit :=
  onPool fun pool => pool.setFrame frameIdx { pool.frames frameIdx with data := data }

end Storage

end MiniDB
