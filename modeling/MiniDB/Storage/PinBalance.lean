import MiniDB.Foundations.Machine
import MiniDB.Foundations.Resumption
import MiniDB.Storage.PageManager
import MiniDB.Storage.Quiet

/-!
# The pins of the page manager

Every call of the page manager fetches a page, works on its bytes and unpins it before it fetches
the next one, on each of its branches. The calls are taken apart here into the calls of the pool and
the disk manager they make, so that what is pinned can be said of every moment of a call. Pages of
any number may be asked for, of any file that is open.

## Main definitions

* `PageManager.newPageSteps`, …, `PageManager.scanTableSteps`: the calls step by step
* `PageCall`: a call of the page manager, or a flush of the pool
* `Storage.AtMostOnePinned`, `Storage.SamePins`: what is said of every moment, and of every return

## Main results

* `PageManager.run_insertTupleSteps`, …: the steps are those of the calls
* `PageCall.always`: from a quiet storage, every moment of a call and its end
* `PageCall.pins_balanced`: the pins in every run of valid calls
-/

namespace MiniDB

open Program Resumption

namespace Storage

/-- At most one page is pinned. -/
def AtMostOnePinned (s : Storage) : Prop := ∀ i j, (s.bufferPool.frames i).pinCount ≠ 0 →
  (s.bufferPool.frames j).pinCount ≠ 0 → i = j

/-- How often the page of a key is pinned. -/
def pinCountOf (s : Storage) (key : PageKey) : ℕ :=
  match s.bufferPool.pageTable.find? key with
  | some i => (s.bufferPool.frames i).pinCount
  | none => 0

/-- Every frame, and every page, is pinned as often as before. -/
structure SamePins (s s' : Storage) : Prop where
  frames : ∀ i, (s'.bufferPool.frames i).pinCount = (s.bufferPool.frames i).pinCount
  pages : ∀ key, s'.pinCountOf key = s.pinCountOf key

variable {s s' : Storage} {out : Option ℕ}

theorem Quiet.atMostOnePinned (h : Quiet out s) : s.AtMostOnePinned :=
  fun _ _ hi hj => h.rested.eq_of_pinned hi hj

theorem Quiet.pinCountOf_eq (h : Quiet none s) (key : PageKey) : s.pinCountOf key = 0 := by
  unfold pinCountOf
  split
  · exact h.rested.pins (by simp)
  · rfl

theorem Quiet.samePins (h : Quiet none s) (h' : Quiet none s') : SamePins s s' where
  frames i := (h'.rested.pins (by simp)).trans (h.rested.pins (by simp)).symm
  pages key := (h'.pinCountOf_eq key).trans (h.pinCountOf_eq key).symm

end Storage

namespace PageManager

open Storage BufferPool

/-! ## The calls step by step -/

def newPageSteps (fileId : ℤ) : Resumption Storage Fault ℕ := do
  let pageNum ← atomic (onDisk (DiskManager.allocateNewPage fileId))
  let idx ← atomic (fetchPage fileId pageNum true)
  atomic (setPageData idx (initPage pageNum))
  atomic (unpinPage fileId pageNum true)
  return pageNum

def createTableSteps (tableName : Str) : Resumption Storage Fault ℤ := do
  let fileId ← atomic (onDisk (DiskManager.createFile (tableName ++ lit ".db")))
  let _ ← newPageSteps fileId
  return fileId

def findFreePageFromSteps (fileId : ℤ) (requiredSpace : ℕ) :
    ℕ → ℕ → Resumption Storage Fault (Option ℕ)
  | 0, _ => return none
  | n + 1, p => do
    let idx ← atomic (fetchPage fileId p false)
    let page ← atomic (pageData idx)
    atomic (unpinPage fileId p false)
    if requiredSpace ≤ page.freeSpace then return some p
    else findFreePageFromSteps fileId requiredSpace n (p + 1)

def findFreePageSteps (fileId : ℤ) (requiredSpace : ℕ) : Resumption Storage Fault ℕ := do
  let s ← atomic Program.get
  match ← findFreePageFromSteps fileId requiredSpace (s.diskMgr.getFilePageCount fileId) 0 with
  | some p => return p
  | none => newPageSteps fileId

def insertOnNewPageSteps (fileId : ℤ) (bytes : Str) : Resumption Storage Fault RID := do
  let newPage ← atomic (onDisk (DiskManager.allocateNewPage fileId))
  let idx ← atomic (fetchPage fileId newPage true)
  atomic (setPageData idx (initPage newPage))
  let page ← atomic (pageData idx)
  let page ← Resumption.lift (placeTuple page 0 bytes)
  atomic (setPageData idx (page.setNumSlots 1))
  atomic (unpinPage fileId newPage true)
  return ⟨newPage, 0⟩

def insertTupleSteps (fileId : ℤ) (data : Str) (dataLen : ℕ) : Resumption Storage Fault RID := do
  let pageNum ← findFreePageSteps fileId dataLen
  let idx ← atomic (fetchPage fileId pageNum true)
  let page ← atomic (pageData idx)
  let slot ← Resumption.lift (findEmptySlot page page.numSlots 0)
  let bytes ← Resumption.lift (bytesOf data dataLen)
  if MAX_SLOTS_PER_PAGE ≤ slot.getD page.numSlots then
    atomic (unpinPage fileId pageNum false)
    insertOnNewPageSteps fileId bytes
  else
    let slotIdx := slot.getD page.numSlots
    let page ← Resumption.lift (placeTuple page slotIdx bytes)
    atomic (setPageData idx
      (if page.numSlots ≤ slotIdx then page.setNumSlots (slotIdx + 1) else page))
    atomic (unpinPage fileId pageNum true)
    return ⟨pageNum, slotIdx⟩

def readTupleSteps (fileId : ℤ) (rid : RID) : Resumption Storage Fault Str := do
  let idx ← atomic (fetchPage fileId rid.pageId false)
  let page ← atomic (pageData idx)
  let bytes ← Resumption.lift (slotBytes page rid.slotNum)
  atomic (unpinPage fileId rid.pageId false)
  return bytes

def deleteTupleSteps (fileId : ℤ) (rid : RID) : Resumption Storage Fault Unit := do
  let idx ← atomic (fetchPage fileId rid.pageId true)
  let page ← atomic (pageData idx)
  let page ← Resumption.lift (clearSlot page rid.slotNum)
  atomic (setPageData idx page)
  atomic (unpinPage fileId rid.pageId true)

section Scan

variable {β : Type} (callback : β → RID → Str → ℕ → Except Fault (β × Bool))

def scanPagesSteps (fileId : ℤ) : ℕ → ℕ → β → Resumption Storage Fault β
  | 0, _, b => return b
  | n + 1, p, b => do
    let idx ← atomic (fetchPage fileId p false)
    let page ← atomic (pageData idx)
    let r ← Resumption.lift (scanSlots callback page p page.numSlots 0 b)
    atomic (unpinPage fileId p false)
    if r.2 then scanPagesSteps fileId n (p + 1) r.1 else return r.1

def scanTableSteps (fileId : ℤ) (b : β) : Resumption Storage Fault β := do
  let s ← atomic Program.get
  scanPagesSteps callback fileId (s.diskMgr.getFilePageCount fileId) 0 b

end Scan

/-! ## They are the calls -/

theorem run_newPageSteps (fileId : ℤ) : (newPageSteps fileId).run = newPage fileId := by
  simp only [newPageSteps, newPage, run_bind, run_atomic, Resumption.run_pure]

theorem run_createTableSteps (tableName : Str) :
    (createTableSteps tableName).run = createTable tableName := by
  simp only [createTableSteps, createTable, run_bind, run_atomic, Resumption.run_pure,
    run_newPageSteps]

theorem run_findFreePageFromSteps (fileId : ℤ) (requiredSpace : ℕ) : ∀ n p,
    (findFreePageFromSteps fileId requiredSpace n p).run =
      findFreePageFrom fileId requiredSpace n p
  | 0, _ => rfl
  | n + 1, p => by
    simp only [findFreePageFromSteps, findFreePageFrom, run_bind, run_atomic, apply_ite,
      Resumption.run_pure, run_findFreePageFromSteps fileId requiredSpace n (p + 1)]

theorem run_findFreePageSteps (fileId : ℤ) (requiredSpace : ℕ) :
    (findFreePageSteps fileId requiredSpace).run = findFreePage fileId requiredSpace := by
  simp only [findFreePageSteps, findFreePage, run_bind, run_atomic, run_findFreePageFromSteps]
  congr 1
  funext s
  congr 1
  funext found
  cases found with
  | none => exact run_newPageSteps fileId
  | some p => rfl

theorem run_insertOnNewPageSteps (fileId : ℤ) (bytes : Str) :
    (insertOnNewPageSteps fileId bytes).run = insertOnNewPage fileId bytes := by
  simp only [insertOnNewPageSteps, insertOnNewPage, run_bind, run_atomic, run_lift,
    Resumption.run_pure]

theorem run_insertTupleSteps (fileId : ℤ) (data : Str) (dataLen : ℕ) :
    (insertTupleSteps fileId data dataLen).run = insertTuple fileId data dataLen := by
  simp only [insertTupleSteps, insertTuple, run_bind, run_atomic, run_lift, apply_ite,
    Resumption.run_pure, run_findFreePageSteps, run_insertOnNewPageSteps]

theorem run_readTupleSteps (fileId : ℤ) (rid : RID) :
    (readTupleSteps fileId rid).run = readTuple fileId rid := by
  simp only [readTupleSteps, readTuple, run_bind, run_atomic, run_lift, Resumption.run_pure]

theorem run_deleteTupleSteps (fileId : ℤ) (rid : RID) :
    (deleteTupleSteps fileId rid).run = deleteTuple fileId rid := by
  simp only [deleteTupleSteps, deleteTuple, run_bind, run_atomic, run_lift]

section Scan

variable {β : Type} (callback : β → RID → Str → ℕ → Except Fault (β × Bool))

theorem run_scanPagesSteps (fileId : ℤ) : ∀ n p b,
    (scanPagesSteps callback fileId n p b).run = scanPages callback fileId n p b
  | 0, _, _ => rfl
  | n + 1, p, b => by
    simp only [scanPagesSteps, scanPages, run_bind, run_atomic, run_lift, apply_ite,
      Resumption.run_pure, run_scanPagesSteps fileId n (p + 1)]

theorem run_scanTableSteps (fileId : ℤ) (b : β) :
    (scanTableSteps callback fileId b).run = scanTable callback fileId b := by
  simp only [scanTableSteps, scanTable, run_bind, run_atomic, run_scanPagesSteps]

end Scan

/-! ## What is pinned at every moment -/

/-- At every moment at most one page is pinned, and no frame is missing for a page. -/
abbrev Balanced {α : Type} (x : Resumption Storage Fault α) (Q : α → Storage → Prop)
    (s : Storage) : Prop :=
  Always AtMostOnePinned (· ≠ allPinned) x Q s

namespace Balanced

variable {α γ : Type} {s : Storage} {f : ℤ} {p i : ℕ} {Q : γ → Storage → Prop}

theorem fetch {k : ℕ → Resumption Storage Fault γ} {w : Bool} (h : Serves f none s)
    (hk : ∀ i s', Holding f p i s' → Balanced (k i) Q s') :
    Balanced (atomic (fetchPage f p w) >>= k) Q s :=
  .bind (.atomic_total h.atMostOnePinned
    (wp_mono (h.fetchPage p w) fun i s' hs' => ⟨hs'.atMostOnePinned, hk i s' hs'⟩))

theorem unpin {k : Unit → Resumption Storage Fault γ} {isDirty : Bool} (h : Holding f p i s)
    (hk : ∀ s', Serves f none s' → Balanced (k ()) Q s') :
    Balanced (atomic (unpinPage f p isDirty) >>= k) Q s :=
  .bind (.atomic_total h.atMostOnePinned
    (wp_mono (h.unpinPage isDirty) fun _ s' hs' => ⟨hs'.atMostOnePinned, hk s' hs'⟩))

theorem write {k : Unit → Resumption Storage Fault γ} {data : Page} (h : Holding f p i s)
    (hk : ∀ s', Holding f p i s' → Balanced (k ()) Q s') :
    Balanced (atomic (setPageData i data) >>= k) Q s :=
  .bind (.atomic_total h.atMostOnePinned
    (wp_mono (h.setPageData data) fun _ s' hs' => ⟨hs'.atMostOnePinned, hk s' hs'⟩))

theorem read {k : Page → Resumption Storage Fault γ} (h : s.AtMostOnePinned)
    (hk : ∀ page, Balanced (k page) Q s) : Balanced (atomic (pageData i) >>= k) Q s :=
  .bind ⟨h, h, hk _⟩

theorem get {k : Storage → Resumption Storage Fault γ} (h : s.AtMostOnePinned)
    (hk : Balanced (k s) Q s) : Balanced (atomic Program.get >>= k) Q s :=
  .bind ⟨h, h, hk⟩

/-- A failed allocation leaves the pool as it is. -/
theorem allocate {k : ℕ → Resumption Storage Fault γ} (h : Serves f none s)
    (hk : ∀ n s', Serves f none s' → Balanced (k n) Q s') :
    Balanced (atomic (onDisk (DiskManager.allocateNewPage f)) >>= k) Q s := by
  have hwp : wp (· ≠ allPinned) (onDisk (DiskManager.allocateNewPage f))
      (fun _ s' => Serves f none s') s := by
    refine wp_weaken h.allocateNewPage ?_
    rintro e rfl
    simp [allPinned]
  exact .bind (.atomic h.atMostOnePinned h.atMostOnePinned
    (wp_mono hwp fun n s' hs' => hk n s' hs'))

theorem compute {x : Except Fault α} {k : α → Resumption Storage Fault γ}
    (h : s.AtMostOnePinned) (hx : Machine.FaultsIn (· ≠ allPinned) x)
    (hk : ∀ a, Balanced (k a) Q s) : Balanced (Resumption.lift x >>= k) Q s :=
  .bind (.lift h hx fun a _ => hk a)

end Balanced

/-! ## The computations on a page -/

section Faults

open Machine

/-- A checked access faults in one way. -/
theorem faultsIn_check {α : Type} (c : Prop) [Decidable c] (a : α) :
    FaultsIn (· ≠ allPinned) (if c then .ok a else .error .overrun : Except Fault α) := by
  refine .ite (faultsIn_ok a) ?_
  rintro e ⟨⟩
  simp [allPinned]

theorem faultsIn_findEmptySlot (page : Page) : ∀ n i,
    FaultsIn (· ≠ allPinned) (findEmptySlot page n i)
  | 0, _ => faultsIn_ok _
  | n + 1, i => by
    have hrest := faultsIn_findEmptySlot page n (i + 1)
    refine (faultsIn_check _ _).bind fun _ _ => .ite ?_ hrest
    exact (faultsIn_check _ _).bind fun _ _ => .ite (faultsIn_ok _) hrest

theorem faultsIn_placeTuple (page : Page) (slotIdx : ℕ) (bytes : Str) :
    FaultsIn (· ≠ allPinned) (placeTuple page slotIdx bytes) :=
  (faultsIn_check _ _).bind fun _ _ => (faultsIn_check _ _).bind fun _ _ =>
    (faultsIn_check _ _).bind fun _ _ => faultsIn_ok _

theorem faultsIn_slotBytes (page : Page) (slotNum : ℕ) :
    FaultsIn (· ≠ allPinned) (slotBytes page slotNum) :=
  .ite (faultsIn_ok _) ((faultsIn_check _ _).bind fun _ _ => .ite (faultsIn_ok _)
    ((faultsIn_check _ _).bind fun _ _ => faultsIn_check _ _))

theorem faultsIn_clearSlot (page : Page) (slotNum : ℕ) :
    FaultsIn (· ≠ allPinned) (clearSlot page slotNum) :=
  .ite ((faultsIn_check _ _).bind fun _ _ => faultsIn_check _ _) (faultsIn_ok _)

/-- A scan adds the faults of its callback. -/
theorem faultsIn_scanSlots {β : Type} {callback : β → RID → Str → ℕ → Except Fault (β × Bool)}
    (hcallback : ∀ b rid data len, ∃ r, callback b rid data len = .ok r) (page : Page) (p : ℕ) :
    ∀ n s b, FaultsIn (· ≠ allPinned) (scanSlots callback page p n s b)
  | 0, _, _ => faultsIn_ok _
  | n + 1, s, b => by
    have hrest := faultsIn_scanSlots hcallback page p n (s + 1)
    refine (faultsIn_check _ _).bind fun _ _ => .ite ?_ (hrest b)
    refine (faultsIn_check _ _).bind fun offset _ => (faultsIn_check _ _).bind fun len _ => ?_
    obtain ⟨r, hr⟩ := hcallback b ⟨p, s⟩ (page.bytesFrom offset) len
    rw [hr]
    exact .ite (hrest r.1) (faultsIn_ok _)

end Faults

/-! ## The calls -/

section Calls

variable {s : Storage} {f : ℤ}

theorem balanced_newPage (h : Serves f none s) :
    Balanced (newPageSteps f) (fun _ s' => Serves f none s') s := by
  refine .allocate h fun n s₁ h₁ => .fetch h₁ fun i s₂ h₂ => .write h₂ fun s₃ h₃ => ?_
  exact .unpin h₃ fun s₄ h₄ => .pure h₄.atMostOnePinned h₄

theorem balanced_createTable (h : Quiet none s) (tableName : Str) :
    Balanced (createTableSteps tableName) (fun _ s' => Quiet none s') s := by
  refine .bind (.atomic_total h.atMostOnePinned (wp_mono (h.createFile _) fun f s₁ h₁ => ?_))
  refine ⟨h₁.atMostOnePinned, .bind (.mono (balanced_newPage h₁) fun _ s₂ h₂ => ?_)⟩
  exact .pure h₂.atMostOnePinned h₂.toQuiet

theorem balanced_findFreePageFrom (requiredSpace : ℕ) : ∀ {n p s}, Serves f none s →
    Balanced (findFreePageFromSteps f requiredSpace n p) (fun _ s' => Serves f none s') s
  | 0, _, _, h => .pure h.atMostOnePinned h
  | n + 1, p, s, h => by
    refine .fetch h fun i s₁ h₁ => .read h₁.atMostOnePinned fun page => .unpin h₁ fun s₂ h₂ => ?_
    split
    · exact .pure h₂.atMostOnePinned h₂
    · exact balanced_findFreePageFrom requiredSpace h₂

theorem balanced_findFreePage (h : Serves f none s) (requiredSpace : ℕ) :
    Balanced (findFreePageSteps f requiredSpace) (fun _ s' => Serves f none s') s := by
  refine .get h.atMostOnePinned (.bind ?_)
  refine .mono (balanced_findFreePageFrom requiredSpace h) fun found s₁ h₁ => ?_
  cases found with
  | none => exact balanced_newPage h₁
  | some p => exact .pure h₁.atMostOnePinned h₁

theorem balanced_insertOnNewPage (h : Serves f none s) (bytes : Str) :
    Balanced (insertOnNewPageSteps f bytes) (fun _ s' => Serves f none s') s := by
  refine .allocate h fun n s₁ h₁ => .fetch h₁ fun i s₂ h₂ => .write h₂ fun s₃ h₃ => ?_
  refine .read h₃.atMostOnePinned fun page => ?_
  refine .compute h₃.atMostOnePinned (faultsIn_placeTuple page 0 bytes) fun page' => ?_
  exact .write h₃ fun s₄ h₄ => .unpin h₄ fun s₅ h₅ => .pure h₅.atMostOnePinned h₅

/-- On either branch the page looked at is unpinned: before the new page is fetched, or after the
tuple was placed. -/
theorem balanced_insertTuple (h : Serves f none s) (data : Str) (dataLen : ℕ) :
    Balanced (insertTupleSteps f data dataLen) (fun _ s' => Serves f none s') s := by
  refine .bind (.mono (balanced_findFreePage h dataLen) fun pageNum s₁ h₁ => ?_)
  refine Balanced.fetch h₁ fun i s₂ h₂ => .read h₂.atMostOnePinned fun page => ?_
  refine .compute h₂.atMostOnePinned (faultsIn_findEmptySlot page _ _) fun slot => ?_
  refine .compute h₂.atMostOnePinned (faultsIn_check _ _) fun bytes => ?_
  split
  · exact .unpin h₂ fun s₃ h₃ => balanced_insertOnNewPage h₃ bytes
  · refine .compute h₂.atMostOnePinned (faultsIn_placeTuple page _ bytes) fun page' => ?_
    exact .write h₂ fun s₃ h₃ => .unpin h₃ fun s₄ h₄ => .pure h₄.atMostOnePinned h₄

theorem balanced_readTuple (h : Serves f none s) (rid : RID) :
    Balanced (readTupleSteps f rid) (fun _ s' => Serves f none s') s := by
  refine .fetch h fun i s₁ h₁ => .read h₁.atMostOnePinned fun page => ?_
  refine .compute h₁.atMostOnePinned (faultsIn_slotBytes page rid.slotNum) fun bytes => ?_
  exact .unpin h₁ fun s₂ h₂ => .pure h₂.atMostOnePinned h₂

theorem balanced_deleteTuple (h : Serves f none s) (rid : RID) :
    Balanced (deleteTupleSteps f rid) (fun _ s' => Serves f none s') s := by
  refine .fetch h fun i s₁ h₁ => .read h₁.atMostOnePinned fun page => ?_
  refine .compute h₁.atMostOnePinned (faultsIn_clearSlot page rid.slotNum) fun page' => ?_
  refine .write h₁ fun s₂ h₂ => .atomic_total h₂.atMostOnePinned ?_
  exact wp_mono (h₂.unpinPage true) fun _ s₃ h₃ => ⟨h₃.atMostOnePinned, h₃⟩

section Scan

variable {β : Type} {callback : β → RID → Str → ℕ → Except Fault (β × Bool)}
  (hcallback : ∀ b rid data len, ∃ r, callback b rid data len = .ok r)

include hcallback

theorem balanced_scanPages : ∀ {n p b s}, Serves f none s →
    Balanced (scanPagesSteps callback f n p b) (fun _ s' => Serves f none s') s
  | 0, _, _, _, h => .pure h.atMostOnePinned h
  | n + 1, p, b, s, h => by
    refine .fetch h fun i s₁ h₁ => .read h₁.atMostOnePinned fun page => ?_
    refine .compute h₁.atMostOnePinned (faultsIn_scanSlots hcallback page p _ 0 b) fun r => ?_
    refine .unpin h₁ fun s₂ h₂ => ?_
    split
    · exact balanced_scanPages h₂
    · exact .pure h₂.atMostOnePinned h₂

theorem balanced_scanTable (h : Serves f none s) (b : β) :
    Balanced (scanTableSteps callback f b) (fun _ s' => Serves f none s') s :=
  .get h.atMostOnePinned (balanced_scanPages hcallback h)

end Scan

end Calls

end PageManager

/-- A call of the page manager, or a flush of the pool. -/
inductive PageCall (β : Type)
  | createTable (tableName : Str)
  | openTable (tableName : Str)
  | insertTuple (fileId : ℤ) (data : Str) (dataLen : ℕ)
  | readTuple (fileId : ℤ) (rid : RID)
  | deleteTuple (fileId : ℤ) (rid : RID)
  | scanTable (callback : β → RID → Str → ℕ → Except Fault (β × Bool)) (fileId : ℤ) (b : β)
  | flushPage (fileId : ℤ) (pageNum : ℕ)
  | flushAllPages

namespace PageCall

open Storage BufferPool PageManager

variable {β : Type}

/-- The call; what it returns is not used. -/
def exec : PageCall β → Program Storage Fault Unit
  | .createTable tableName => discard (PageManager.createTable tableName)
  | .openTable tableName => discard (PageManager.openTable tableName)
  | .insertTuple fileId data dataLen => discard (PageManager.insertTuple fileId data dataLen)
  | .readTuple fileId rid => discard (PageManager.readTuple fileId rid)
  | .deleteTuple fileId rid => PageManager.deleteTuple fileId rid
  | .scanTable callback fileId b => discard (PageManager.scanTable callback fileId b)
  | .flushPage fileId pageNum => Storage.flushPage fileId pageNum
  | .flushAllPages => Storage.flushAllPages

/-- The call step by step. -/
def steps : PageCall β → Resumption Storage Fault Unit
  | .createTable tableName => discard (createTableSteps tableName)
  | .openTable tableName => discard (atomic (PageManager.openTable tableName))
  | .insertTuple fileId data dataLen => discard (insertTupleSteps fileId data dataLen)
  | .readTuple fileId rid => discard (readTupleSteps fileId rid)
  | .deleteTuple fileId rid => deleteTupleSteps fileId rid
  | .scanTable callback fileId b => discard (scanTableSteps callback fileId b)
  | .flushPage fileId pageNum => atomic (Storage.flushPage fileId pageNum)
  | .flushAllPages => atomic Storage.flushAllPages

/-- The calls on files that are open, with callbacks that do not throw. -/
def Valid (s : Storage) : PageCall β → Prop
  | .createTable _ | .openTable _ | .flushAllPages => True
  | .insertTuple fileId _ _ | .readTuple fileId _ | .deleteTuple fileId _ | .flushPage fileId _ =>
    (s.diskMgr.path fileId).isSome
  | .scanTable callback fileId _ => (s.diskMgr.path fileId).isSome ∧
    ∀ b rid data len, ∃ r, callback b rid data len = .ok r

/-- The call as a step of the storage. -/
def step (s : Storage) (call : PageCall β) : Except Fault (Storage × Unit) := call.exec.toStep s

theorem run_steps : ∀ call : PageCall β, call.steps.run = call.exec
  | .createTable tableName => by
    rw [steps, run_discard, run_createTableSteps, exec]
  | .openTable tableName => by
    rw [steps, run_discard, run_atomic, exec]
  | .insertTuple fileId data dataLen => by
    rw [steps, run_discard, run_insertTupleSteps, exec]
  | .readTuple fileId rid => by
    rw [steps, run_discard, run_readTupleSteps, exec]
  | .deleteTuple fileId rid => run_deleteTupleSteps fileId rid
  | .scanTable callback fileId b => by
    rw [steps, run_discard, run_scanTableSteps, exec]
  | .flushPage fileId pageNum => run_atomic _
  | .flushAllPages => run_atomic _

variable {s : Storage} {call : PageCall β}

/-- Every moment of a valid call, and its end: the storage is quiet again. -/
theorem always (h : Quiet none s) (hvalid : call.Valid s) :
    Balanced call.steps (fun _ s' => Quiet none s') s := by
  have hquiet : ∀ {s' : Storage}, Quiet none s' → s'.AtMostOnePinned ∧ Quiet none s' :=
    fun h' => ⟨h'.atMostOnePinned, h'⟩
  cases call with
  | createTable tableName =>
    exact .discard (.mono (balanced_createTable h tableName) fun _ _ h' => hquiet h')
  | openTable tableName =>
    refine .discard (.atomic_total h.atMostOnePinned ?_)
    exact wp_mono (h.openFile _) fun _ _ h' => ⟨h'.atMostOnePinned, hquiet h'⟩
  | insertTuple fileId data dataLen =>
    exact .discard (.mono (balanced_insertTuple ⟨h, hvalid⟩ data dataLen) fun _ _ h' =>
      hquiet h'.toQuiet)
  | readTuple fileId rid =>
    exact .discard (.mono (balanced_readTuple ⟨h, hvalid⟩ rid) fun _ _ h' => hquiet h'.toQuiet)
  | deleteTuple fileId rid =>
    exact .mono (balanced_deleteTuple ⟨h, hvalid⟩ rid) fun _ _ h' => h'.toQuiet
  | scanTable callback fileId b =>
    exact .discard (.mono (balanced_scanTable hvalid.2 ⟨h, hvalid.1⟩ b) fun _ _ h' =>
      hquiet h'.toQuiet)
  | flushPage fileId pageNum =>
    have hserves : Serves fileId none s := ⟨h, hvalid⟩
    refine .atomic_total h.atMostOnePinned ?_
    exact wp_mono (hserves.flushPage pageNum) fun _ _ h' => hquiet h'
  | flushAllPages =>
    exact .atomic_total h.atMostOnePinned (wp_mono h.flushAllPages fun _ _ h' => hquiet h')

theorem wp_exec (h : Quiet none s) (hvalid : call.Valid s) :
    wp (· ≠ allPinned) call.exec (fun _ s' => Quiet none s') s := by
  rw [← run_steps]
  exact (always_iff.mp (always h hvalid)).2

theorem simulates : Machine.Simulates Valid (step : Storage → PageCall β → _) (fun _ _ _ _ => True)
    (fun s (_ : Unit) => Quiet none s) (· ≠ allPinned) := by
  intro s _ call h hvalid
  rcases toStep_of_wp (wp_exec h hvalid) with hfault | ⟨s', b, hstep, h'⟩
  · exact Or.inl hfault
  · exact Or.inr ⟨s', b, (), hstep, trivial, h'⟩

/-- A run of valid calls keeps the storage quiet, and it does not end for want of a frame. -/
theorem run_quiet {calls : List (PageCall β)} (h : Quiet none s)
    (hvalid : Machine.Meets Valid step s calls) :
    (∃ e, e ≠ allPinned ∧ Machine.run step s calls = .error e) ∨
      ∃ s' bs, Machine.run step s calls = .ok (s', bs) ∧ Quiet none s' := by
  rcases Machine.run_simulates simulates calls s () h hvalid with hfault | ⟨s', bs, -, hrun, -, h'⟩
  · exact Or.inl hfault
  · exact Or.inr ⟨s', bs, hrun, h'⟩

/-- In every run of valid calls from an empty pool of at least one frame: no call throws because all
frames are pinned, and from the state reached every valid call has at most one page pinned at every
moment of it, and leaves every page pinned as often as before when it returns. -/
theorem pins_balanced (disk : Str → Option File) {poolSize : ℕ} (hsize : 0 < poolSize)
    {calls : List (PageCall β)}
    (hvalid : Machine.Meets Valid step ⟨.new disk, .new poolSize⟩ calls) :
    Machine.run step ⟨.new disk, .new poolSize⟩ calls ≠ .error allPinned ∧
    ∀ s bs, Machine.run step ⟨.new disk, .new poolSize⟩ calls = .ok (s, bs) →
      ∀ call : PageCall β, call.Valid s → call.steps.run = call.exec ∧
        (∀ t ∈ call.steps.visited s, t.AtMostOnePinned) ∧
        (∀ s', call.exec.run s = (.ok (), s') → SamePins s s') ∧
        ∀ s', call.exec.run s ≠ (.error allPinned, s') := by
  rcases run_quiet (quiet_new disk hsize) hvalid with ⟨e, he, hrun⟩ | ⟨s', bs', hrun, hquiet⟩
  · rw [hrun]
    exact ⟨fun h => he (Except.error.inj h), fun _ _ h => absurd h (by simp)⟩
  · rw [hrun]
    refine ⟨by simp, ?_⟩
    rintro s bs ⟨⟩ call hcall
    obtain ⟨hvisited, -⟩ := always_iff.mp (always hquiet hcall)
    have hwp := wp_exec hquiet hcall
    refine ⟨call.run_steps, hvisited, fun s' hok => ?_, fun s' hthrow => ?_⟩
    · have hquiet' := wp_of_ok hwp hok
      exact hquiet.samePins hquiet'
    · rw [wp, hthrow] at hwp
      exact hwp rfl

/-- Two tables in a pool of one frame: a tuple is put into the first of them, and a page is read
that the second one does not have. -/
theorem pins_balanced_one_frame :
    ∃ s bs, Machine.run (step : Storage → PageCall Unit → _) ⟨.new fun _ => none, .new 1⟩
        [.createTable (lit "a"), .createTable (lit "b"), .insertTuple 1 [7] 1] = .ok (s, bs) ∧
      (∀ t ∈ (readTuple 2 ⟨5, 0⟩ : PageCall Unit).steps.visited s, t.AtMostOnePinned) ∧
      ∃ s', (readTuple 2 ⟨5, 0⟩ : PageCall Unit).exec.run s = (.ok (), s') ∧ SamePins s s' := by
  have hvalid : Machine.Meets Valid (step : Storage → PageCall Unit → _)
      ⟨.new fun _ => none, .new 1⟩
      [.createTable (lit "a"), .createTable (lit "b"), .insertTuple 1 [7] 1] := by
    refine .cons trivial fun s₁ _ h₁ => .cons trivial fun s₂ _ h₂ => .cons ?_ fun _ _ _ => .nil
    obtain rfl := state_of_toStep h₁
    obtain rfl := state_of_toStep h₂
    rfl
  have heval : (Machine.run (step : Storage → PageCall Unit → _) ⟨.new fun _ => none, .new 1⟩
      [.createTable (lit "a"), .createTable (lit "b"), .insertTuple 1 [7] 1]).toOption.map
        (fun r => ((r.1.diskMgr.path 2).isSome,
          ((readTuple 2 ⟨5, 0⟩ : PageCall Unit).exec.run r.1).1.isOk)) = some (true, true) := by
    decide +kernel
  obtain ⟨⟨s, bs⟩, hrun, hs⟩ := Option.map_eq_some_iff.mp heval
  obtain ⟨hopen, hok⟩ := Prod.mk.inj hs
  rw [Machine.toOption_eq_some] at hrun
  obtain ⟨-, hvisited, hpins, -⟩ :=
    (pins_balanced (fun _ => none) Nat.one_pos hvalid).2 s bs hrun (readTuple 2 ⟨5, 0⟩) hopen
  refine ⟨s, bs, hrun, hvisited, ?_⟩
  cases hread : (readTuple 2 ⟨5, 0⟩ : PageCall Unit).exec.run s with
  | mk r s' =>
    rw [hread] at hok
    cases r with
    | error e => cases hok
    | ok u => exact ⟨s', rfl, hpins s' hread⟩

end PageCall

end MiniDB
