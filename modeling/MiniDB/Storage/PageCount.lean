import MiniDB.Storage.PageManager

/-!
# The page count of a reopened file

A file grows by pages: `allocateNewPage` and `writePage` keep its page count and its size in step.
The count of a reopened file comes from the size, which `openFile` cuts to 32 bits before it
divides, so that from 4 GiB on it forgets pages; a scan then stops short of them, and the next
allocation hands out one of them.

## Main definitions

* `Growth`, `Growth.grown`: the calls that make a file grow, and the number of pages they lead to
* `DiskManager.grow`, `DiskManager.reopen`: a file created and grown, and closed and opened again
* `DiskManager.InStep`: the invariant of a growing file
* `DiskManager.Survives d f n`: the file has `n` pages to a scan and to every later allocation

## Main results

* `DiskManager.growAll_inStep`: the page count and the size along a run of calls
* `DiskManager.reopen_survives_iff`: when the page count survives
-/

namespace MiniDB

open Program

/-- The calls that make a file grow. -/
inductive Growth
  | allocateNewPage
  | writePage (pageNum : ℕ) (buffer : Page)

namespace Growth

/-- The number of pages after a call, for a file of `n` pages. -/
def pages (n : ℕ) : Growth → ℕ
  | .allocateNewPage => n + 1
  | .writePage pageNum _ => max n (pageNum + 1)

/-- The number of pages after a run of calls, for a file of `n` pages. -/
def grown (n : ℕ) (calls : List Growth) : ℕ := calls.foldl pages n

theorem le_pages (n : ℕ) (call : Growth) : n ≤ call.pages n := by
  cases call with
  | allocateNewPage => exact Nat.le_succ n
  | writePage pageNum buffer => exact Nat.le_max_left ..

theorem le_grown (calls : List Growth) (n : ℕ) : n ≤ grown n calls := by
  induction calls generalizing n with
  | nil => exact Nat.le_refl n
  | cons call calls ih => exact Nat.le_trans (le_pages n call) (ih (call.pages n))

end Growth

namespace DiskManager

/-- A call that makes a file grow. -/
def growth (fileId : ℤ) : Growth → Program DiskManager Fault Unit
  | .allocateNewPage => do
    let _ ← allocateNewPage fileId
    return ()
  | .writePage pageNum buffer => writePage fileId pageNum buffer

/-- A run of calls that make a file grow. -/
def growAll (fileId : ℤ) (calls : List Growth) : Program DiskManager Fault Unit :=
  calls.foldlM (fun _ call => growth fileId call) ()

/-- A file created and grown. -/
def grow (fileName : Str) (calls : List Growth) : Program DiskManager Fault ℤ := do
  let fileId ← createFile fileName
  growAll fileId calls
  return fileId

/-- A file closed and opened again. -/
def reopen (fileName : Str) (fileId : ℤ) : Program DiskManager Fault ℤ := do
  closeFile fileId
  openFile fileName

/-- The file has `n` pages: `getFilePageCount` says so, `scanTable` goes through `n` pages, and
`allocateNewPage` hands out none of the pages there are, now and after any further growth. -/
structure Survives (d : DiskManager) (fileId : ℤ) (n : ℕ) : Prop where
  count : d.getFilePageCount fileId = n
  scan : ∀ {β : Type} (callback : β → RID → Str → ℕ → Except Fault (β × Bool)) (b : β)
    (s : Storage), s.diskMgr = d → (PageManager.scanTable callback fileId b).run s =
      (PageManager.scanPages callback fileId n 0 b).run s
  fresh : ∀ {calls d' p d''}, Growth.grown n calls < 2 ^ 32 →
    (growAll fileId calls).run d = (.ok (), d') →
    (allocateNewPage fileId).run d' = (.ok p, d'') → Growth.grown n calls ≤ p

/-! ## A growing file -/

/-- The file has `n` pages, by its page count and by its size. -/
structure InStep (path : Str) (fileId : ℤ) (n : ℕ) (d : DiskManager) : Prop where
  handle : d.files.find? fileId = some ⟨path, n⟩
  size : ∃ file, d.disk path = some file ∧ file.size = n * PAGE_SIZE

theorem run_handle {d : DiskManager} {fileId : ℤ} {h : FileHandle}
    (hh : d.files.find? fileId = some h) : (handle fileId).run d = (.ok h, d) := by
  unfold handle
  rw [run_get_bind]
  simp only [hh]
  rfl

theorem InStep.size_content {path : Str} {fileId : ℤ} {n : ℕ} {d : DiskManager}
    (h : InStep path fileId n d) : (d.content path).size = n * PAGE_SIZE := by
  obtain ⟨file, hfile, hsize⟩ := h.size
  rw [content, hfile, Option.getD_some, hsize]

/-- A page written at a page number grows the file up to it. -/
theorem size_writeAt {file : File} {n : ℕ} (hsize : file.size = n * PAGE_SIZE) (p : ℕ)
    (buffer : Page) :
    (file.writeAt (p * PAGE_SIZE) buffer).size = max n (p + 1) * PAGE_SIZE := by
  show max file.size (p * PAGE_SIZE + PAGE_SIZE) = _
  rw [hsize, ← Nat.succ_mul, Nat.mul_max_mul_right]

theorem InStep.getFilePageCount {path : Str} {fileId : ℤ} {n : ℕ} {d : DiskManager}
    (h : InStep path fileId n d) : d.getFilePageCount fileId = n := by
  simp only [DiskManager.getFilePageCount, h.handle]

/-- A new page is the one behind the pages that are there. -/
theorem InStep.allocateNewPage {path : Str} {fileId : ℤ} {n : ℕ} {d : DiskManager}
    (h : InStep path fileId n d) (hn : n + 1 < 2 ^ 32) :
    ∃ d', (allocateNewPage fileId).run d = (.ok n, d') ∧ InStep path fileId (n + 1) d' := by
  have hlt : n < INVALID_PAGE_ID := by
    show n < 2 ^ 32 - 1
    omega
  rw [DiskManager.allocateNewPage, run_bind_ok (run_handle h.handle)]
  simp only [if_pos hlt]
  refine ⟨_, rfl, Dict.find?_insert_self .., _, Function.update_self .., ?_⟩
  show (File.writeAt (d.content path) (n * PAGE_SIZE) Block.zero).size = _
  rw [size_writeAt h.size_content, Nat.max_eq_right (Nat.le_succ n)]

/-- A page written behind the pages that are there sets the page count; its 32 bits hold. -/
theorem InStep.writePage {path : Str} {fileId : ℤ} {n : ℕ} {d : DiskManager}
    (h : InStep path fileId n d) {p : ℕ} (buffer : Page) (hn : max n (p + 1) < 2 ^ 32) :
    ∃ d', (writePage fileId p buffer).run d = (.ok (), d') ∧
      InStep path fileId (max n (p + 1)) d' := by
  rw [DiskManager.writePage, run_bind_ok (run_handle h.handle), run_modify_bind]
  by_cases hle : n ≤ p
  · simp only [if_pos hle]
    rw [Nat.mod_eq_of_lt (by omega), Nat.max_eq_right (by omega)]
    refine ⟨_, rfl, Dict.find?_insert_self .., _, Function.update_self .., ?_⟩
    rw [size_writeAt h.size_content, Nat.max_eq_right (by omega)]
  · simp only [if_neg hle]
    rw [Nat.max_eq_left (by omega)]
    refine ⟨_, rfl, h.handle, _, Function.update_self .., ?_⟩
    rw [size_writeAt h.size_content, Nat.max_eq_left (by omega)]

/-- A call keeps the size and the page count in step. -/
theorem growth_inStep {path : Str} {fileId : ℤ} {n : ℕ} {d : DiskManager}
    (h : InStep path fileId n d) (call : Growth) (hn : call.pages n < 2 ^ 32) :
    ∃ d', (growth fileId call).run d = (.ok (), d') ∧ InStep path fileId (call.pages n) d' := by
  cases call with
  | allocateNewPage =>
    obtain ⟨d', hrun, hstep⟩ := h.allocateNewPage hn
    refine ⟨d', ?_, hstep⟩
    rw [growth, run_bind_ok hrun]
    rfl
  | writePage pageNum buffer => exact h.writePage buffer hn

/-- A run of calls keeps the size and the page count in step. -/
theorem growAll_inStep {path : Str} {fileId : ℤ} (calls : List Growth) {n : ℕ} {d : DiskManager}
    (h : InStep path fileId n d) (hn : Growth.grown n calls < 2 ^ 32) :
    ∃ d', (growAll fileId calls).run d = (.ok (), d') ∧
      InStep path fileId (Growth.grown n calls) d' := by
  induction calls generalizing n d with
  | nil => exact ⟨d, rfl, h⟩
  | cons call calls ih =>
    have hcall : call.pages n < 2 ^ 32 :=
      Nat.lt_of_le_of_lt (Growth.le_grown calls (call.pages n)) hn
    obtain ⟨d₁, hrun₁, hstep⟩ := growth_inStep h call hcall
    obtain ⟨d', hrun, hend⟩ := ih hstep hn
    refine ⟨d', ?_, hend⟩
    rw [growAll, List.foldlM_cons, run_bind_ok hrun₁]
    exact hrun

/-- A file that was created and grown has the pages of its calls. -/
theorem grow_inStep (fileName : Str) (calls : List Growth) (d : DiskManager)
    (hn : Growth.grown 0 calls < 2 ^ 32) :
    ∃ fileId d', (grow fileName calls).run d = (.ok fileId, d') ∧
      InStep (fullPath fileName) fileId (Growth.grown 0 calls) d' := by
  obtain ⟨d₁, hrun₁, hstart⟩ : ∃ d₁, (createFile fileName).run d = (.ok d.nextFileId, d₁) ∧
      InStep (fullPath fileName) d.nextFileId 0 d₁ :=
    ⟨_, rfl, Dict.find?_insert_self .., .empty, Function.update_self .., (Nat.zero_mul _).symm⟩
  obtain ⟨d', hrun, hend⟩ := growAll_inStep calls hstart hn
  refine ⟨d.nextFileId, d', ?_, hend⟩
  rw [grow, run_bind_ok hrun₁, run_bind_ok hrun]
  rfl

/-! ## A file opened again -/

/-- The count of the reopened file keeps 20 bits of the number of pages. -/
theorem reopened_count (n : ℕ) : n * PAGE_SIZE % 2 ^ 32 / PAGE_SIZE = n % 2 ^ 20 := by
  show n * 4096 % 4294967296 / 4096 = n % 1048576
  omega

/-- A reopened file has its old contents and the count that `openFile` computes. -/
theorem run_reopen {fileName : Str} {fileId : ℤ} {n : ℕ} {d : DiskManager}
    (h : InStep (fullPath fileName) fileId n d) :
    ∃ fileId' d', (reopen fileName fileId).run d = (.ok fileId', d') ∧
      d'.files.find? fileId' = some ⟨fullPath fileName, n % 2 ^ 20⟩ ∧ d'.disk = d.disk := by
  obtain ⟨file, hfile, hsize⟩ := h.size
  rw [reopen, closeFile, run_modify_bind, openFile, run_get_bind]
  simp only [hfile]
  refine ⟨_, _, rfl, ?_, rfl⟩
  rw [← reopened_count, ← hsize]
  exact Dict.find?_insert_self ..

/-- A file in step has its pages to a scan and to every later allocation. -/
theorem InStep.survives {path : Str} {fileId : ℤ} {n : ℕ} {d : DiskManager}
    (h : InStep path fileId n d) : Survives d fileId n where
  count := h.getFilePageCount
  scan := by
    rintro β callback b s rfl
    rw [PageManager.scanTable, run_get_bind, h.getFilePageCount]
  fresh := by
    intro calls d' p d'' hn hrun halloc
    obtain ⟨d₁, hrun', hstep⟩ := growAll_inStep calls h hn
    obtain rfl : d₁ = d' := (Prod.mk.inj (hrun'.symm.trans hrun)).2
    rw [DiskManager.allocateNewPage, run_bind_ok (run_handle hstep.handle)] at halloc
    split at halloc
    case isTrue =>
      exact Nat.le_of_eq (Except.ok.inj (Prod.mk.inj halloc).1)
    case isFalse =>
      exact absurd (Prod.mk.inj halloc).1 (by simp)

/-- The page count of a file survives closing and reopening if and only if the file has fewer than
`2^20` pages: its size fits 32 bits. -/
theorem reopen_survives_iff (d : DiskManager) (fileName : Str) (calls : List Growth)
    (hn : Growth.grown 0 calls < 2 ^ 32) :
    ∃ fileId d₁ fileId' d₂, (grow fileName calls).run d = (.ok fileId, d₁) ∧
      d₁.getFilePageCount fileId = Growth.grown 0 calls ∧
      (reopen fileName fileId).run d₁ = (.ok fileId', d₂) ∧
      (Survives d₂ fileId' (Growth.grown 0 calls) ↔ Growth.grown 0 calls < 2 ^ 20) := by
  obtain ⟨fileId, d₁, hgrow, hstep⟩ := grow_inStep fileName calls d hn
  obtain ⟨fileId', d₂, hreopen, hhandle, hdisk⟩ := run_reopen hstep
  refine ⟨fileId, d₁, fileId', d₂, hgrow, hstep.getFilePageCount, hreopen, ?_, ?_⟩
  · intro hsurvives
    -- The reopened count keeps 20 bits, so it is smaller than `2^20`.
    have hcount := hsurvives.count
    simp only [getFilePageCount, hhandle] at hcount
    rw [← hcount]
    exact Nat.mod_lt _ (by decide)
  · intro hlt
    rw [Nat.mod_eq_of_lt hlt] at hhandle
    obtain ⟨file, hfile, hsize⟩ := hstep.size
    exact InStep.survives ⟨hhandle, file, by rw [hdisk, hfile], hsize⟩

/-- A file of three pages. -/
theorem reopen_survives_three :
    Growth.grown 0 [.allocateNewPage, .writePage 2 Block.zero] < 2 ^ 32 ∧
      ∃ fileId d₁ fileId' d₂,
        (grow (lit "t.db") [.allocateNewPage, .writePage 2 Block.zero]).run
          (DiskManager.new fun _ => none) = (.ok fileId, d₁) ∧
        (reopen (lit "t.db") fileId).run d₁ = (.ok fileId', d₂) ∧ Survives d₂ fileId' 3 := by
  have hn : Growth.grown 0 [.allocateNewPage, .writePage 2 Block.zero] < 2 ^ 32 := by decide
  obtain ⟨fileId, d₁, fileId', d₂, hgrow, _, hreopen, hiff⟩ :=
    reopen_survives_iff (DiskManager.new fun _ => none) (lit "t.db")
      [.allocateNewPage, .writePage 2 Block.zero] hn
  exact ⟨hn, fileId, d₁, fileId', d₂, hgrow, hreopen, hiff.mpr (by decide)⟩

/-- A file whose last page is the page `2^20 - 1` has no pages when it is opened again, and the
first page allocated then is the page 0, which exists. -/
theorem reopen_forgets :
    ∃ fileId d₁ fileId' d₂ d₃,
      (grow (lit "t.db") [.writePage (2 ^ 20 - 1) Block.zero]).run
        (DiskManager.new fun _ => none) = (.ok fileId, d₁) ∧
      d₁.getFilePageCount fileId = 2 ^ 20 ∧
      (reopen (lit "t.db") fileId).run d₁ = (.ok fileId', d₂) ∧
      d₂.getFilePageCount fileId' = 0 ∧
      (allocateNewPage fileId').run d₂ = (.ok 0, d₃) ∧ ¬ Survives d₂ fileId' (2 ^ 20) := by
  obtain ⟨fileId, d₁, hgrow, hstep⟩ := grow_inStep (lit "t.db")
    [.writePage (2 ^ 20 - 1) Block.zero] (DiskManager.new fun _ => none) (by decide)
  obtain ⟨fileId', d₂, hreopen, hhandle, _⟩ := run_reopen hstep
  have hcount : d₂.getFilePageCount fileId' = 0 := by
    simp only [getFilePageCount, hhandle]
    rfl
  obtain ⟨d₃, halloc⟩ : ∃ d₃, (allocateNewPage fileId').run d₂ = (.ok 0, d₃) := by
    rw [allocateNewPage, run_bind_ok (run_handle hhandle)]
    exact ⟨_, rfl⟩
  refine ⟨fileId, d₁, fileId', d₂, d₃, hgrow, hstep.getFilePageCount, hreopen, hcount, halloc, ?_⟩
  intro hsurvives
  have hsame := hsurvives.count.symm.trans hcount
  exact absurd hsame (by decide)

end DiskManager

end MiniDB
