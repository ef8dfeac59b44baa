import MiniDB.Storage.HeapRuns

/-!
# Heap files on the disk

Tables by their names, as they are on the disk when nothing is in use: after the pages were flushed,
or before the first call of a process. A table that is opened then is the heap that its file lays
out. No call writes to a file that is not open.

## Main definitions

* `HeapTables`: the heaps of the tables by name
* `FileLays`: a file of whole pages that lay out a heap
* `File.ofPages`: the file with given pages
* `Storage.Frames`: the program writes to open files only
* `Storage.Confined paths disk s`: the open files are among these, the rest of the disk is as it was
* `Storage.OnDisk names D s`: no page is dirty, and the files of the tables lay out the heaps `D`
* `Storage.Loaded D tableFiles s`: some of these tables are open, and the others are on the disk

## Main results

* `Frames.insertTuple`, `Frames.deleteTuple`, `Frames.flushAllPages`: the calls write to open files
* `OnDisk.loaded`, `Loaded.openTable`, `Loaded.flushAllPages`: from the disk and back to it
-/

namespace MiniDB

open Program

/-- The heaps of the tables, by name. -/
abbrev HeapTables := Str → Option Heap

/-- The path of the file of a table. -/
def tableFile (name : Str) : Str := DiskManager.fullPath (name ++ lit ".db")

theorem tableFile_inj {a b : Str} (h : tableFile a = tableFile b) : a = b :=
  List.append_cancel_right (List.append_cancel_left h)

/-- The file has whole pages, fewer than 4 GiB of them, and they lay out the heap. -/
structure FileLays (file : File) (h : Heap) : Prop where
  size : file.size = h.length * PAGE_SIZE
  small : h.length < 2 ^ 20
  pages : ∀ {p pg}, h[p]? = some pg → Slotted (file.readAt (p * PAGE_SIZE)) pg

theorem FileLays.length {file : File} {h : Heap} (hl : FileLays file h) :
    file.size % 2 ^ 32 / PAGE_SIZE = h.length := by
  have hsmall := hl.small
  have hsize := hl.size
  simp only [PAGE_SIZE] at hsize ⊢
  omega

theorem FileLays.forall₂ {file : File} {h : Heap} (hl : FileLays file h) :
    List.Forall₂ Slotted (Storage.Holds.filePages file) h := by
  refine List.forall₂_iff_get.mpr ⟨?_, fun p h₁ h₂ => ?_⟩
  · rw [Storage.Holds.filePages, List.length_map, List.length_range, hl.length]
  · simpa [Storage.Holds.filePages] using hl.pages (List.getElem?_eq_getElem h₂)

/-- The file has whole pages, and they lay out the heap. -/
structure LaysOut (file : File) (h : Heap) : Prop where
  size : file.size = h.length * PAGE_SIZE
  pages : ∀ {p pg}, h[p]? = some pg → Slotted (file.readAt (p * PAGE_SIZE)) pg

theorem LaysOut.fileLays {file : File} {h : Heap} (hl : LaysOut file h)
    (hsmall : file.size < 2 ^ 32) : FileLays file h where
  size := hl.size
  small := by
    have hsize := hl.size
    simp only [PAGE_SIZE] at hsize
    omega
  pages := hl.pages

/-- The file with these pages. -/
def File.ofPages (pages : List Page) : File where
  size := pages.length * PAGE_SIZE
  byte := fun i => (pages.getD (i / PAGE_SIZE) Block.zero).byte (i % PAGE_SIZE)

theorem File.readAt_ofPages {pages : List Page} {p : ℕ} {page : Page} (hp : pages[p]? = some page) :
    (File.ofPages pages).readAt (p * PAGE_SIZE) = page := by
  obtain ⟨hlt, rfl⟩ := List.getElem?_eq_some_iff.mp hp
  funext i
  have hi : i.val < PAGE_SIZE := i.isLt
  have hdiv : (p * PAGE_SIZE + i.val) / PAGE_SIZE = p := by
    simp only [PAGE_SIZE] at hi ⊢
    omega
  have hmod : (p * PAGE_SIZE + i.val) % PAGE_SIZE = i.val := by
    simp only [PAGE_SIZE] at hi ⊢
    omega
  have hin : p * PAGE_SIZE + i.val < pages.length * PAGE_SIZE := by
    simp only [PAGE_SIZE] at hi ⊢
    omega
  simp only [readAt, ofPages, if_pos hin, hdiv, hmod, List.getD_eq_getElem?_getD,
    List.getElem?_eq_getElem hlt, Option.getD_some]
  exact dif_pos hi

/-- A file of pages that lay out a heap. -/
theorem fileLays_ofPages {pages : List Page} {h : Heap} (hpages : List.Forall₂ Slotted pages h)
    (hsmall : h.length < 2 ^ 20) : FileLays (File.ofPages pages) h := by
  constructor
  case size => rw [File.ofPages, hpages.length_eq]
  case small => exact hsmall
  case pages =>
    intro p pg hp
    obtain ⟨hlt, rfl⟩ := List.getElem?_eq_some_iff.mp hp
    have hlt' : p < pages.length := hpages.length_eq ▸ hlt
    rw [File.readAt_ofPages (List.getElem?_eq_getElem hlt')]
    exact hpages.get hlt' hlt

namespace Storage

variable {α β : Type}

/-! ## Files that are not open -/

/-- The program keeps the paths of the open files, and writes to no other file. -/
def Frames (x : Program Storage Fault α) : Prop := ∀ s, wp (fun _ => True) x (fun _ s' =>
  (∀ f, (s'.diskMgr.files.find? f).map FileHandle.fileName =
    (s.diskMgr.files.find? f).map FileHandle.fileName) ∧
  ∀ path, (∀ f h, s.diskMgr.files.find? f = some h → h.fileName ≠ path) →
    s'.diskMgr.disk path = s.diskMgr.disk path) s

namespace Frames

theorem of_same {x : Program Storage Fault α} {s : Storage}
    (h : wp (fun _ => True) x (fun _ s' => s'.diskMgr = s.diskMgr) s) :
    wp (fun _ => True) x (fun _ s' =>
      (∀ f, (s'.diskMgr.files.find? f).map FileHandle.fileName =
        (s.diskMgr.files.find? f).map FileHandle.fileName) ∧
      ∀ path, (∀ f h, s.diskMgr.files.find? f = some h → h.fileName ≠ path) →
        s'.diskMgr.disk path = s.diskMgr.disk path) s := by
  refine wp_mono h fun a s' hs => ?_
  rw [hs]
  exact ⟨fun _ => rfl, fun _ _ => rfl⟩

theorem pure (a : α) : Frames (pure a) := fun _ => of_same rfl

theorem get : Frames Program.get := fun _ => of_same rfl

theorem throw (e : Fault) : Frames (Program.throw e : Program Storage Fault α) := fun _ => trivial

theorem lift (x : Except Fault α) : Frames (Program.lift x) := by
  intro s
  cases x with
  | error e => trivial
  | ok a => exact of_same rfl

theorem onPool (f : BufferPool → BufferPool) : Frames (Storage.onPool f) := fun _ => of_same rfl

theorem bind {x : Program Storage Fault α} {f : α → Program Storage Fault β} (hx : Frames x)
    (hf : ∀ a, Frames (f a)) : Frames (x >>= f) := by
  intro s
  rw [wp_bind]
  refine wp_mono (hx s) ?_
  rintro a s₁ ⟨hnames₁, hdisk₁⟩
  refine wp_mono (hf a s₁) ?_
  rintro b s₂ ⟨hnames₂, hdisk₂⟩
  refine ⟨fun f => (hnames₂ f).trans (hnames₁ f), fun path hpath => ?_⟩
  refine (hdisk₂ path fun g h hg hp => ?_).trans (hdisk₁ path hpath)
  have hname := hnames₁ g
  rw [hg] at hname
  obtain ⟨h', hg', hh'⟩ := Option.map_eq_some_iff.mp hname.symm
  exact hpath g h' hg' (hh'.trans hp)

theorem foldlM {f : β → α → Program Storage Fault β} (hf : ∀ b a, Frames (f b a)) :
    ∀ (as : List α) (b : β), Frames (as.foldlM f b)
  | [], b => pure b
  | a :: as, b => by
    rw [List.foldlM_cons]
    exact (hf b a).bind fun b' => foldlM hf as b'

/-- The two calls that write to the disk find the file under its handle. -/
theorem writeHandle {s : Storage} {f : ℤ} {h k : FileHandle} {d' : DiskManager} {file : File}
    (hf : s.diskMgr.files.find? f = some h) (hname : k.fileName = h.fileName)
    (hdisk : d'.disk = Function.update s.diskMgr.disk h.fileName (some file))
    (hfiles : d'.files = s.diskMgr.files ∨ d'.files = s.diskMgr.files.insert f k) :
    (∀ g, (d'.files.find? g).map FileHandle.fileName =
      (s.diskMgr.files.find? g).map FileHandle.fileName) ∧
    ∀ path, (∀ g h, s.diskMgr.files.find? g = some h → h.fileName ≠ path) →
      d'.disk path = s.diskMgr.disk path := by
  constructor
  · intro g
    rcases hfiles with hfiles | hfiles
    · rw [hfiles]
    · rw [hfiles]
      by_cases hg : g = f
      · subst hg
        rw [Dict.find?_insert_self, hf]
        exact congrArg some hname
      · rw [Dict.find?_insert_of_ne _ _ hg]
  · intro path hpath
    rw [hdisk, Function.update_of_ne (hpath f h hf).symm]

theorem writePage (f : ℤ) (p : ℕ) (page : Page) :
    Frames (onDisk (DiskManager.writePage f p page)) := by
  intro s
  simp only [onDisk, wp_zoom, DiskManager.writePage, DiskManager.handle, wp_bind, wp_get]
  cases hf : s.diskMgr.files.find? f with
  | none => trivial
  | some h =>
    simp only [wp_pure, wp_modify]
    split
    · exact writeHandle (k := { h with pageCount := (p + 1) % 2 ^ 32 }) hf rfl rfl (Or.inr rfl)
    · exact writeHandle (k := h) hf rfl rfl (Or.inl rfl)

theorem allocateNewPage (f : ℤ) : Frames (onDisk (DiskManager.allocateNewPage f)) := by
  intro s
  simp only [onDisk, wp_zoom, DiskManager.allocateNewPage, DiskManager.handle, wp_bind, wp_get]
  cases hf : s.diskMgr.files.find? f with
  | none => trivial
  | some h =>
    simp only [wp_pure]
    split
    · exact writeHandle (k := { h with pageCount := h.pageCount + 1 }) hf rfl rfl (Or.inr rfl)
    · trivial

theorem readPage (f : ℤ) (p : ℕ) : Frames (onDisk (DiskManager.readPage f p)) := by
  intro s
  refine of_same ?_
  simp only [onDisk, wp_zoom, DiskManager.readPage, DiskManager.handle, wp_bind, wp_get]
  cases s.diskMgr.files.find? f with
  | none => trivial
  | some h => rfl

theorem findVictimFrame : Frames findVictimFrame := by
  unfold Storage.findVictimFrame
  refine get.bind fun s => ?_
  dsimp only
  split
  · exact (onPool _).bind fun _ => pure _
  · split
    · exact throw _
    · exact (onPool _).bind fun _ => pure _

theorem evict (frame : PageFrame) : Frames (evict frame) := by
  unfold Storage.evict
  split
  · refine (onPool _).bind fun _ => ?_
    split
    · exact writePage _ _ _
    · exact pure ()
  · exact pure ()

theorem fetchPage (f : ℤ) (p : ℕ) (w : Bool) : Frames (fetchPage f p w) := by
  unfold Storage.fetchPage
  refine get.bind fun s => ?_
  dsimp only
  split
  · exact (onPool _).bind fun _ => (onPool _).bind fun _ => (onPool _).bind fun _ => pure _
  · exact (onPool _).bind fun _ => findVictimFrame.bind fun i => (evict _).bind fun _ =>
      (readPage f p).bind fun d => (onPool _).bind fun _ => (onPool _).bind fun _ => pure _

theorem unpinPage (f : ℤ) (p : ℕ) (isDirty : Bool) : Frames (unpinPage f p isDirty) := by
  unfold Storage.unpinPage
  refine get.bind fun s => ?_
  dsimp only
  split
  · exact pure ()
  · split
    · exact pure ()
    · refine (onPool _).bind fun _ => ?_
      split
      · exact onPool _
      · exact pure ()

theorem pageData (i : ℕ) : Frames (pageData i) := get.bind fun _ => pure _

theorem setPageData (i : ℕ) (page : Page) : Frames (setPageData i page) := onPool _

theorem flushAllPages : Frames flushAllPages := by
  unfold Storage.flushAllPages
  refine get.bind fun s => foldlM (fun _ entry => ?_) _ _
  unfold Storage.flushFrame
  refine get.bind fun s => ?_
  dsimp only
  split
  · exact (writePage _ _ _).bind fun _ => onPool _
  · exact pure ()

theorem newPage (f : ℤ) : Frames (PageManager.newPage f) :=
  (allocateNewPage f).bind fun n => (fetchPage f n true).bind fun i =>
    (setPageData i _).bind fun _ => (unpinPage f n true).bind fun _ => pure n

theorem findFreePageFrom (f : ℤ) (requiredSpace : ℕ) :
    ∀ n p, Frames (PageManager.findFreePageFrom f requiredSpace n p)
  | 0, _ => pure none
  | n + 1, p => by
    unfold PageManager.findFreePageFrom
    refine (fetchPage _ _ _).bind fun i => (pageData i).bind fun page => (unpinPage _ _ _).bind fun _ => ?_
    split
    · exact pure _
    · exact findFreePageFrom f requiredSpace n (p + 1)

theorem findFreePage (f : ℤ) (requiredSpace : ℕ) :
    Frames (PageManager.findFreePage f requiredSpace) := by
  unfold PageManager.findFreePage
  refine get.bind fun s => (findFreePageFrom _ _ _ _).bind fun o => ?_
  cases o with
  | none => exact newPage f
  | some p => exact pure p

theorem insertTuple (f : ℤ) (data : Str) (dataLen : ℕ) :
    Frames (PageManager.insertTuple f data dataLen) := by
  unfold PageManager.insertTuple
  refine (findFreePage _ _).bind fun p => (fetchPage _ _ _).bind fun i => (pageData i).bind fun page =>
    (lift _).bind fun slot => (lift _).bind fun bytes => ?_
  split
  · exact (unpinPage _ _ _).bind fun _ => (allocateNewPage f).bind fun n => (fetchPage _ _ _).bind
      fun j => (setPageData _ _).bind fun _ => (pageData j).bind fun page => (lift _).bind
      fun page' => (setPageData _ _).bind fun _ => (unpinPage _ _ _).bind fun _ => pure _
  · exact (lift _).bind fun page' => (setPageData _ _).bind fun _ => (unpinPage _ _ _).bind
      fun _ => pure _

theorem deleteTuple (f : ℤ) (rid : RID) : Frames (PageManager.deleteTuple f rid) := by
  unfold PageManager.deleteTuple
  exact (fetchPage _ _ _).bind fun i => (pageData i).bind fun page => (lift _).bind fun page' =>
    (setPageData _ _).bind fun _ => unpinPage _ _ _

theorem scanPages (callback : β → RID → Str → ℕ → Except Fault (β × Bool)) (f : ℤ) :
    ∀ n p b, Frames (PageManager.scanPages callback f n p b)
  | 0, _, b => pure b
  | n + 1, p, b => by
    unfold PageManager.scanPages
    refine (fetchPage _ _ _).bind fun i => (pageData i).bind fun page => (lift _).bind fun r =>
      (unpinPage _ _ _).bind fun _ => ?_
    split
    · exact scanPages callback f n (p + 1) r.1
    · exact pure _

theorem scanTable (callback : β → RID → Str → ℕ → Except Fault (β × Bool)) (f : ℤ) (b : β) :
    Frames (PageManager.scanTable callback f b) :=
  get.bind fun _ => scanPages callback f _ 0 b

end Frames

/-- The open files are among these paths, and the disk is elsewhere as it was. -/
structure Confined (paths : Str → Prop) (disk : Str → Option File) (s : Storage) : Prop where
  opened : ∀ {f h}, s.diskMgr.files.find? f = some h → paths h.fileName
  elsewhere : ∀ {path}, ¬ paths path → s.diskMgr.disk path = disk path

namespace Confined

variable {paths : Str → Prop} {disk : Str → Option File}

/-- A program that writes to open files only. -/
theorem of_frames {x : Program Storage Fault α} (hx : Frames x) :
    Program.Keeps (Confined paths disk) x := by
  intro s h
  refine wp_mono (hx s) ?_
  rintro a s' ⟨hnames, hdisk⟩
  refine ⟨fun {f h'} hf => ?_, fun {path} hpath => ?_⟩
  · have hname := hnames f
    rw [hf] at hname
    obtain ⟨h₀, hf₀, hsame⟩ := Option.map_eq_some_iff.mp hname.symm
    exact hsame ▸ h.opened hf₀
  · exact (hdisk path fun f h' hf he => hpath (he ▸ h.opened hf)).trans (h.elsewhere hpath)

/-- A new file at one of the paths. -/
theorem createTable {tableName : Str} (hpath : paths (tableFile tableName)) :
    Program.Keeps (Confined paths disk) (PageManager.createTable tableName) := by
  refine Keeps.bind (fun s h => ?_) fun fileId => Keeps.bind (of_frames (Frames.newPage fileId))
    fun _ => Keeps.pure _
  simp only [onDisk, wp_zoom, DiskManager.createFile, wp_bind, wp_get, wp_set, wp_pure]
  refine ⟨fun {f h'} hf => ?_, fun {path} hnot => ?_⟩
  · simp only [DiskManager.setHandle, Dict.find?_insert] at hf
    split at hf
    case isTrue => exact Option.some.inj hf ▸ hpath
    case isFalse => exact h.opened hf
  · refine (Function.update_of_ne ?_ _ _).trans (h.elsewhere hnot)
    rintro rfl
    exact hnot hpath

end Confined

/-! ## From the disk and back -/

namespace Holds

variable {F : Files} {s : Storage} {f : ℤ} {t : TableFile}

/-- After a flush no file needs to be in use any more. -/
theorem release (h : Holds F none none s) (hclean : Clean s) :
    Holds (fun _ => none) none none s where
  tracks := h.tracks
  pins := h.pins
  opened := nofun
  apart := nofun
  pages := nofun
  cached hk := Or.inr ⟨rfl, hclean hk⟩
  known := h.known
  fresh := h.fresh
  pos := h.pos
  room := h.room

/-- After a flush the disk has the pages. -/
theorem page_onDisk (h : Holds F none none s) (hclean : Clean s) (hF : F f = some t) {p : ℕ}
    {d : Page} (hp : t.pages[p]? = some d) :
    (s.diskMgr.content t.path).readAt (p * PAGE_SIZE) = d := by
  have hpage : s.diskMgr.page (f, p) = s.page (f, p) := by
    cases hk : s.bufferPool.pageTable.find? (f, p) with
    | none => exact (page_of_not_cached hk).symm
    | some i =>
      rw [page_of_cached hk]
      rcases h.cached hk with ⟨-, -, -, hsame⟩ | ⟨hnone, -⟩
      · exact (hsame (hclean hk)).symm
      · rw [show F (f, p).1 = F f from rfl, hF] at hnone
        cases hnone
  rw [← h.pages hF hp, ← hpage, DiskManager.page, (h.opened hF).handle]

theorem laysOut (h : Holds F none none s) (hclean : Clean s) (hF : F f = some t) {hf : HeapFile}
    (hl : Lays t hf) : ∃ file, s.diskMgr.disk hf.path = some file ∧ LaysOut file hf.pages := by
  have ho := h.opened hF
  obtain ⟨file, hfile⟩ := Option.isSome_iff_exists.mp ho.onDisk
  have hcontent : s.diskMgr.content t.path = file := by rw [DiskManager.content, hfile]; rfl
  refine ⟨file, hl.1 ▸ hfile, ?_⟩
  constructor
  case size => rw [← hcontent, ho.size, hl.2.length_eq]
  case pages =>
    intro p pg hp
    obtain ⟨page, hpage, hslot⟩ := Stores.page_of_heap hl hp
    rw [← hcontent, h.page_onDisk hclean hF hpage]
    exact hslot

theorem fileLays (h : Holds F none none s) (hclean : Clean s) (hF : F f = some t) {hf : HeapFile}
    (hl : Lays t hf) (hsmall : hf.pages.length < 2 ^ 20) :
    ∃ file, s.diskMgr.disk hf.path = some file ∧ FileLays file hf.pages := by
  obtain ⟨file, hfile, hlays⟩ := h.laysOut hclean hF hl
  exact ⟨file, hfile, hlays.size, hsmall, hlays.pages⟩

end Holds

/-- No page is dirty, the open files are of tables in `names`, and the files of the tables lay out
the heaps. -/
structure OnDisk (names : Str → Prop) (D : HeapTables) (s : Storage) : Prop where
  holds : Holds (fun _ => none) none none s
  only : ∀ {f h}, s.diskMgr.files.find? f = some h →
    ∃ name, names name ∧ D name ≠ none ∧ h.fileName = tableFile name
  files : ∀ name, Option.Rel FileLays (s.diskMgr.disk (tableFile name)) (D name)

/-- The tables in `tableFiles` are open, and hold their heaps; the files of the others lay out
theirs. -/
structure Loaded (names : Str → Prop) (D : HeapTables) (tableFiles : Dict Str ℤ) (s : Storage) :
    Prop where
  stores : ∃ H, Stores H s ∧
    (∀ {name f}, tableFiles.find? name = some f →
      ∃ h, D name = some h ∧ H f = some ⟨tableFile name, h⟩) ∧
    ∀ {f h}, H f = some h → ∃ name, tableFiles.find? name = some f ∧ h.path = tableFile name
  only : ∀ {f h}, s.diskMgr.files.find? f = some h →
    ∃ name, names name ∧ D name ≠ none ∧ h.fileName = tableFile name
  files : ∀ {name}, tableFiles.find? name = none →
    Option.Rel FileLays (s.diskMgr.disk (tableFile name)) (D name)

/-- Every table in `names` that there is has been opened. -/
def AllOpen (names : Str → Prop) (D : HeapTables) (tableFiles : Dict Str ℤ) : Prop :=
  ∀ name, names name → D name ≠ none → tableFiles.find? name ≠ none

variable {names : Str → Prop} {D : HeapTables} {tableFiles : Dict Str ℤ} {s : Storage} {name : Str}
  {f : ℤ} {h : Heap}

/-- A process that has not made a call yet. -/
theorem onDisk_new (names : Str → Prop) {disk : Str → Option File} {poolSize : ℕ}
    (hpool : 0 < poolSize)
    (hfiles : ∀ name, Option.Rel FileLays (disk (tableFile name)) (D name)) :
    OnDisk names D ⟨DiskManager.new disk, BufferPool.new poolSize⟩ :=
  ⟨Storage.Holds.holds_new disk hpool, nofun, hfiles⟩

/-- A process on a disk with the file of one table. -/
theorem onDisk_single (names : Str → Prop) (name : Str) {file : File} (hfile : FileLays file h)
    {poolSize : ℕ} (hpool : 0 < poolSize) :
    OnDisk names (fun n => if n = name then some h else none)
      ⟨DiskManager.new fun path => if path = tableFile name then some file else none,
        BufferPool.new poolSize⟩ := by
  refine onDisk_new _ hpool fun n => ?_
  by_cases hn : n = name
  · simp only [hn, if_true]
    exact .some hfile
  · simp only [hn, if_false, if_neg fun hp => hn (tableFile_inj hp)]
    exact .none

theorem OnDisk.mono {names' : Str → Prop} (hs : OnDisk names D s)
    (h : ∀ name, names name → names' name) : OnDisk names' D s where
  holds := hs.holds
  only hf := (hs.only hf).imp fun name hname => ⟨h name hname.1, hname.2⟩
  files := hs.files

/-- The tables on the disk are below 4 GiB. -/
theorem OnDisk.small (hs : OnDisk names D s) (hD : D name = some h) : h.length < 2 ^ 20 := by
  have hrel := hs.files name
  rw [hD] at hrel
  cases hfile : s.diskMgr.disk (tableFile name) with
  | none => rw [hfile] at hrel; cases hrel
  | some file => rw [hfile] at hrel; cases hrel with | some hl => exact hl.small

theorem OnDisk.loaded (hs : OnDisk names D s) : Loaded names D .empty s where
  stores := ⟨fun _ => none, ⟨_, hs.holds, fun _ => .none⟩, nofun, nofun⟩
  only := hs.only
  files _ := hs.files _

/-- The handles after `openFile`. -/
theorem openFile_handles (fileName : Str) (s : Storage) :
    wp (fun _ => False) (onDisk (DiskManager.openFile fileName)) (fun _ s' =>
      ∀ {g h}, s'.diskMgr.files.find? g = some h →
        s.diskMgr.files.find? g = some h ∨ h.fileName = DiskManager.fullPath fileName) s := by
  simp only [onDisk, wp_zoom, DiskManager.openFile, wp_bind, wp_get]
  cases s.diskMgr.disk (DiskManager.fullPath fileName) with
  | none => exact Or.inl
  | some file =>
    simp only [wp_set, wp_bind, wp_pure]
    intro g h hg
    by_cases hgf : g = s.diskMgr.nextFileId
    · subst hgf
      rw [DiskManager.setHandle, Dict.find?_insert_self] at hg
      exact Or.inr (Option.some.inj hg ▸ rfl)
    · rw [DiskManager.setHandle, Dict.find?_insert_of_ne _ _ hgf] at hg
      exact Or.inl hg

namespace Loaded

/-- A table that is not there is not opened. -/
theorem openTable_none (hs : Loaded names D tableFiles s) (hname : tableFiles.find? name = none)
    (hD : D name = none) : (PageManager.openTable name).run s = (.ok (-1), s) := by
  have hdisk : s.diskMgr.disk (DiskManager.fullPath (name ++ lit ".db")) = none := by
    have hrel := hs.files hname
    rw [hD] at hrel
    cases hfile : s.diskMgr.disk (tableFile name) with
    | none => exact hfile
    | some file => rw [hfile] at hrel; cases hrel
  show ((DiskManager.openFile _).run s.diskMgr |>.1, _) = _
  simp only [DiskManager.openFile, run_get_bind, hdisk]
  rfl

/-- A table that is there is opened under a new id. -/
theorem openTable (hs : Loaded names D tableFiles s) (hname : tableFiles.find? name = none)
    (hnames : names name) (hD : D name = some h) :
    wp (fun _ => False) (PageManager.openTable name)
      (fun f s' => 0 ≤ f ∧ Loaded names D (tableFiles.insert name f) s') s := by
  obtain ⟨H, ⟨F, hF, hrel⟩, hopen, hback⟩ := hs.stores
  have hfile := hs.files hname
  rw [hD] at hfile
  obtain ⟨file, hdisk, hl⟩ : ∃ file, s.diskMgr.disk (tableFile name) = some file ∧
      FileLays file h := by
    cases hf : s.diskMgr.disk (tableFile name) with
    | none => rw [hf] at hfile; cases hfile
    | some file => rw [hf] at hfile; cases hfile with | some hl => exact ⟨file, rfl, hl⟩
  have hpath : ∀ {g t}, F g = some t → t.path ≠ DiskManager.fullPath (name ++ lit ".db") := by
    intro g t ht hp
    have hg := hrel g
    rw [ht] at hg
    cases hH : H g with
    | none => rw [hH] at hg; cases hg
    | some hf =>
      rw [hH] at hg
      cases hg with
      | some hl =>
        obtain ⟨name', hname', hpath'⟩ := hback hH
        obtain rfl : name' = name := tableFile_inj (hpath'.symm.trans (hl.1.symm.trans hp))
        rw [hname] at hname'
        cases hname'
  have hsmall := hl.small
  have hsize := hl.size
  have hopenFile := hF.openFile hdisk ⟨h.length, by rw [hsize, Nat.mul_comm]⟩
    (by simp only [PAGE_SIZE] at hsize; omega) hpath
  refine wp_mono (wp_and hopenFile (openFile_handles _ s)) ?_
  rintro f s' ⟨⟨rfl, hsame, h'⟩, hhandles⟩
  have hnone : H s.diskMgr.nextFileId = none := by
    have hf := hrel s.diskMgr.nextFileId
    rw [hF.none_of_fresh (Int.le_refl _)] at hf
    cases hH : H s.diskMgr.nextFileId with
    | none => rfl
    | some hf' => rw [hH] at hf; cases hf
  refine ⟨Int.le_of_lt hF.pos, ⟨Function.update H s.diskMgr.nextFileId (some ⟨tableFile name, h⟩),
    ⟨_, h', Stores.rel_update hrel ⟨rfl, hl.forall₂⟩⟩, ?_, ?_⟩, ?_, ?_⟩
  · intro name' g hg
    by_cases hname' : name' = name
    · subst hname'
      rw [Dict.find?_insert_self] at hg
      obtain rfl := Option.some.inj hg
      exact ⟨h, hD, Function.update_self ..⟩
    · rw [Dict.find?_insert_of_ne _ _ hname'] at hg
      obtain ⟨h₂, hD₂, hH₂⟩ := hopen hg
      have hne : g ≠ s.diskMgr.nextFileId := by
        rintro rfl
        rw [hnone] at hH₂
        cases hH₂
      exact ⟨h₂, hD₂, by rw [Function.update_of_ne hne]; exact hH₂⟩
  · intro g hf hg
    by_cases hgf : g = s.diskMgr.nextFileId
    · subst hgf
      rw [Function.update_self] at hg
      exact ⟨name, Dict.find?_insert_self .., Option.some.inj hg ▸ rfl⟩
    · rw [Function.update_of_ne hgf] at hg
      obtain ⟨name', hname', hpath'⟩ := hback hg
      have hne : name' ≠ name := by
        rintro rfl
        rw [hname] at hname'
        cases hname'
      exact ⟨name', by rw [Dict.find?_insert_of_ne _ _ hne]; exact hname', hpath'⟩
  · intro g hd hg
    rcases hhandles hg with hold | hnew
    · exact hs.only hold
    · exact ⟨name, hnames, by rw [hD]; simp, hnew⟩
  · intro name' hname'
    have hne : name' ≠ name := by
      rintro rfl
      rw [Dict.find?_insert_self] at hname'
      cases hname'
    rw [Dict.find?_insert_of_ne _ _ hne] at hname'
    rw [hsame]
    exact hs.files hname'

/-- No open file is the one of a table that is not open. -/
theorem ne_tableFile (hs : Loaded names D tableFiles s) (hall : AllOpen names D tableFiles)
    (hname : tableFiles.find? name = none) :
    ∀ f h, s.diskMgr.files.find? f = some h → h.fileName ≠ tableFile name := by
  intro f h hf hpath
  obtain ⟨name', hnames, hD, hfile⟩ := hs.only hf
  obtain rfl : name' = name := tableFile_inj (hfile.symm.trans hpath)
  exact hall name' hnames hD hname

/-- A call on an open table changes the heap of that table. -/
theorem onTable {G : Fault → Prop} {x : Program Storage Fault α} {Q : Heap → Prop}
    (hs : Loaded names D tableFiles s) (hall : AllOpen names D tableFiles)
    (hname : tableFiles.find? name = some f) (hD : D name = some h) (hframes : Frames x)
    (hx : ∀ H s, Stores H s → H f = some ⟨tableFile name, h⟩ → wp G x (fun _ s' => ∃ h', Q h' ∧
      Stores (Function.update H f (some ⟨tableFile name, h'⟩)) s') s) :
    wp G x (fun _ s' => ∃ h', Q h' ∧
      Loaded names (Function.update D name (some h')) tableFiles s') s := by
  obtain ⟨H, hstores, hopen, hback⟩ := hs.stores
  obtain ⟨h₁, hD₁, hH⟩ := hopen hname
  obtain rfl : h₁ = h := Option.some.inj (hD₁.symm.trans hD)
  refine wp_mono (wp_and (hx H s hstores hH) (hframes s)) ?_
  rintro a s' ⟨⟨h', hQ, hstores'⟩, hnames, hdisk⟩
  refine ⟨h', hQ, ⟨_, hstores', ?_, ?_⟩, ?_, ?_⟩
  · intro name' g hg
    obtain ⟨h₂, hD₂, hH₂⟩ := hopen hg
    by_cases hne : name' = name
    · subst hne
      obtain rfl : f = g := Option.some.inj (hname.symm.trans hg)
      exact ⟨h', Function.update_self .., Function.update_self ..⟩
    · have hgf : g ≠ f := by
        rintro rfl
        rw [hH] at hH₂
        exact hne (tableFile_inj (congrArg HeapFile.path (Option.some.inj hH₂)).symm)
      exact ⟨h₂, by rw [Function.update_of_ne hne]; exact hD₂,
        by rw [Function.update_of_ne hgf]; exact hH₂⟩
  · intro g hf hg
    by_cases hgf : g = f
    · subst hgf
      rw [Function.update_self] at hg
      exact ⟨name, hname, Option.some.inj hg ▸ rfl⟩
    · rw [Function.update_of_ne hgf] at hg
      exact hback hg
  · intro g hd hg
    have hsame := hnames g
    rw [hg] at hsame
    obtain ⟨hd', hg', hfile⟩ := Option.map_eq_some_iff.mp hsame.symm
    obtain ⟨name', hname', hD', hpath⟩ := hs.only hg'
    refine ⟨name', hname', ?_, hfile.symm.trans hpath⟩
    by_cases hne : name' = name
    · rw [hne, Function.update_self]
      simp
    · rw [Function.update_of_ne hne]
      exact hD'
  · intro name' hname'
    have hne : name' ≠ name := by
      rintro rfl
      rw [hname] at hname'
      cases hname'
    rw [hdisk _ (hs.ne_tableFile hall hname'), Function.update_of_ne hne]
    exact hs.files hname'

/-- A flush puts everything on the disk. -/
theorem flushAllPages (hs : Loaded names D tableFiles s) (hall : AllOpen names D tableFiles)
    (hsmall : ∀ name h, D name = some h → h.length < 2 ^ 20) :
    wp (fun _ => False) Storage.flushAllPages (fun _ s' => OnDisk names D s') s := by
  obtain ⟨H, ⟨F, hF, hrel⟩, hopen, hback⟩ := hs.stores
  -- After the flush every cached page is clean, so the disk has what the storage shows.
  refine wp_mono (wp_and hF.flushAllPages (Frames.flushAllPages s)) ?_
  rintro - s' ⟨⟨h', hclean⟩, hnames, hdisk⟩
  refine ⟨h'.release hclean, ?_, fun name => ?_⟩
  · intro g hd hg
    have hsame := hnames g
    rw [hg] at hsame
    obtain ⟨hd', hg', hfile⟩ := Option.map_eq_some_iff.mp hsame.symm
    obtain ⟨name', hname', hD', hpath⟩ := hs.only hg'
    exact ⟨name', hname', hD', hfile.symm.trans hpath⟩
  · cases hname : tableFiles.find? name with
    | none =>
      rw [hdisk _ (hs.ne_tableFile hall hname)]
      exact hs.files hname
    | some f =>
      obtain ⟨h, hD, hH⟩ := hopen hname
      obtain ⟨t, ht, hl⟩ := Stores.rel_some hrel hH
      obtain ⟨file, hfile, hlays⟩ := h'.fileLays hclean ht hl (hsmall name h hD)
      rw [show s'.diskMgr.disk (tableFile name) = some file from hfile, hD]
      exact .some hlays

end Loaded

/-! ## The tuples of a table on the disk -/

/-- The tuples of a table with their record identifiers, read from the disk; a table that is not
there has none. -/
def tuplesOn (tableName : Str) : Program Storage Fault (List (RID × Str)) := do
  let f ← PageManager.openTable tableName
  if f < 0 then return [] else PageManager.scanTable HeapCall.keep f []

theorem OnDisk.tuplesOn (hs : OnDisk names D s) (name : Str) : ∃ s', (tuplesOn name).run s =
    (.ok (match D name with | none => [] | some h => h.live), s') := by
  unfold Storage.tuplesOn
  have hmore : OnDisk (fun n => names n ∨ n = name) D s := hs.mono fun _ => Or.inl
  have hl := hmore.loaded
  cases hD : D name with
  | none =>
    rw [run_bind_ok (hl.openTable_none rfl hD)]
    exact ⟨s, rfl⟩
  | some h =>
    obtain ⟨f, s₁, hrun, hf, hl₁⟩ := wp_total.mp (hl.openTable rfl (Or.inr rfl) hD)
    obtain ⟨H, hstores, hopen, -⟩ := hl₁.stores
    obtain ⟨h₁, hD₁, hH⟩ := hopen (Dict.find?_insert_self ..)
    obtain rfl := Option.some.inj (hD₁.symm.trans hD)
    rw [run_bind_ok hrun, if_neg (Int.not_lt.mpr hf)]
    exact HeapCall.scanTable_keep hstores hH

end Storage

end MiniDB
