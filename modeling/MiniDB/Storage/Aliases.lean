import MiniDB.Storage.Bookkeeping

/-!
# File ids and the files behind them

The disk manager hands out a new file id for every file it creates or opens, whether or not an open
file has the same path, and the pool keeps the pages of a file under its id. While no file is
brought into use a second time, an open file has one id, and the pool has at most one frame for each
page of the disk.

## Main definitions

* `StorageCall`: the calls of the disk manager and of the pool
* `FileRun`: the storage, and the path that each file id was given
* `FileRun.Aliased`, `FileRun.Stale`: a call brings a path into use that is open, or whose pages are
  still in the pool under an id that was closed

## Main results

* `FileRun.run_apart_iff`: no two ids of open files have the same path, exactly in the runs without
  an aliased call; in the runs without a stale call either, no page of the disk has two frames
-/

namespace MiniDB

open Program Storage BufferPool

/-- The calls of the disk manager and of the pool. -/
inductive StorageCall
  | createFile (fileName : Str)
  | openFile (fileName : Str)
  | closeFile (fileId : ℤ)
  | allocateNewPage (fileId : ℤ)
  | pool (call : PoolCall)

/-- A call of the pool as a program. -/
def PoolCall.exec : PoolCall → Program Storage Fault Unit
  | .fetchPage fileId pageNum forWrite => do
    let _ ← Storage.fetchPage fileId pageNum forWrite
  | .unpinPage fileId pageNum isDirty => Storage.unpinPage fileId pageNum isDirty
  | .flushPage fileId pageNum => Storage.flushPage fileId pageNum
  | .flushAllPages => Storage.flushAllPages
  | .write frameIdx data => Storage.setPageData frameIdx data

namespace StorageCall

/-- A call as a program. -/
def exec : StorageCall → Program Storage Fault Unit
  | createFile fileName => do
    let _ ← onDisk (DiskManager.createFile fileName)
  | openFile fileName => do
    let _ ← onDisk (DiskManager.openFile fileName)
  | closeFile fileId => onDisk (DiskManager.closeFile fileId)
  | allocateNewPage fileId => do
    let _ ← onDisk (DiskManager.allocateNewPage fileId)
  | pool call => call.exec

/-- The path a call brings into use; a file that is not there is not opened. -/
def brings (d : DiskManager) : StorageCall → Option Str
  | createFile fileName => some (DiskManager.fullPath fileName)
  | openFile fileName =>
    if (d.disk (DiskManager.fullPath fileName)).isSome then some (DiskManager.fullPath fileName)
    else none
  | _ => none

end StorageCall

/-! ## One call -/

theorem DiskManager.run_handle_none {d : DiskManager} {f : ℤ} (hf : d.files.find? f = none) :
    (handle f).run d = (.error invalidFile, d) := by
  unfold handle
  rw [run_get_bind, hf]
  rfl

/-- What a call of the pool leaves of the files, and which pages can be cached after it: those that
were, and those of open files. -/
structure Stays (s s' : Storage) : Prop where
  paths : ∀ g, s'.diskMgr.path g = s.diskMgr.path g
  next : s'.diskMgr.nextFileId = s.diskMgr.nextFileId
  cached : ∀ {key j}, s'.bufferPool.pageTable.find? key = some j →
    (∃ i, s.bufferPool.pageTable.find? key = some i) ∨ (s.diskMgr.path key.1).isSome

namespace Stays

variable {s t : Storage}

theorem refl (s : Storage) : Stays s s := ⟨fun _ => rfl, rfl, fun h => Or.inl ⟨_, h⟩⟩

theorem onPool {f : BufferPool → BufferPool}
    (hf : ∀ pool {key j}, (f pool).pageTable.find? key = some j →
      pool.pageTable.find? key = some j) : Preserves (Stays s) (onPool f) :=
  Preserves.modify fun _ ht => ⟨ht.paths, ht.next, fun hj => ht.cached (hf _ hj)⟩

theorem writePage (f : ℤ) (p : ℕ) (data : Page) :
    Preserves (Stays s) (onDisk (DiskManager.writePage f p data)) := by
  refine Preserves.zoom fun t ht => ?_
  cases hf : t.diskMgr.files.find? f with
  | none =>
    have hrun : (DiskManager.writePage f p data).run t.diskMgr =
        (.error DiskManager.invalidFile, t.diskMgr) := run_bind_error (DiskManager.run_handle_none hf)
    rw [hrun]
    exact ht
  | some fh =>
    have hwp : wp (fun _ => False) (DiskManager.writePage f p data)
        (fun _ d' => d' = t.diskMgr.store f fh p data) t.diskMgr :=
      (DiskManager.wp_writePage_store hf).mpr rfl
    obtain ⟨_, d', hrun, rfl⟩ := wp_total.mp hwp
    rw [hrun]
    refine ⟨fun g => (DiskManager.path_store hf g).trans (ht.paths g), ?_, ht.cached⟩
    rw [← ht.next]
    simp only [DiskManager.store]
    split <;> rfl

theorem allocateNewPage (f : ℤ) :
    Preserves (Stays s) (onDisk (DiskManager.allocateNewPage f)) := by
  refine Preserves.zoom fun t ht => ?_
  cases hf : t.diskMgr.files.find? f with
  | none =>
    have hrun : (DiskManager.allocateNewPage f).run t.diskMgr =
        (.error DiskManager.invalidFile, t.diskMgr) := run_bind_error (DiskManager.run_handle_none hf)
    rw [hrun]
    exact ht
  | some fh =>
    have hhandle : (DiskManager.handle f).run t.diskMgr = (.ok fh, t.diskMgr) := by
      unfold DiskManager.handle
      rw [run_get_bind, hf]
      rfl
    unfold DiskManager.allocateNewPage
    rw [run_bind_ok hhandle]
    split
    case isTrue =>
      refine ⟨fun g => Eq.trans ?_ (ht.paths g), ht.next, ht.cached⟩
      show ((t.diskMgr.files.insert f { fh with pageCount := fh.pageCount + 1 }).find? g).map _ = _
      rw [Dict.find?_insert]
      split
      case isTrue heq => rw [DiskManager.path, heq, hf]; rfl
      case isFalse => rfl
    case isFalse => exact ht

/-- A read leaves the disk, and what was read is a page of an open file. -/
theorem readPage (f : ℤ) (p : ℕ) (t : Storage) :
    ((onDisk (DiskManager.readPage f p)).run t).2 = t ∧
      ∀ data, ((onDisk (DiskManager.readPage f p)).run t).1 = .ok data →
        (t.diskMgr.path f).isSome := by
  have hrun : (onDisk (DiskManager.readPage f p)).run t =
      (((DiskManager.readPage f p).run t.diskMgr).1,
        { t with diskMgr := ((DiskManager.readPage f p).run t.diskMgr).2 }) := rfl
  cases hf : t.diskMgr.files.find? f with
  | none =>
    have hread : (DiskManager.readPage f p).run t.diskMgr =
        (.error DiskManager.invalidFile, t.diskMgr) := run_bind_error (DiskManager.run_handle_none hf)
    rw [hrun, hread]
    exact ⟨rfl, fun data hdata => by cases hdata⟩
  | some fh =>
    have hwp : wp (fun _ => False) (DiskManager.readPage f p)
        (fun _ d' => d' = t.diskMgr) t.diskMgr := (DiskManager.wp_readPage hf).mpr rfl
    obtain ⟨data', d', hread, rfl⟩ := wp_total.mp hwp
    rw [hrun, hread, DiskManager.path, hf]
    exact ⟨rfl, fun _ _ => rfl⟩

theorem evict (frame : PageFrame) : Preserves (Stays s) (evict frame) := by
  refine Preserves.ite (Preserves.bind (onPool ?_) fun _ => ?_) (Preserves.pure _)
  · exact fun pool key j hj => Dict.find?_of_find?_erase hj
  · exact Preserves.ite (writePage _ _ _) (Preserves.pure _)

theorem findVictimFrame : Preserves (Stays s) findVictimFrame := by
  refine Preserves.get.bind fun _ => ?_
  simp only
  split
  · exact Preserves.bind (onPool fun _ _ _ hj => hj) fun _ => Preserves.pure _
  · split
    · exact Preserves.throw _
    · exact Preserves.bind (onPool fun _ _ _ hj => hj) fun _ => Preserves.pure _

theorem fetchPage (f : ℤ) (p : ℕ) (w : Bool) : Preserves (Stays s) (fetchPage f p w) := by
  refine Preserves.get.bind fun s₀ => ?_
  simp only
  split
  case h_1 i _ =>
    refine Preserves.bind (onPool fun _ _ _ hj => hj) fun _ => ?_
    refine Preserves.bind (onPool fun _ _ _ hj => hj) fun _ => ?_
    refine Preserves.bind (onPool fun pool key j hj => ?_) fun _ => Preserves.pure _
    rwa [removeLru_pageTable] at hj
  case h_2 =>
    refine Preserves.bind (onPool fun _ _ _ hj => hj) fun _ => ?_
    refine findVictimFrame.bind fun i => (evict _).bind fun _ => ?_
    -- The page table gets its new entry only after the page was read.
    refine Preserves.bind_of_ok (fun t ht => ?_) fun {data t t'} _ hread ht' => ?_
    · rw [(readPage f p t).1]
      exact ht
    · obtain ⟨hsame, hopen⟩ := readPage f p t
      rw [hread] at hsame hopen
      obtain rfl : t' = t := hsame
      refine ⟨ht'.paths, ht'.next, fun {key j} hj => ?_⟩
      have hj' : (t'.bufferPool.pageTable.insert (makePageKey f p) i).find? key = some j := hj
      rcases Dict.eq_or_find?_of_find?_insert hj' with ⟨rfl, -⟩ | hj'
      · rw [← ht'.paths]
        exact Or.inr (hopen data rfl)
      · exact ht'.cached hj'

theorem flushFrame (i : ℕ) : Preserves (Stays s) (flushFrame i) := by
  refine Preserves.get.bind fun _ => Preserves.ite ?_ (Preserves.pure _)
  exact (writePage _ _ _).bind fun _ => onPool fun _ _ _ hj => hj

/-- The calls of the pool. -/
theorem exec (c : PoolCall) : Preserves (Stays s) c.exec := by
  cases c with
  | fetchPage f p w => exact (fetchPage f p w).bind fun _ => Preserves.pure _
  | unpinPage f p isDirty =>
    refine Preserves.get.bind fun _ => ?_
    simp only
    split
    · exact Preserves.pure _
    · refine Preserves.ite (Preserves.pure _) (Preserves.bind (onPool fun _ _ _ hj => hj) fun _ => ?_)
      exact Preserves.ite (onPool fun _ _ _ hj => hj) (Preserves.pure _)
  | flushPage f p =>
    refine Preserves.get.bind fun _ => ?_
    simp only
    split
    · exact Preserves.pure _
    · refine Preserves.ite ((writePage _ _ _).bind fun _ => ?_) (Preserves.pure _)
      exact onPool fun _ _ _ hj => hj
  | flushAllPages => exact Preserves.get.bind fun _ => Preserves.foldlM (fun _ _ => flushFrame _) _ _
  | write i data => exact onPool fun _ _ _ hj => hj

end Stays

/-- The files after a call: those that were open, but for one that the call has closed and one that
it has brought into use under the next id; nothing new is cached but pages of open files. -/
structure StorageCall.Leaves (c : StorageCall) (s s' : Storage) : Prop where
  next : s.diskMgr.nextFileId ≤ s'.diskMgr.nextFileId
  brought : ∀ {q}, c.brings s.diskMgr = some q → s.diskMgr.nextFileId < s'.diskMgr.nextFileId ∧
    s'.diskMgr.path s.diskMgr.nextFileId = some q
  kept : ∀ {q}, c.brings s.diskMgr = some q → ∀ {g}, g ≠ s.diskMgr.nextFileId →
    s'.diskMgr.path g = s.diskMgr.path g
  paths : ∀ {g q}, s'.diskMgr.path g = some q → s.diskMgr.path g = some q ∨
    g = s.diskMgr.nextFileId ∧ c.brings s.diskMgr = some q
  cached : ∀ {key j}, s'.bufferPool.pageTable.find? key = some j →
    (∃ i, s.bufferPool.pageTable.find? key = some i) ∨ (s.diskMgr.path key.1).isSome

namespace StorageCall

variable {s : Storage}

theorem Leaves.of_stays {c : StorageCall} {s' : Storage} (h : Stays s s')
    (hc : c.brings s.diskMgr = none) : c.Leaves s s' where
  next := Int.le_of_eq h.next.symm
  brought hq := by rw [hc] at hq; cases hq
  kept hq := by rw [hc] at hq; cases hq
  paths hg := Or.inl ((h.paths _).symm.trans hg)
  cached := h.cached

/-- A file brought into use under the next id. -/
theorem Leaves.of_brought {c : StorageCall} {path : Str} {n : ℕ} {d : DiskManager}
    (hfiles : d.files = s.diskMgr.files.insert s.diskMgr.nextFileId ⟨path, n⟩)
    (hnext : d.nextFileId = s.diskMgr.nextFileId + 1) (hc : c.brings s.diskMgr = some path) :
    c.Leaves s { s with diskMgr := d } := by
  have hpath : ∀ g, d.path g = if g = s.diskMgr.nextFileId then some path else s.diskMgr.path g := by
    intro g
    rw [DiskManager.path, hfiles, Dict.find?_insert]
    split <;> rfl
  refine ⟨?_, fun {q} hq => ⟨?_, ?_⟩, fun _ _ hg => (hpath _).trans (if_neg hg), fun {g q} hg => ?_,
    fun hj => Or.inl ⟨_, hj⟩⟩
  · show _ ≤ d.nextFileId
    omega
  · show _ < d.nextFileId
    omega
  · exact (hpath _).trans ((if_pos rfl).trans (hc.symm.trans hq))
  · have hg' : d.path g = some q := hg
    rw [hpath] at hg'
    split at hg'
    case isTrue heq => exact Or.inr ⟨heq, hc.trans hg'⟩
    case isFalse => exact Or.inl hg'

theorem leaves (c : StorageCall) (s : Storage) : c.Leaves s (c.exec.run s).2 := by
  cases c with
  | createFile fileName => exact Leaves.of_brought rfl rfl rfl
  | openFile fileName =>
    have hrun : ((openFile fileName).exec.run s).2 = { s with
        diskMgr := ((DiskManager.openFile fileName).run s.diskMgr).2 } :=
      state_discard (onDisk (DiskManager.openFile fileName))
    rw [hrun]
    unfold DiskManager.openFile
    rw [run_get_bind]
    cases hdisk : s.diskMgr.disk (DiskManager.fullPath fileName) with
    | none =>
      refine Leaves.of_stays (Stays.refl s) ?_
      simp [brings, hdisk]
    | some file =>
      refine Leaves.of_brought (n := file.size % 2 ^ 32 / PAGE_SIZE) rfl rfl ?_
      simp [brings, hdisk]
  | closeFile fileId =>
    -- The pages of a closed file stay cached: `closeFile` erases the handle only.
    refine ⟨Int.le_refl _, fun hq => (nomatch hq), fun hq => (nomatch hq),
      fun {g q} hg => Or.inl ?_, fun hj => Or.inl ⟨_, hj⟩⟩
    have hg' : ((s.diskMgr.files.erase fileId).find? g).map FileHandle.fileName = some q := hg
    obtain ⟨handle, hhandle, rfl⟩ := Option.map_eq_some_iff.mp hg'
    rw [DiskManager.path, Dict.find?_of_find?_erase hhandle]
    rfl
  | allocateNewPage fileId =>
    have hrun : ((allocateNewPage fileId).exec.run s).2 =
        ((onDisk (DiskManager.allocateNewPage fileId)).run s).2 :=
      state_discard (onDisk (DiskManager.allocateNewPage fileId))
    rw [hrun]
    exact Leaves.of_stays (Stays.allocateNewPage fileId s (Stays.refl s)) rfl
  | pool call => exact Leaves.of_stays (Stays.exec call s (Stays.refl s)) rfl

end StorageCall

/-! ## Runs -/

/-- The storage, and beside it the path that each file id was given. -/
structure FileRun where
  storage : Storage
  opened : ℤ → Option Str

namespace FileRun

/-- A disk manager over the files that are there, with a new pool. -/
def new (disk : Str → Option File) (poolSize : ℕ) : FileRun :=
  ⟨⟨.new disk, .new poolSize⟩, fun _ => none⟩

/-- One call, whether it returns or throws. -/
def call (r : FileRun) (c : StorageCall) : FileRun where
  storage := (c.exec.run r.storage).2
  opened := fun f => ((c.exec.run r.storage).2.diskMgr.path f).or (r.opened f)

/-- A sequence of calls. -/
def run (disk : Str → Option File) (poolSize : ℕ) (calls : List StorageCall) : FileRun :=
  calls.foldl call (new disk poolSize)

/-- The call brings a path into use that is open already. -/
def Aliased (r : FileRun) (c : StorageCall) : Prop :=
  ∃ f q, r.storage.diskMgr.path f = some q ∧ c.brings r.storage.diskMgr = some q

/-- The call brings a path into use while the pool has a page of the file. -/
def Stale (r : FileRun) (c : StorageCall) : Prop :=
  ∃ key i q, r.storage.bufferPool.pageTable.find? key = some i ∧ r.opened key.1 = some q ∧
    c.brings r.storage.diskMgr = some q

/-- No two ids of open files have the same path. -/
def Apart (r : FileRun) : Prop := ∀ f g q, r.storage.diskMgr.path f = some q →
  r.storage.diskMgr.path g = some q → f = g

/-- The pool has one frame at most for each page of the disk. -/
def OneFrame (r : FileRun) : Prop := ∀ key key' i j q,
  r.storage.bufferPool.pageTable.find? key = some i →
  r.storage.bufferPool.pageTable.find? key' = some j →
  r.opened key.1 = some q → r.opened key'.1 = some q → key.2 = key'.2 → i = j

/-- A page is the same through every id of its file. -/
def Seen (r : FileRun) : Prop := ∀ f g q p, r.storage.diskMgr.path f = some q →
  r.storage.diskMgr.path g = some q → r.storage.page (f, p) = r.storage.page (g, p)

/-- The file ids are those that were handed out, and each has the path it was given. -/
structure Known (r : FileRun) : Prop where
  fresh : ∀ {f q}, r.opened f = some q → f < r.storage.diskMgr.nextFileId
  named : ∀ {f q}, r.storage.diskMgr.path f = some q → r.opened f = some q
  cached : ∀ {key i}, r.storage.bufferPool.pageTable.find? key = some i →
    ∃ q, r.opened key.1 = some q

/-- The file is open, or the pool has a page of it. -/
def InUse (r : FileRun) (f : ℤ) : Prop :=
  (∃ q, r.storage.diskMgr.path f = some q) ∨
    ∃ p i, r.storage.bufferPool.pageTable.find? (f, p) = some i

/-- No two files in use have the same path. -/
def Sole (r : FileRun) : Prop := ∀ f g q, r.InUse f → r.InUse g → r.opened f = some q →
  r.opened g = some q → f = g

variable {r : FileRun} {c : StorageCall} {disk : Str → Option File} {poolSize : ℕ}

theorem known_new : Known (new disk poolSize) where
  fresh h := by cases h
  named h := by cases h
  cached h := by cases h

/-- The path of an id is the one it had, or the one the call has brought into use. -/
theorem Known.opened_call (h : Known r) {f : ℤ} {q : Str} (hf : (r.call c).opened f = some q) :
    r.opened f = some q ∨
      f = r.storage.diskMgr.nextFileId ∧ c.brings r.storage.diskMgr = some q := by
  rcases Option.or_eq_some_iff.mp hf with hpath | ⟨-, hold⟩
  · exact ((c.leaves r.storage).paths hpath).imp_left h.named
  · exact Or.inl hold

theorem Known.call (h : Known r) (c : StorageCall) : Known (r.call c) where
  fresh := by
    intro f q hf
    have hleaves := c.leaves r.storage
    show f < (c.exec.run r.storage).2.diskMgr.nextFileId
    rcases h.opened_call hf with hold | ⟨rfl, hq⟩
    · have hlt := h.fresh hold
      have hle := hleaves.next
      omega
    · exact (hleaves.brought hq).1
  named := by
    intro f q hf
    exact Option.or_eq_some_iff.mpr (Or.inl hf)
  cached := by
    intro key i hk
    have hnamed : ∃ q, r.opened key.1 = some q := by
      rcases (c.leaves r.storage).cached hk with ⟨j, hj⟩ | hlive
      · exact h.cached hj
      · obtain ⟨q, hq⟩ := Option.isSome_iff_exists.mp hlive
        exact ⟨q, h.named hq⟩
    obtain ⟨q, hq⟩ := hnamed
    show ∃ q, (_ : Option Str).or _ = some q
    rw [hq]
    cases (c.exec.run r.storage).2.diskMgr.path key.1 with
    | none => exact ⟨q, rfl⟩
    | some q' => exact ⟨q', rfl⟩

/-- A file that was handed out before the call and is in use after it was in use before it. -/
theorem Known.inUse_of_call (h : Known r) {f : ℤ} {q : Str} (hf : (r.call c).InUse f)
    (hold : r.opened f = some q) : r.InUse f := by
  rcases hf with ⟨q', hpath⟩ | ⟨p, i, hk⟩
  · rcases (c.leaves r.storage).paths hpath with hpath | ⟨rfl, -⟩
    · exact Or.inl ⟨q', hpath⟩
    · exact absurd (h.fresh hold) (Int.lt_irrefl _)
  · rcases (c.leaves r.storage).cached hk with ⟨j, hj⟩ | hlive
    · exact Or.inr ⟨p, j, hj⟩
    · exact Or.inl (Option.isSome_iff_exists.mp hlive)

/-- A file in use with the path that the call brings makes the call aliased or stale. -/
theorem Known.aliased_or_stale (h : Known r) {f : ℤ} {q : Str} (hf : r.InUse f)
    (hold : r.opened f = some q) (hq : c.brings r.storage.diskMgr = some q) :
    Aliased r c ∨ Stale r c := by
  rcases hf with ⟨q', hpath⟩ | ⟨p, i, hk⟩
  · obtain rfl : q' = q := Option.some.inj ((h.named hpath).symm.trans hold)
    exact Or.inl ⟨f, q', hpath, hq⟩
  · exact Or.inr ⟨(f, p), i, q, hk, hold, hq⟩

theorem Sole.call (hs : Sole r) (h : Known r) (hc : ¬ Aliased r c) (hc' : ¬ Stale r c) :
    Sole (r.call c) := by
  intro f g q hf hg hfq hgq
  rcases h.opened_call hfq with hf₀ | ⟨rfl, hq⟩ <;> rcases h.opened_call hgq with hg₀ | ⟨rfl, hq'⟩
  · exact hs f g q (h.inUse_of_call hf hf₀) (h.inUse_of_call hg hg₀) hf₀ hg₀
  · rcases h.aliased_or_stale (h.inUse_of_call hf hf₀) hf₀ hq' with hbad | hbad
    · exact absurd hbad hc
    · exact absurd hbad hc'
  · rcases h.aliased_or_stale (h.inUse_of_call hg hg₀) hg₀ hq with hbad | hbad
    · exact absurd hbad hc
    · exact absurd hbad hc'
  · rfl

theorem Sole.oneFrame (hs : Sole r) : OneFrame r := by
  rintro ⟨f, p⟩ ⟨g, p'⟩ i j q hk hk' hf hg hp
  obtain rfl : p = p' := hp
  obtain rfl : f = g := hs f g q (Or.inr ⟨p, i, hk⟩) (Or.inr ⟨p, j, hk'⟩) hf hg
  exact Option.some.inj (hk.symm.trans hk')

theorem Apart.seen (h : Apart r) : Seen r := by
  intro f g q p hf hg
  rw [h f g q hf hg]

/-- A call keeps the paths apart exactly when it brings no path into use that is open. -/
theorem Apart.call (ha : Apart r) (hc : ¬ Aliased r c) : Apart (r.call c) := by
  intro f g q hf hg
  rcases (c.leaves r.storage).paths hf with hf₀ | ⟨rfl, hq⟩ <;>
    rcases (c.leaves r.storage).paths hg with hg₀ | ⟨rfl, hq'⟩
  · exact ha f g q hf₀ hg₀
  · exact absurd ⟨f, q, hf₀, hq'⟩ hc
  · exact absurd ⟨g, q, hg₀, hq⟩ hc
  · rfl

theorem not_apart_of_aliased (h : Known r) (hc : Aliased r c) : ¬ Apart (r.call c) := by
  obtain ⟨f, q, hf, hq⟩ := hc
  have hlt := h.fresh (h.named hf)
  have hne : f ≠ r.storage.diskMgr.nextFileId := Int.ne_of_lt hlt
  intro ha
  refine hne (ha f _ q ?_ ((c.leaves r.storage).brought hq).2)
  exact ((c.leaves r.storage).kept hq hne).trans hf

theorem run_snoc (calls : List StorageCall) (c : StorageCall) :
    run disk poolSize (calls ++ [c]) = (run disk poolSize calls).call c := by
  simp [run, List.foldl_append]

/-- What every call of a run keeps when the calls meet a condition holds after every part of it. -/
theorem run_induction {P : FileRun → Prop} {C : FileRun → StorageCall → Prop} {calls : List StorageCall}
    (hnew : P (new disk poolSize))
    (hcall : ∀ {r c}, Known r → P r → C r c → P (r.call c))
    (hcalls : ∀ before c after, calls = before ++ c :: after → C (run disk poolSize before) c)
    (before after : List StorageCall) (hsplit : calls = before ++ after) :
    Known (run disk poolSize before) ∧ P (run disk poolSize before) := by
  induction before using List.reverseRecOn generalizing after with
  | nil => exact ⟨known_new, hnew⟩
  | append_singleton before c ih =>
    rw [List.append_assoc, List.singleton_append] at hsplit
    obtain ⟨hknown, hP⟩ := ih (c :: after) hsplit
    rw [run_snoc]
    exact ⟨hknown.call c, hcall hknown hP (hcalls before c after hsplit)⟩

/-- In every run of the disk manager and the pool: the ids of open files have different paths after
every call, and a page is the same through every id of its file, exactly when no call brings a path
into use that is open. When no call does so while the pool has a page of the file either, no page of
the disk ever has two frames. -/
theorem run_apart_iff (disk : Str → Option File) (poolSize : ℕ) (calls : List StorageCall) :
    ((∀ before after, calls = before ++ after →
        Apart (run disk poolSize before) ∧ Seen (run disk poolSize before)) ↔
      ∀ before c after, calls = before ++ c :: after → ¬ Aliased (run disk poolSize before) c) ∧
    ((∀ before c after, calls = before ++ c :: after →
        ¬ Aliased (run disk poolSize before) c ∧ ¬ Stale (run disk poolSize before) c) →
      ∀ before after, calls = before ++ after → OneFrame (run disk poolSize before)) := by
  have hknown : ∀ before, Known (run disk poolSize before) := fun before =>
    (run_induction (P := fun _ => True) (C := fun _ _ => True) trivial (fun _ _ _ => trivial)
      (fun _ _ _ _ => trivial) before [] rfl).1
  refine ⟨⟨fun hapart before c after hsplit halias => ?_, fun hcalls before after hsplit => ?_⟩,
    fun hcalls before after hsplit => ?_⟩
  · -- Right after an aliased call two ids have the path.
    have hbefore : calls = (before ++ [c]) ++ after := by rw [hsplit]; simp
    obtain ⟨hap, -⟩ := hapart (before ++ [c]) after hbefore
    rw [run_snoc] at hap
    exact not_apart_of_aliased (hknown before) halias hap
  · have hap : Apart (run disk poolSize before) :=
      (run_induction (P := Apart) (C := fun r c => ¬ Aliased r c)
        (fun _ _ _ h => by cases h) (fun _ ha hc => ha.call hc) hcalls before after hsplit).2
    exact ⟨hap, hap.seen⟩
  · have hsole : Sole (run disk poolSize before) :=
      (run_induction (P := Sole) (C := fun r c => ¬ Aliased r c ∧ ¬ Stale r c)
        (fun _ _ _ _ _ h => by cases h) (fun hk hs hc => hs.call hk hc.1 hc.2) hcalls before after
        hsplit).2
    exact hsole.oneFrame

/-- A file created and opened again: a byte written through the first id is not there through the
second one. -/
theorem run_loses_update :
    let r := run (fun _ => none) 2 [.createFile (lit "t.db"), .allocateNewPage 1,
      .pool (.fetchPage 1 0 true), .pool (.write 0 fun _ => 7), .pool (.unpinPage 1 0 true),
      .openFile (lit "t.db"), .pool (.fetchPage 2 0 false)]
    ¬ Apart r ∧ ¬ OneFrame r ∧ ¬ Seen r := by
  intro r
  have hpath : r.storage.diskMgr.path 1 = some (DiskManager.fullPath (lit "t.db")) ∧
      r.storage.diskMgr.path 2 = some (DiskManager.fullPath (lit "t.db")) := by decide +kernel
  have hopened : r.opened 1 = some (DiskManager.fullPath (lit "t.db")) ∧
      r.opened 2 = some (DiskManager.fullPath (lit "t.db")) := by decide +kernel
  have htable : r.storage.bufferPool.pageTable.find? (1, 0) = some 0 ∧
      r.storage.bufferPool.pageTable.find? (2, 0) = some 1 := by decide +kernel
  have hpages : (r.storage.page (1, 0)).byte 0 = 7 ∧ (r.storage.page (2, 0)).byte 0 = 0 := by
    decide +kernel
  refine ⟨fun ha => ?_, fun ho => ?_, fun hs => ?_⟩
  · exact absurd (ha 1 2 _ hpath.1 hpath.2) (by decide)
  · exact absurd (ho (1, 0) (2, 0) 0 1 _ htable.1 htable.2 hopened.1 hopened.2 rfl) (by decide)
  · have hsame := hs 1 2 _ 0 hpath.1 hpath.2
    rw [hsame] at hpages
    exact absurd (hpages.1.symm.trans hpages.2) (by decide)

end FileRun

end MiniDB
