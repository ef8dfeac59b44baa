import MiniDB.Storage.Frames

/-!
# The storage as files of pages

Through the buffer pool an open file is a list of pages. A page is what its frame holds when it is
cached and what the disk holds otherwise; a clean frame agrees with the disk, so neither an eviction
nor a write-back changes any page. File ids that are no longer in use may still have clean frames.

## Main definitions

* `TableFile`, `Files`: the files as a client sees them
* `Holds F pin out s`: the storage holds the files `F`, with the frame `pin` pinned once and the
  frame `out` on its way

## Main results

* `Holds.fetchPage`, `Holds.setPageData`, `Holds.unpinPage`: the three steps of a page access
* `Holds.put`: a write-back changes no page
-/

namespace MiniDB

open Program

namespace File

variable (file : File) (buffer : Page)

@[simp] theorem readAt_writeAt_self (offset : ℕ) :
    (file.writeAt offset buffer).readAt offset = buffer := by
  funext i
  have hi : i.val < PAGE_SIZE := i.isLt
  have hsize : offset + i.val < max file.size (offset + PAGE_SIZE) := by omega
  have hin : offset ≤ offset + i.val ∧ offset + i.val < offset + PAGE_SIZE := by omega
  simp only [readAt, writeAt, if_pos hsize, if_pos hin, Nat.add_sub_cancel_left]
  simp [Block.byte]

/-- Pages at different numbers do not overlap. -/
theorem readAt_writeAt_of_ne {p q : ℕ} (h : p ≠ q) :
    (file.writeAt (q * PAGE_SIZE) buffer).readAt (p * PAGE_SIZE) =
      file.readAt (p * PAGE_SIZE) := by
  funext i
  have hi : i.val < PAGE_SIZE := i.isLt
  have hout : ¬ (q * PAGE_SIZE ≤ p * PAGE_SIZE + i.val ∧
      p * PAGE_SIZE + i.val < q * PAGE_SIZE + PAGE_SIZE) := by
    simp only [PAGE_SIZE] at *
    omega
  simp only [readAt, writeAt, if_neg hout]
  by_cases hs : p * PAGE_SIZE + i.val < file.size
  · rw [if_pos hs, if_pos (by omega)]
  · rw [if_neg hs]
    split <;> rfl

theorem size_writeAt_of_le {p : ℕ} (h : p * PAGE_SIZE + PAGE_SIZE ≤ file.size) :
    (file.writeAt (p * PAGE_SIZE) buffer).size = file.size := by
  simp only [writeAt]
  omega

theorem readAt_of_size_le {offset : ℕ} (h : file.size ≤ offset) : file.readAt offset = Block.zero := by
  funext i
  exact if_neg (by omega)

end File

/-- The page of a key as it is on the disk. -/
def DiskManager.page (d : DiskManager) (key : PageKey) : Page :=
  match d.files.find? key.1 with
  | some h => (d.content h.fileName).readAt (key.2 * PAGE_SIZE)
  | none => Block.zero

/-- A page of a file written on the disk. -/
def DiskManager.put (d : DiskManager) (path : Str) (p : ℕ) (buffer : Page) : DiskManager :=
  d.setContent path ((d.content path).writeAt (p * PAGE_SIZE) buffer)

namespace DiskManager

variable (d : DiskManager) (path : Str) (p : ℕ) (buffer : Page)

@[simp] theorem put_files : (d.put path p buffer).files = d.files := rfl

@[simp] theorem put_nextFileId : (d.put path p buffer).nextFileId = d.nextFileId := rfl

theorem content_setContent (file : File) (path' : Str) :
    (d.setContent path file).content path' = if path' = path then file else d.content path' := by
  simp only [content, setContent, Function.update_apply]
  split <;> rfl

theorem isSome_disk_put {path' : Str} (h : (d.disk path').isSome) :
    ((d.put path p buffer).disk path').isSome := by
  simp only [put, setContent, Function.update_apply]
  split
  · rfl
  · exact h

theorem page_put_self {f : ℤ} {n : ℕ} (h : d.files.find? f = some ⟨path, n⟩) :
    (d.put path p buffer).page (f, p) = buffer := by
  simp only [page, put_files, h]
  rw [put, content_setContent, if_pos rfl, File.readAt_writeAt_self]

theorem page_put_of_ne {f : ℤ} {h : FileHandle} {q : ℕ} (hf : d.files.find? f = some h)
    (hne : h.fileName = path → q ≠ p) : (d.put path p buffer).page (f, q) = d.page (f, q) := by
  simp only [page, put_files, hf]
  rw [put, content_setContent]
  split
  case isTrue hpath => rw [File.readAt_writeAt_of_ne _ _ (hne hpath), hpath]
  case isFalse => rfl

theorem content_put_size {path' : Str} (h : p * PAGE_SIZE + PAGE_SIZE ≤ (d.content path).size) :
    ((d.put path p buffer).content path').size = (d.content path').size := by
  rw [put, content_setContent]
  split
  case isTrue hpath => rw [File.size_writeAt_of_le _ _ h, hpath]
  case isFalse => rfl

variable {d path p buffer} {G : Fault → Prop} {f : ℤ}

theorem wp_handle {h : FileHandle} {Q : FileHandle → DiskManager → Prop}
    (hf : d.files.find? f = some h) : wp G (handle f) Q d ↔ Q h d := by
  simp only [handle, wp_bind, wp_get, hf, wp_pure]

/-- `writePage` inside the file. -/
theorem wp_writePage {n : ℕ} {Q : Unit → DiskManager → Prop}
    (h : d.files.find? f = some ⟨path, n⟩) (hp : p < n) :
    wp G (writePage f p buffer) Q d ↔ Q () (d.put path p buffer) := by
  simp only [writePage, wp_bind, wp_handle h, wp_modify]
  rw [if_neg (by omega)]
  exact Iff.rfl

theorem wp_readPage {h : FileHandle} {Q : Page → DiskManager → Prop}
    (hf : d.files.find? f = some h) : wp G (readPage f p) Q d ↔ Q (d.page (f, p)) d := by
  simp only [readPage, wp_bind, wp_handle hf, wp_get, wp_pure, page, hf]

end DiskManager

/-- A file as a client of the pool sees it. -/
structure TableFile where
  path : Str
  pages : List Page

/-- The files in use, by their ids. -/
abbrev Files := ℤ → Option TableFile

namespace Storage

open BufferPool

/-- The page of a key: from its frame when it is cached, from the disk otherwise. -/
def page (s : Storage) (key : PageKey) : Page :=
  match s.bufferPool.pageTable.find? key with
  | some i => (s.bufferPool.frames i).data
  | none => s.diskMgr.page key

/-- A file that the disk manager has open with all its pages. -/
structure Opened (d : DiskManager) (f : ℤ) (t : TableFile) : Prop where
  handle : d.files.find? f = some ⟨t.path, t.pages.length⟩
  onDisk : (d.disk t.path).isSome
  size : (d.content t.path).size = t.pages.length * PAGE_SIZE
  small : t.pages.length ≤ INVALID_PAGE_ID
  nonneg : 0 ≤ f

/-- The storage holds the files `F`; the frame `pin` is pinned once and the frame `out` is on its
way to another page. -/
structure Holds (F : Files) (pin out : Option ℕ) (s : Storage) : Prop where
  tracks : s.bufferPool.Tracks out
  pins : ∀ {key i}, s.bufferPool.pageTable.find? key = some i →
    (s.bufferPool.frames i).pinCount = if pin = some i then 1 else 0
  opened : ∀ {f t}, F f = some t → Opened s.diskMgr f t
  apart : ∀ {f g t u}, F f = some t → F g = some u → t.path = u.path → f = g
  pages : ∀ {f t p d}, F f = some t → t.pages[p]? = some d → s.page (f, p) = d
  cached : ∀ {key i}, s.bufferPool.pageTable.find? key = some i →
    (∃ t, F key.1 = some t ∧ key.2 < t.pages.length ∧
      ((s.bufferPool.frames i).isDirty = false →
        (s.bufferPool.frames i).data = s.diskMgr.page key)) ∨
    (F key.1 = none ∧ (s.bufferPool.frames i).isDirty = false)
  known : ∀ {key i}, s.bufferPool.pageTable.find? key = some i → key.1 < s.diskMgr.nextFileId
  fresh : ∀ {f}, s.diskMgr.nextFileId ≤ f → s.diskMgr.files.find? f = none
  pos : 0 < s.diskMgr.nextFileId
  room : 0 < s.bufferPool.poolSize

/-- The frame `i` holds the page `p` of the file `f`, with the bytes `d`. -/
structure Fetched (f : ℤ) (p i : ℕ) (d : Page) (forWrite : Bool) (s : Storage) : Prop where
  table : s.bufferPool.pageTable.find? (f, p) = some i
  data : (s.bufferPool.frames i).data = d
  dirty : forWrite = true → (s.bufferPool.frames i).isDirty = true

variable {F : Files} {pin out : Option ℕ} {s : Storage} {f : ℤ} {t : TableFile} {p i : ℕ} {d : Page}

theorem page_of_cached {key : PageKey} (h : s.bufferPool.pageTable.find? key = some i) :
    s.page key = (s.bufferPool.frames i).data := by
  simp only [page, h]

theorem page_of_not_cached {key : PageKey} (h : s.bufferPool.pageTable.find? key = none) :
    s.page key = s.diskMgr.page key := by
  simp only [page, h]

/-- The rest of a fetch from an open file. -/
theorem wp_load {G : Fault → Prop} {Q : ℕ → Storage → Prop} {fh : FileHandle} {forWrite : Bool}
    (hfh : s.diskMgr.files.find? f = some fh) :
    wp G (load f p forWrite i) Q s ↔ Q i { s with bufferPool :=
      { s.bufferPool.setFrame i ⟨s.diskMgr.page (f, p), p, f, p, forWrite, 1⟩ with
        pageTable := s.bufferPool.pageTable.insert (f, p) i } } := by
  simp only [load, wp_bind, onDisk, wp_zoom, DiskManager.wp_readPage hfh, onPool, wp_modify, wp_pure]
  exact Iff.rfl

/-- `unpinPage` does not fault. -/
theorem unpinPage_total (f : ℤ) (p : ℕ) (isDirty : Bool) :
    wp (fun _ => False) (unpinPage f p isDirty) (fun _ _ => True) s := by
  simp only [unpinPage, wp_bind, wp_get]
  split
  · exact trivial
  · split
    · exact trivial
    · simp only [onPool, wp_bind, wp_modify]
      split <;> exact trivial

namespace Holds

theorem none_of_fresh (h : Holds F pin out s) (hf : s.diskMgr.nextFileId ≤ f) : F f = none := by
  cases hF : F f with
  | none => rfl
  | some t => exact absurd (h.opened hF).handle (by rw [h.fresh hf]; simp)

theorem lt_next (h : Holds F pin out s) (hF : F f = some t) : f < s.diskMgr.nextFileId := by
  by_contra hge
  rw [h.none_of_fresh (Int.not_lt.mp hge)] at hF
  cases hF

/-- The pages a client may ask for. -/
theorem page_lt (hp : t.pages[p]? = some d) : p < t.pages.length :=
  (List.getElem?_eq_some_iff.mp hp).1

theorem page_ne_invalid (h : Holds F pin out s) (hF : F f = some t) (hp : t.pages[p]? = some d) :
    p ≠ INVALID_PAGE_ID := by
  have := (h.opened hF).small
  have := page_lt hp
  omega

theorem carries (h : Holds F pin out s) (hF : F f = some t) (hp : t.pages[p]? = some d)
    (data : Page) (dirty : Bool) (n : ℕ) : Carries ⟨data, p, f, p, dirty, n⟩ (f, p) :=
  ⟨rfl, rfl, rfl, (h.opened hF).nonneg, h.page_ne_invalid hF hp⟩

/-- A cached page of a file in use is one of its pages. -/
theorem lt_of_cached (h : Holds F pin out s) {key : PageKey}
    (hk : s.bufferPool.pageTable.find? key = some i) (hF : F key.1 = some t) :
    key.2 < t.pages.length := by
  rcases h.cached hk with ⟨t', hF', hlt, -⟩ | ⟨hnone, -⟩
  · rw [hF] at hF'
    rwa [Option.some.inj hF']
  · rw [hF] at hnone
    cases hnone

/-- A change of the pool that leaves the page table and the bytes alone, and makes frames dirty only
where the file is in use. -/
theorem reframe (h : Holds F pin out s) {pool : BufferPool} {pin' out' : Option ℕ}
    (htracks : pool.Tracks out') (hsize : pool.poolSize = s.bufferPool.poolSize)
    (htable : pool.pageTable = s.bufferPool.pageTable)
    (hpins : ∀ {key j}, s.bufferPool.pageTable.find? key = some j →
      (pool.frames j).pinCount = if pin' = some j then 1 else 0)
    (hframe : ∀ {key j}, s.bufferPool.pageTable.find? key = some j →
      (pool.frames j).data = (s.bufferPool.frames j).data ∧
      ((pool.frames j).isDirty = (s.bufferPool.frames j).isDirty ∨
        (pool.frames j).isDirty = true ∧ F key.1 ≠ none)) :
    Holds F pin' out' { s with bufferPool := pool } where
  tracks := htracks
  pins hk := hpins (htable ▸ hk)
  opened := h.opened
  apart := h.apart
  known hk := h.known (htable ▸ hk)
  fresh := h.fresh
  pos := h.pos
  room := hsize ▸ h.room
  pages := by
    intro f t p d hF hp
    rw [← h.pages hF hp]
    cases hk : s.bufferPool.pageTable.find? (f, p) with
    | none =>
      have hk' : pool.pageTable.find? (f, p) = none := by rw [htable, hk]
      rw [page_of_not_cached hk, page_of_not_cached hk']
    | some j =>
      have hk' : pool.pageTable.find? (f, p) = some j := by rw [htable, hk]
      rw [page_of_cached hk, page_of_cached hk']
      exact (hframe hk).1
  cached := by
    intro key j hk
    have hk' : s.bufferPool.pageTable.find? key = some j := htable ▸ hk
    -- Only a frame of a file in use can become dirty; the others stay clean.
    obtain ⟨hdata, hdirty⟩ := hframe hk'
    rcases h.cached hk' with ⟨t, hF, hlt, hclean⟩ | ⟨hF, hclean⟩
    · refine Or.inl ⟨t, hF, hlt, fun hfalse => ?_⟩
      rcases hdirty with hsame | ⟨htrue, -⟩
      · exact hdata.trans (hclean (hsame ▸ hfalse))
      · exact absurd hfalse (by rw [htrue]; simp)
    · refine Or.inr ⟨hF, ?_⟩
      rcases hdirty with hsame | ⟨-, hne⟩
      · exact hsame.trans hclean
      · exact absurd hF hne

/-- The hit of `fetchPage`. -/
theorem fetch_hit (h : Holds F none none s) (hF : F f = some t)
    (hk : s.bufferPool.pageTable.find? (f, p) = some i) (hp : t.pages[p]? = some d)
    (forWrite : Bool) :
    wp (fun _ => False) (Storage.fetchPage f p forWrite)
      (fun i s' => Holds F (some i) none s' ∧ Fetched f p i d forWrite s') s := by
  have hk' : s.bufferPool.pageTable.find? (makePageKey f p) = some i := hk
  simp only [Storage.fetchPage, wp_bind, wp_get, hk', onPool, wp_modify, wp_pure]
  obtain ⟨-, -, hc⟩ := h.tracks.table hk
  let frame : PageFrame := { s.bufferPool.frames i with
    pinCount := (s.bufferPool.frames i).pinCount + 1
    isDirty := (s.bufferPool.frames i).isDirty || forWrite }
  let pool : BufferPool := { s.bufferPool with cacheHits := s.bufferPool.cacheHits + 1 }
  have hframes : ∀ j, ((pool.setFrame i frame).removeLru i).frames j =
      if j = i then frame else s.bufferPool.frames j := by
    intro j
    rw [removeLru_frames]
    exact Function.update_apply ..
  have hcar : Carries frame (f, p) := ⟨hc.fileId, hc.pageNum, hc.pageId, hc.file, hc.page⟩
  have hpool : pool.Tracks none := h.tracks.cacheHits _
  have htracks : ((pool.setFrame i frame).removeLru i).Tracks none :=
    hpool.pin hk hcar (Nat.succ_ne_zero _)
  have htable : ((pool.setFrame i frame).removeLru i).pageTable = s.bufferPool.pageTable :=
    removeLru_pageTable
  refine ⟨h.reframe htracks removeLru_poolSize htable ?_ ?_, ?_, ?_, ?_⟩
  · intro key j hj
    rw [hframes]
    by_cases hji : j = i
    · have hzero : (s.bufferPool.frames i).pinCount = 0 := by simpa using h.pins hk
      simp [hji, frame, hzero]
    · have hzero : (s.bufferPool.frames j).pinCount = 0 := by simpa using h.pins hj
      rw [if_neg hji, hzero, if_neg (by simpa [eq_comm] using hji)]
  · intro key j hj
    rw [hframes]
    by_cases hji : j = i
    · subst hji
      rw [if_pos rfl]
      refine ⟨rfl, ?_⟩
      have hkey : key = (f, p) := h.tracks.key_eq hj hk
      cases forWrite with
      | false => exact Or.inl (Bool.or_false _)
      | true => exact Or.inr ⟨Bool.or_true _, by rw [hkey, hF]; simp⟩
    · rw [if_neg hji]
      exact ⟨rfl, Or.inl rfl⟩
  · show ((pool.setFrame i frame).removeLru i).pageTable.find? (f, p) = some i
    rw [htable]
    exact hk
  · show (((pool.setFrame i frame).removeLru i).frames i).data = d
    rw [hframes, if_pos rfl, ← h.pages hF hp, page_of_cached hk]
  · intro hw
    show (((pool.setFrame i frame).removeLru i).frames i).isDirty = true
    rw [hframes, if_pos rfl]
    simp [frame, hw]

/-- A page written back from its frame. -/
theorem put (h : Holds F pin out s) {key : PageKey} (hk : s.bufferPool.pageTable.find? key = some i)
    (hF : F key.1 = some t) :
    Holds F pin out { s with
      diskMgr := s.diskMgr.put t.path key.2 (s.bufferPool.frames i).data } := by
  have hlt : key.2 < t.pages.length := h.lt_of_cached hk hF
  have ho : Opened s.diskMgr key.1 t := h.opened hF
  have hin : key.2 * PAGE_SIZE + PAGE_SIZE ≤ (s.diskMgr.content t.path).size := by
    rw [ho.size, ← Nat.succ_mul]
    exact Nat.mul_le_mul_right _ hlt
  have hother : ∀ {g : ℤ} {u : TableFile} {q : ℕ}, F g = some u → (g, q) ≠ key →
      (s.diskMgr.put t.path key.2 (s.bufferPool.frames i).data).page (g, q) =
        s.diskMgr.page (g, q) := by
    intro g u q hg hne
    refine DiskManager.page_put_of_ne _ _ _ _ (h.opened hg).handle fun hpath hq => ?_
    exact hne (Prod.ext (h.apart hg hF hpath) hq)
  exact {
    tracks := h.tracks
    pins := h.pins
    apart := h.apart
    known := h.known
    fresh := h.fresh
    pos := h.pos
    room := h.room
    opened := fun hg =>
      have hog := h.opened hg
      ⟨hog.handle, DiskManager.isSome_disk_put _ _ _ _ hog.onDisk,
        (DiskManager.content_put_size _ _ _ _ hin).trans hog.size, hog.small, hog.nonneg⟩
    pages := by
      intro g u q d hg hq
      rw [← h.pages hg hq]
      cases hkq : s.bufferPool.pageTable.find? (g, q) with
      | some j => simp only [page, hkq]
      | none =>
        simp only [page, hkq]
        refine hother hg fun he => ?_
        rw [he, hk] at hkq
        cases hkq
    cached := by
      intro key' j hj
      rcases h.cached hj with ⟨u, hu, hq, hclean⟩ | hstale
      · refine Or.inl ⟨u, hu, hq, fun hfalse => ?_⟩
        by_cases hkk : key' = key
        · subst hkk
          rw [hF] at hu
          obtain rfl := Option.some.inj hu
          obtain rfl := Option.some.inj (hj.symm.trans hk)
          exact (DiskManager.page_put_self _ _ _ _ ho.handle).symm
        · exact (hclean hfalse).trans (hother hu hkk).symm
      · exact Or.inr hstale }

/-- A frame given up: its page is out of the page table, and the disk has it. -/
theorem drop (h : Holds F none none s) {key : PageKey} {pool : BufferPool}
    (hk : s.bufferPool.pageTable.find? key = some i) (htracks : pool.Tracks (some i))
    (hsize : pool.poolSize = s.bufferPool.poolSize)
    (htable : pool.pageTable = s.bufferPool.pageTable.erase key)
    (hframes : pool.frames = s.bufferPool.frames)
    (hdisk : F key.1 ≠ none → (s.bufferPool.frames i).data = s.diskMgr.page key) :
    Holds F none (some i) { s with bufferPool := pool } := by
  have hfind : ∀ key' j, pool.pageTable.find? key' = some j →
      s.bufferPool.pageTable.find? key' = some j := by
    intro key' j hj
    exact Dict.find?_of_find?_erase (htable ▸ hj)
  exact {
    tracks := htracks
    pins := fun hj => by rw [hframes]; exact h.pins (hfind _ _ hj)
    opened := h.opened
    apart := h.apart
    known := fun hj => h.known (hfind _ _ hj)
    fresh := h.fresh
    pos := h.pos
    room := hsize ▸ h.room
    pages := by
      intro g u q d hg hq
      rw [← h.pages hg hq]
      by_cases hkk : (g, q) = key
      · have hnone : pool.pageTable.find? (g, q) = none := by
          rw [htable, hkk, Dict.find?_erase_self]
        have hcached : s.bufferPool.pageTable.find? (g, q) = some i := by rw [hkk, hk]
        rw [page_of_not_cached hnone, page_of_cached hcached,
          hdisk (by rw [← hkk, hg]; simp), hkk]
      · have hsame : pool.pageTable.find? (g, q) = s.bufferPool.pageTable.find? (g, q) := by
          rw [htable, Dict.find?_erase_of_ne _ hkk]
        simp only [page, hsame, hframes]
    cached := fun hj => by rw [hframes]; exact h.cached (hfind _ _ hj) }

/-- The frame on its way given a page of a file in use. -/
theorem install (h : Holds F none (some i) s) (hlt : i < s.bufferPool.poolSize)
    (hF : F f = some t) (hp : t.pages[p]? = some d)
    (hnone : s.bufferPool.pageTable.find? (f, p) = none) (forWrite : Bool) :
    let s' : Storage := { s with bufferPool :=
      { s.bufferPool.setFrame i ⟨s.diskMgr.page (f, p), p, f, p, forWrite, 1⟩ with
        pageTable := s.bufferPool.pageTable.insert (f, p) i } }
    Holds F (some i) none s' ∧ Fetched f p i d forWrite s' := by
  intro s'
  have hd : s.diskMgr.page (f, p) = d := by rw [← h.pages hF hp, page_of_not_cached hnone]
  have hget : ∀ j, s'.bufferPool.frames j =
      if j = i then ⟨s.diskMgr.page (f, p), p, f, p, forWrite, 1⟩ else s.bufferPool.frames j :=
    fun j => Function.update_apply ..
  have hself : s'.bufferPool.pageTable.find? (f, p) = some i := Dict.find?_insert_self ..
  have hother : ∀ {key}, key ≠ (f, p) →
      s'.bufferPool.pageTable.find? key = s.bufferPool.pageTable.find? key :=
    fun hne => Dict.find?_insert_of_ne _ _ hne
  -- The frame on its way holds no other page.
  have hne : ∀ {key j}, s.bufferPool.pageTable.find? key = some j → j ≠ i := by
    rintro key j hj rfl
    exact (h.tracks.table hj).2.1 rfl
  refine ⟨?_, hself, by rw [hget, if_pos rfl, hd], fun hw => by rw [hget, if_pos rfl, hw]⟩
  exact {
    tracks := h.tracks.install hlt hnone (h.carries hF hp _ _ _) Nat.one_ne_zero
    pins := by
      intro key j hj
      rw [hget]
      by_cases hkk : key = (f, p)
      · obtain rfl : i = j := Option.some.inj (hself.symm.trans (hkk ▸ hj))
        simp
      · rw [hother hkk] at hj
        have hji := hne hj
        rw [if_neg hji, h.pins hj, if_neg (by simp), if_neg (by simpa [eq_comm] using hji)]
    opened := h.opened
    apart := h.apart
    known := by
      intro key j hj
      by_cases hkk : key = (f, p)
      · rw [hkk]
        exact h.lt_next hF
      · rw [hother hkk] at hj
        exact h.known hj
    fresh := h.fresh
    pos := h.pos
    room := h.room
    pages := by
      intro g u q d' hg hq
      rw [← h.pages hg hq]
      by_cases hkk : (g, q) = (f, p)
      · rw [hkk, page_of_cached hself, page_of_not_cached hnone, hget, if_pos rfl]
      · cases hj : s.bufferPool.pageTable.find? (g, q) with
        | none => rw [page_of_not_cached hj, page_of_not_cached ((hother hkk).trans hj)]
        | some j =>
          rw [page_of_cached hj, page_of_cached ((hother hkk).trans hj), hget, if_neg (hne hj)]
    cached := by
      intro key j hj
      rw [hget]
      by_cases hkk : key = (f, p)
      · obtain rfl : i = j := Option.some.inj (hself.symm.trans (hkk ▸ hj))
        rw [if_pos rfl]
        exact Or.inl ⟨t, by rw [hkk]; exact hF, by rw [hkk]; exact page_lt hp,
          fun _ => by rw [hkk]⟩
      · rw [hother hkk] at hj
        rw [if_neg (hne hj)]
        exact h.cached hj }

/-- The victim's page given up, after a write-back when its frame is dirty. -/
theorem evictVictim (h : Holds F none none s) {victim : LruNode} {n : ℕ}
    (hlast : s.bufferPool.lruList.getLast? = some victim) :
    wp (fun _ => False) (evict (s.bufferPool.frames victim.frameIdx))
      (fun _ s' => Holds F none (some victim.frameIdx) s' ∧
        victim.frameIdx < s'.bufferPool.poolSize ∧
        ∀ key, s.bufferPool.pageTable.find? key = none →
          s'.bufferPool.pageTable.find? key = none)
      { s with bufferPool := { s.bufferPool with
        cacheMisses := n
        lruList := s.bufferPool.lruList.dropLast
        lruMap := s.bufferPool.lruMap.erase victim.frameIdx } } := by
  obtain ⟨key, hk, -, hlt, htracks, hevict⟩ := evict_victim h.tracks hlast n
  have hgone : ∀ key', s.bufferPool.pageTable.find? key' = none →
      (s.bufferPool.pageTable.erase key).find? key' = none := by
    intro key' hnone
    rw [Dict.find?_erase, hnone, ite_self]
  refine hevict.mpr ?_
  cases hdirty : (s.bufferPool.frames victim.frameIdx).isDirty with
  | false =>
    rw [if_neg (by simp)]
    refine ⟨h.drop hk htracks rfl rfl rfl fun hne => ?_, hlt, hgone⟩
    rcases h.cached hk with ⟨t, -, -, hclean⟩ | ⟨hnone, -⟩
    · exact hclean hdirty
    · exact absurd hnone hne
  | true =>
    rcases h.cached hk with ⟨t, hF, hp, -⟩ | ⟨-, hclean⟩
    · rw [if_pos rfl, DiskManager.wp_writePage (h.opened hF).handle hp]
      refine ⟨(h.put hk hF).drop hk htracks rfl rfl rfl fun _ => ?_, hlt, hgone⟩
      exact (DiskManager.page_put_self _ _ _ _ (h.opened hF).handle).symm
    · rw [hdirty] at hclean; cases hclean

/-- A pool with no page pinned has a frame for another page. -/
theorem not_full (h : Holds F none none s) :
    ¬ (s.bufferPool.freeList = [] ∧ s.bufferPool.lruList.getLast? = none) := by
  rintro ⟨hfree, hlast⟩
  have hlru : s.bufferPool.unpinned = [] := by
    rw [unpinned, List.getLast?_eq_none_iff.mp hlast, List.map_nil]
  rcases h.tracks.room h.room (by simp) with hin | ⟨key, hk⟩
  · rw [hfree] at hin; cases hin
  · have hzero : (s.bufferPool.frames 0).pinCount = 0 := by simpa using h.pins hk
    have hmem := h.tracks.lru.mpr ⟨⟨key, hk⟩, hzero⟩
    rw [hlru] at hmem; cases hmem

/-- `fetchPage` on a page that is not cached: whatever frame is taken, the rest of the call reads the
page and installs it there. -/
theorem fetch_load (h : Holds F none none s) (hnone : s.bufferPool.pageTable.find? (f, p) = none)
    {forWrite : Bool} {Q : ℕ → Storage → Prop}
    (hload : ∀ {i : ℕ} {s₁ : Storage}, Holds F none (some i) s₁ → i < s₁.bufferPool.poolSize →
      s₁.bufferPool.pageTable.find? (f, p) = none → wp (fun _ => False) (load f p forWrite i) Q s₁) :
    wp (fun _ => False) (Storage.fetchPage f p forWrite) Q s := by
  refine wp_fetch_miss h.tracks hnone h.not_full (fun hfree hlt htracks => ?_) fun hlast => ?_
  · have h₁ := h.reframe (htracks.cacheMisses (s.bufferPool.cacheMisses + 1)) rfl rfl h.pins
      fun _ => ⟨rfl, Or.inl rfl⟩
    exact hload h₁ hlt hnone
  · refine wp_mono (h.evictVictim hlast) ?_
    rintro - s₁ ⟨h₁, hlt, hgone⟩
    exact hload h₁ hlt (hgone _ hnone)

/-- The miss of `fetchPage`. -/
theorem fetch_miss (h : Holds F none none s) (hF : F f = some t)
    (hnone : s.bufferPool.pageTable.find? (f, p) = none) (hp : t.pages[p]? = some d)
    (forWrite : Bool) :
    wp (fun _ => False) (Storage.fetchPage f p forWrite)
      (fun i s' => Holds F (some i) none s' ∧ Fetched f p i d forWrite s') s :=
  h.fetch_load hnone fun h₁ hlt hnone₁ =>
    (wp_load (h₁.opened hF).handle).mpr (h₁.install hlt hF hp hnone₁ forWrite)

/-- `fetchPage` on a page of a file in use. -/
theorem fetchPage (h : Holds F none none s) (hF : F f = some t) (hp : t.pages[p]? = some d)
    (forWrite : Bool) :
    wp (fun _ => False) (Storage.fetchPage f p forWrite)
      (fun i s' => Holds F (some i) none s' ∧ Fetched f p i d forWrite s') s := by
  cases hk : s.bufferPool.pageTable.find? (f, p) with
  | some i => exact h.fetch_hit hF hk hp forWrite
  | none => exact h.fetch_miss hF hk hp forWrite

/-- `fetchPage` on a page behind the end of the file: its bytes are zeros. -/
theorem fetch_beyond (h : Holds F none none s) (hF : F f = some t) (hp : t.pages.length ≤ p)
    (forWrite : Bool) :
    wp (fun _ => False) (Storage.fetchPage f p forWrite)
      (fun i s' => (s'.bufferPool.frames i).data = Block.zero) s := by
  have hnone : s.bufferPool.pageTable.find? (f, p) = none := by
    cases hk : s.bufferPool.pageTable.find? (f, p) with
    | none => rfl
    | some i => exact absurd (h.lt_of_cached hk hF) (Nat.not_lt.mpr hp)
  apply h.fetch_load hnone
  intro i s₁ h₁ _ _
  obtain ⟨hhandle, -, hsize, -, -⟩ := h₁.opened hF
  rw [wp_load hhandle]
  show ((Function.update s₁.bufferPool.frames i _) i).data = Block.zero
  rw [Function.update_self]
  show s₁.diskMgr.page (f, p) = Block.zero
  simp only [DiskManager.page, hhandle]
  apply File.readAt_of_size_le
  rw [hsize]
  exact Nat.mul_le_mul_right _ hp

/-! ## Pinned pages -/

/-- The files with one page replaced: the same paths and lengths, and the other pages. -/
theorem exists_of_update (hF : F f = some t) (hlt : p < t.pages.length) {d' : Page} {g : ℤ}
    {u : TableFile} (hg : Function.update F f (some ⟨t.path, t.pages.set p d'⟩) g = some u) :
    ∃ u', F g = some u' ∧ u.path = u'.path ∧ u.pages.length = u'.pages.length ∧
      ∀ q, u.pages[q]? = if (g, q) = (f, p) then some d' else u'.pages[q]? := by
  rw [Function.update_apply] at hg
  split at hg
  case isTrue hgf =>
    obtain rfl := Option.some.inj hg
    refine ⟨t, hgf ▸ hF, rfl, List.length_set, fun q => ?_⟩
    simp only [List.getElem?_set, Prod.mk.injEq, hgf, true_and]
    by_cases hq : p = q
    · subst hq
      simp [hlt]
    · simp [hq, Ne.symm hq]
  case isFalse hgf =>
    refine ⟨u, hg, rfl, rfl, fun q => ?_⟩
    rw [if_neg (fun he => hgf (Prod.ext_iff.mp he).1)]

/-- The bytes of the pinned page changed. -/
theorem setPageData (h : Holds F (some i) none s) (hF : F f = some t)
    (hi : Fetched f p i d true s) (d' : Page) :
    wp (fun _ => False) (Storage.setPageData i d')
      (fun _ s' => Holds (Function.update F f (some ⟨t.path, t.pages.set p d'⟩)) (some i) none s' ∧
        Fetched f p i d' true s') s := by
  have hlt : p < t.pages.length := h.lt_of_cached hi.table hF
  simp only [Storage.setPageData, onPool, wp_modify]
  let s' : Storage := { s with
    bufferPool := s.bufferPool.setFrame i { s.bufferPool.frames i with data := d' } }
  have hget : ∀ j, s'.bufferPool.frames j =
      if j = i then { s.bufferPool.frames i with data := d' } else s.bufferPool.frames j :=
    fun j => Function.update_apply ..
  have htable : ∀ key, s'.bufferPool.pageTable.find? key = s.bufferPool.pageTable.find? key :=
    fun _ => rfl
  have hset := fun {g u} (hg : Function.update F f (some ⟨t.path, t.pages.set p d'⟩) g = some u) =>
    exists_of_update hF hlt hg
  show Holds _ _ _ s' ∧ Fetched f p i d' true s'
  refine ⟨?_, hi.table, by rw [hget, if_pos rfl],
    fun _ => by rw [hget, if_pos rfl]; exact hi.dirty rfl⟩
  exact {
    tracks := h.tracks.setFrame _ rfl rfl rfl Iff.rfl
    pins := by
      intro key j hj
      rw [hget]
      split
      case isTrue hji => subst hji; exact h.pins hj
      case isFalse => exact h.pins hj
    opened := by
      intro g u hg
      obtain ⟨u', hu', hpath, hlen, -⟩ := hset hg
      have ho := h.opened hu'
      exact ⟨by rw [hpath, hlen]; exact ho.handle, by rw [hpath]; exact ho.onDisk,
        by rw [hpath, hlen]; exact ho.size, by rw [hlen]; exact ho.small, ho.nonneg⟩
    apart := by
      intro g g' u v hg hg' huv
      obtain ⟨u', hu', hpath, -⟩ := hset hg
      obtain ⟨v', hv', hpath', -⟩ := hset hg'
      exact h.apart hu' hv' (by rw [← hpath, huv, hpath'])
    known := h.known
    fresh := h.fresh
    pos := h.pos
    room := h.room
    pages := by
      intro g u q d₁ hg hq
      obtain ⟨u', hu', -, -, hpages⟩ := hset hg
      rw [hpages] at hq
      split at hq
      case isTrue hgq =>
        obtain rfl := Option.some.inj hq
        rw [hgq, page_of_cached ((htable _).trans hi.table), hget, if_pos rfl]
      case isFalse hgq =>
        rw [← h.pages hu' hq]
        cases hj : s.bufferPool.pageTable.find? (g, q) with
        | none => rw [page_of_not_cached hj, page_of_not_cached ((htable _).trans hj)]
        | some j =>
          have hji : j ≠ i := fun hji => hgq (h.tracks.key_eq (hji ▸ hj) hi.table)
          rw [page_of_cached hj, page_of_cached ((htable _).trans hj), hget, if_neg hji]
    cached := by
      intro key j hj
      rw [hget]
      by_cases hji : j = i
      · subst hji
        have hkey : key = (f, p) := h.tracks.key_eq hj hi.table
        rw [if_pos rfl]
        refine Or.inl ⟨⟨t.path, t.pages.set p d'⟩, by rw [hkey]; exact Function.update_self .., ?_,
          fun hfalse => ?_⟩
        · rw [hkey, List.length_set]; exact hlt
        · rw [hi.dirty rfl] at hfalse; cases hfalse
      · rw [if_neg hji, Function.update_apply]
        rcases h.cached hj with ⟨u, hu, hq, hclean⟩ | ⟨hnone, hclean⟩
        · split
          case isTrue hkf =>
            rw [hkf, hF] at hu
            obtain rfl := Option.some.inj hu
            exact Or.inl ⟨_, rfl, by rw [List.length_set]; exact hq, hclean⟩
          case isFalse => exact Or.inl ⟨u, hu, hq, hclean⟩
        · rw [if_neg (fun hkf => by rw [hkf, hF] at hnone; cases hnone)]
          exact Or.inr ⟨hnone, hclean⟩ }

/-- The pinned page unpinned. -/
theorem unpinPage (h : Holds F (some i) none s) (hF : F f = some t) {w : Bool}
    (hi : Fetched f p i d w s) (isDirty : Bool) :
    wp (fun _ => False) (Storage.unpinPage f p isDirty) (fun _ s' => Holds F none none s') s := by
  have hone : (s.bufferPool.frames i).pinCount = 1 := by simpa using h.pins hi.table
  have hk : s.bufferPool.pageTable.find? (makePageKey f p) = some i := hi.table
  simp only [Storage.unpinPage, wp_bind, wp_get, hk, hone, Nat.one_ne_zero, if_false, onPool,
    wp_modify, Nat.sub_self, if_true]
  obtain ⟨-, -, hc⟩ := h.tracks.table hi.table
  let frame : PageFrame := { s.bufferPool.frames i with
    pinCount := 0, isDirty := (s.bufferPool.frames i).isDirty || isDirty }
  have hcar : Carries frame (f, p) := ⟨hc.fileId, hc.pageNum, hc.pageId, hc.file, hc.page⟩
  have hget : ∀ j, ((s.bufferPool.setFrame i frame).pushLru i).frames j =
      if j = i then frame else s.bufferPool.frames j := fun j => Function.update_apply ..
  refine h.reframe (h.tracks.unpin hi.table hcar (by rw [hone]; simp) rfl) rfl rfl ?_ ?_
  · intro key j hj
    rw [hget]
    by_cases hji : j = i
    · simp [hji, frame]
    · rw [if_neg hji, h.pins hj, if_neg (by simpa [eq_comm] using hji), if_neg (by simp)]
  · intro key j hj
    rw [hget]
    by_cases hji : j = i
    · subst hji
      rw [if_pos rfl]
      refine ⟨rfl, ?_⟩
      cases isDirty with
      | false => exact Or.inl (Bool.or_false _)
      | true =>
        have hkey : key = (f, p) := h.tracks.key_eq hj hi.table
        exact Or.inr ⟨Bool.or_true _, by rw [hkey, hF]; simp⟩
    · rw [if_neg hji]
      exact ⟨rfl, Or.inl rfl⟩

end Holds

@[simp] theorem wp_pageData {G : Fault → Prop} {Q : Page → Storage → Prop} :
    wp G (pageData i) Q s ↔ Q (s.bufferPool.frames i).data s := Iff.rfl

end Storage

end MiniDB
