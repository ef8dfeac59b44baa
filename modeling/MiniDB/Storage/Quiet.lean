import MiniDB.Storage.Pool

/-!
# A pool with at most one pinned page

What a client that pins one page at a time relies on: every frame but the one it holds can be taken
for another page, whatever page numbers it has asked for. The number that stands for no page may be
among them, so an entry of the page table can outlive its page; the frames are counted, not the
pages.

## Main definitions

* `Rested out pool`: no frame is pinned but `out`, and every other frame is unused or in the list of
  unpinned frames
* `Storage.Quiet out s`: the same of a storage whose cached pages all belong to open files
* `Storage.Serves f out s`: besides, the file `f` is open
* `Storage.Holding f p i s`: the page `p` of `f` is pinned once, in the frame `i`

## Main results

* `Storage.Serves.fetchPage`: a fetch does not throw, and the page is held
* `Storage.Holding.unpinPage`: a held page unpinned
-/

namespace MiniDB

namespace BufferPool

/-- The pool with no page pinned but the one in the frame `out`. -/
structure Rested (out : Option ℕ) (pool : BufferPool) : Prop where
  listed : Listed pool
  pins : ∀ {j}, some j ≠ out → (pool.frames j).pinCount = 0
  freeNodup : pool.freeList.Nodup
  free : ∀ {j}, j ∈ pool.freeList →
    j ∉ pool.unpinned ∧ some j ≠ out ∧ ∀ key, pool.pageTable.find? key ≠ some j
  away : ∀ {j}, out = some j → j ∉ pool.unpinned
  room : ∀ {j}, j < pool.poolSize → some j ≠ out → j ∈ pool.freeList ∨ j ∈ pool.unpinned

variable {pool : BufferPool} {out : Option ℕ} {key : PageKey} {i : ℕ} {frame : PageFrame}

theorem rested_new (poolSize : ℕ) : Rested none (new poolSize) where
  listed := listed_new poolSize
  pins _ := rfl
  freeNodup := List.nodup_range
  free _ := ⟨by simp [unpinned, new], by simp, by simp [new]⟩
  away h := by cases h
  room h _ := Or.inl (List.mem_range.mpr h)

namespace Rested

/-- At most one frame is pinned. -/
theorem eq_of_pinned (h : Rested out pool) {i j : ℕ} (hi : (pool.frames i).pinCount ≠ 0)
    (hj : (pool.frames j).pinCount ≠ 0) : i = j := by
  have hi' : some i = out := by_contra fun hne => hi (h.pins hne)
  have hj' : some j = out := by_contra fun hne => hj (h.pins hne)
  exact Option.some.inj (hi'.trans hj'.symm)

/-- A pool with frames that holds none of them has one for another page. -/
theorem exists_victim (h : Rested none pool) (hsize : 0 < pool.poolSize)
    (hfree : pool.freeList = []) : ∃ victim, pool.lruList.getLast? = some victim := by
  rcases h.room hsize (by simp) with hmem | hmem
  · rw [hfree] at hmem
    cases hmem
  · obtain ⟨n, hn, -⟩ := List.mem_map.mp hmem
    exact ⟨_, List.getLast?_eq_some_getLast (List.ne_nil_of_mem hn)⟩

theorem cacheHits (h : Rested out pool) (n : ℕ) : Rested out { pool with cacheHits := n } :=
  ⟨h.listed.congr rfl rfl rfl, h.pins, h.freeNodup, h.free, h.away, h.room⟩

theorem cacheMisses (h : Rested out pool) (n : ℕ) : Rested out { pool with cacheMisses := n } :=
  ⟨h.listed.congr rfl rfl rfl, h.pins, h.freeNodup, h.free, h.away, h.room⟩

/-- The frames are not compared with the page table. -/
theorem setFrame (h : Rested out pool) (hpin : some i ≠ out → frame.pinCount = 0) :
    Rested out (pool.setFrame i frame) where
  listed := h.listed.congr rfl rfl rfl
  pins {j} hj := by
    show (Function.update pool.frames i frame j).pinCount = 0
    rw [Function.update_apply]
    split
    case isTrue hji => exact hpin (hji ▸ hj)
    case isFalse => exact h.pins hj
  freeNodup := h.freeNodup
  free := h.free
  away := h.away
  room := h.room

theorem erase (h : Rested out pool) (key : PageKey) :
    Rested out { pool with pageTable := pool.pageTable.erase key } where
  listed := h.listed.congr rfl rfl rfl
  pins := h.pins
  freeNodup := h.freeNodup
  free hj := ⟨(h.free hj).1, (h.free hj).2.1, fun key' hk =>
    (h.free hj).2.2 key' (Dict.find?_of_find?_erase hk)⟩
  away := h.away
  room := h.room

/-- A cached page pinned. -/
theorem pin (h : Rested none pool) (hk : pool.pageTable.find? key = some i) :
    Rested (some i) ((pool.setFrame i frame).removeLru i) := by
  rw [removeLru_setFrame]
  refine .setFrame ?_ fun hne => absurd rfl hne
  refine { listed := h.listed.removeLru, pins := ?pins, freeNodup := ?freeNodup, free := ?free,
           away := ?away, room := ?room }
  case pins =>
    intro j hj
    rw [removeLru_frames]
    exact h.pins (by simp)
  case freeNodup =>
    rw [removeLru_freeList]
    exact h.freeNodup
  case free =>
    intro j hj
    rw [removeLru_freeList] at hj
    obtain ⟨hun, -, hnk⟩ := h.free hj
    rw [h.listed.mem_unpinned_removeLru, removeLru_pageTable]
    refine ⟨fun hmem => hun hmem.1, ?_, hnk⟩
    rintro ⟨⟩
    exact hnk key hk
  case away =>
    rintro j ⟨⟩
    rw [h.listed.mem_unpinned_removeLru]
    exact fun hmem => hmem.2 rfl
  case room =>
    intro j hj hout
    rw [removeLru_poolSize] at hj
    rw [removeLru_freeList, h.listed.mem_unpinned_removeLru]
    refine (h.room hj (by simp)).imp_right fun hmem => ⟨hmem, ?_⟩
    rintro rfl
    exact hout rfl

/-- The pinned page unpinned. -/
theorem unpin (h : Rested (some i) pool) (hpin : frame.pinCount = 0) :
    Rested none ((pool.setFrame i frame).pushLru i) := by
  have hlisted : Listed (pool.pushLru i) := h.listed.pushLru (h.away rfl)
  refine { listed := hlisted.congr rfl rfl rfl,
           pins := ?pins, freeNodup := h.freeNodup, free := ?free, away := ?away, room := ?room }
  case pins =>
    intro j _
    show (Function.update pool.frames i frame j).pinCount = 0
    rw [Function.update_apply]
    split
    case isTrue => exact hpin
    case isFalse hji => exact h.pins fun he => hji (Option.some.inj he)
  case free =>
    intro j hj
    obtain ⟨hun, hout, hnk⟩ := h.free hj
    refine ⟨fun hmem => ?_, by simp, hnk⟩
    rcases List.mem_cons.mp hmem with rfl | hmem
    · exact hout rfl
    · exact hun hmem
  case away => rintro j ⟨⟩
  case room =>
    intro j hj _
    show j ∈ pool.freeList ∨ j ∈ i :: pool.unpinned
    rw [List.mem_cons]
    by_cases hji : j = i
    · exact Or.inr (Or.inl hji)
    · exact (h.room hj fun he => hji (Option.some.inj he)).imp_right Or.inr

/-- An unused frame taken. -/
theorem takeFree (h : Rested none pool) {rest : List ℕ} (hfree : pool.freeList = i :: rest) :
    Rested (some i) { pool with freeList := rest } := by
  have hnodup : (i :: rest).Nodup := hfree ▸ h.freeNodup
  have hsub : ∀ {j}, j ∈ rest → j ∈ pool.freeList := fun hj => hfree ▸ List.mem_cons_of_mem _ hj
  refine { listed := h.listed.congr rfl rfl rfl,
           pins := fun _ => h.pins (by simp), freeNodup := hnodup.of_cons, free := ?free,
           away := ?away, room := ?room }
  case free =>
    intro j hj
    obtain ⟨hun, -, hnk⟩ := h.free (hsub hj)
    refine ⟨hun, ?_, hnk⟩
    rintro ⟨⟩
    exact (List.nodup_cons.mp hnodup).1 hj
  case away =>
    rintro j ⟨⟩
    exact (h.free (hfree ▸ List.mem_cons_self)).1
  case room =>
    intro j hj hout
    rcases h.room hj (by simp) with hmem | hmem
    · rw [hfree, List.mem_cons] at hmem
      exact Or.inl (hmem.resolve_left fun hji => hout (by rw [hji]))
    · exact Or.inr hmem

/-- The least recently used frame taken. -/
theorem takeVictim (h : Rested none pool) {victim : LruNode}
    (hlast : pool.lruList.getLast? = some victim) :
    Rested (some victim.frameIdx) { pool with
      lruList := pool.lruList.dropLast
      lruMap := pool.lruMap.erase victim.frameIdx } := by
  have hmem : ∀ {j}, j ∈ pool.lruList.dropLast.map LruNode.frameIdx ↔
      j ∈ pool.unpinned ∧ j ≠ victim.frameIdx := h.listed.mem_map_dropLast hlast
  refine { listed := h.listed.dropLast hlast, pins := fun _ => h.pins (by simp),
           freeNodup := h.freeNodup, free := ?free, away := ?away, room := ?room }
  case free =>
    intro j hj
    obtain ⟨hun, -, hnk⟩ := h.free hj
    refine ⟨fun hj' => hun (hmem.mp hj').1, ?_, hnk⟩
    rintro ⟨⟩
    exact hun (mem_unpinned (List.mem_of_getLast? hlast))
  case away =>
    rintro j ⟨⟩ hj
    exact (hmem.mp hj).2 rfl
  case room =>
    intro j hj hout
    refine (h.room hj (by simp)).imp_right fun hj' => hmem.mpr ⟨hj', ?_⟩
    rintro rfl
    exact hout rfl

/-- The frame taken given a page. -/
theorem install (h : Rested (some i) pool) (key : PageKey) (frame : PageFrame) :
    Rested (some i) { pool.setFrame i frame with pageTable := pool.pageTable.insert key i } := by
  have hframe : Rested (some i) (pool.setFrame i frame) := h.setFrame fun hne => absurd rfl hne
  refine { listed := h.listed.congr rfl rfl rfl,
           pins := hframe.pins, freeNodup := h.freeNodup, free := ?_, away := h.away,
           room := h.room }
  intro j hj
  obtain ⟨hun, hout, hnk⟩ := h.free hj
  refine ⟨hun, hout, fun key' hk => ?_⟩
  rcases Dict.eq_or_find?_of_find?_insert hk with ⟨-, rfl⟩ | hk
  · exact hout rfl
  · exact hnk key' hk

end Rested

end BufferPool

namespace Storage

open BufferPool Program

/-- No page is pinned but the one in the frame `out`, and every cached page is of an open file. -/
structure Quiet (out : Option ℕ) (s : Storage) : Prop where
  size : 0 < s.bufferPool.poolSize
  rested : s.bufferPool.Rested out
  backed : ∀ {j}, 0 ≤ (s.bufferPool.frames j).fileId →
    (s.diskMgr.path (s.bufferPool.frames j).fileId).isSome

/-- A quiet storage that has the file `f` open. -/
structure Serves (f : ℤ) (out : Option ℕ) (s : Storage) : Prop extends Quiet out s where
  file : (s.diskMgr.path f).isSome

/-- The page `p` of the file `f` is pinned once, in the frame `i`, and no other page is. -/
structure Holding (f : ℤ) (p i : ℕ) (s : Storage) : Prop extends Serves f (some i) s where
  table : s.bufferPool.pageTable.find? (f, p) = some i
  pinned : (s.bufferPool.frames i).pinCount = 1

variable {s : Storage} {f : ℤ} {p i : ℕ} {out : Option ℕ}

theorem quiet_new (disk : Str → Option File) {poolSize : ℕ} (h : 0 < poolSize) :
    Quiet none ⟨.new disk, .new poolSize⟩ where
  size := h
  rested := rested_new poolSize
  backed hj := absurd hj (by simp [new, PageFrame.unused])

theorem exists_handle {d : DiskManager} {g : ℤ} (h : (d.path g).isSome) :
    ∃ fh, d.files.find? g = some fh := by
  unfold DiskManager.path at h
  rw [Option.isSome_map] at h
  exact Option.isSome_iff_exists.mp h

/-- A file with a handle stays open when a handle is changed. -/
theorem path_insert {d : DiskManager} {g : ℤ} (h : (d.path g).isSome) (f : ℤ) (fh : FileHandle) :
    ((d.setHandle f fh).path g).isSome := by
  unfold DiskManager.path DiskManager.setHandle at *
  rw [Dict.find?_insert]
  split
  case isTrue => rfl
  case isFalse => exact h

namespace Quiet

/-- The disk may change as long as the open files stay open. -/
theorem onDisk (h : Quiet out s) {d : DiskManager}
    (hpath : ∀ {g}, (s.diskMgr.path g).isSome → (d.path g).isSome) :
    Quiet out { s with diskMgr := d } :=
  ⟨h.size, h.rested, fun hj => hpath (h.backed hj)⟩

/-- A page written to an open file. -/
theorem store (h : Quiet out s) {fh : FileHandle} {buffer : Page}
    (hfh : s.diskMgr.files.find? f = some fh) :
    Quiet out { s with diskMgr := s.diskMgr.store f fh p buffer } :=
  h.onDisk fun hg => by rwa [DiskManager.path_store hfh]

/-- A frame replaced by one whose page, too, is of an open file. -/
theorem backed_update (h : Quiet out s) {frame : PageFrame}
    (hfile : 0 ≤ frame.fileId → (s.diskMgr.path frame.fileId).isSome) {j : ℕ}
    (hj : 0 ≤ (Function.update s.bufferPool.frames i frame j).fileId) :
    (s.diskMgr.path (Function.update s.bufferPool.frames i frame j).fileId).isSome := by
  rw [Function.update_apply] at hj ⊢
  split at hj
  case isTrue hji =>
    rw [if_pos hji]
    exact hfile hj
  case isFalse hji =>
    rw [if_neg hji]
    exact h.backed hj

/-- A frame given up by the page in it, which is written back to its file when it is dirty. -/
theorem evict (h : Quiet (some i) s) {Q : Unit → Storage → Prop}
    (hQ : ∀ s', Quiet (some i) s' →
      (∀ {g}, (s.diskMgr.path g).isSome → (s'.diskMgr.path g).isSome) → Q () s') :
    wp (fun _ => False) (Storage.evict (s.bufferPool.frames i)) Q s := by
  unfold Storage.evict
  split
  case isFalse => exact hQ s h fun hg => hg
  case isTrue hused =>
    have hquiet : Quiet (some i) { s with bufferPool := { s.bufferPool with
        pageTable := s.bufferPool.pageTable.erase
          (makePageKey (s.bufferPool.frames i).fileId (s.bufferPool.frames i).pageNum) } } :=
      ⟨h.size, h.rested.erase _, h.backed⟩
    obtain ⟨fh, hfh⟩ := exists_handle (h.backed hused.1)
    simp only [wp_bind, onPool, wp_modify]
    split
    case isTrue =>
      rw [Storage.onDisk, wp_zoom]
      refine (DiskManager.wp_writePage_store hfh).mpr (hQ _ (hquiet.store hfh) fun hg => ?_)
      rwa [DiskManager.path_store hfh]
    case isFalse => exact hQ _ hquiet fun hg => hg

/-- `createFile`: the new file is open. -/
theorem createFile (h : Quiet none s) (fileName : Str) :
    wp (fun _ => False) (Storage.onDisk (DiskManager.createFile fileName))
      (fun f s' => Serves f none s') s := by
  simp only [Storage.onDisk, wp_zoom, DiskManager.createFile, wp_bind, wp_get, wp_set, wp_pure]
  refine { toQuiet := h.onDisk fun hg => path_insert hg _ _, file := ?_ }
  simp [DiskManager.path, DiskManager.setHandle]

/-- `openFile`: a file is open afterwards if it was. -/
theorem openFile (h : Quiet none s) (fileName : Str) :
    wp (fun _ => False) (Storage.onDisk (DiskManager.openFile fileName))
      (fun _ s' => Quiet none s') s := by
  simp only [Storage.onDisk, wp_zoom, DiskManager.openFile, wp_bind, wp_get]
  split
  · exact h
  · exact h.onDisk fun hg => path_insert hg _ _

/-- The dirty bit of a frame does not matter. -/
theorem setClean (h : Quiet none s) (i : ℕ) :
    Quiet none { s with bufferPool :=
      s.bufferPool.setFrame i { s.bufferPool.frames i with isDirty := false } } := by
  refine { size := h.size, rested := h.rested.setFrame fun _ => h.rested.pins (by simp),
           backed := h.backed_update ?_ }
  exact h.backed

/-- One round of `flushAllPages`. -/
theorem flushFrame (h : Quiet none s) (i : ℕ) :
    wp (fun _ => False) (flushFrame i) (fun _ s' => Quiet none s') s := by
  simp only [Storage.flushFrame, wp_bind, wp_get]
  split
  case isFalse => exact h
  case isTrue hdirty =>
    obtain ⟨fh, hfh⟩ := exists_handle (h.backed hdirty.2)
    simp only [wp_bind, Storage.onDisk, wp_zoom, DiskManager.wp_writePage_store hfh, onPool,
      wp_modify]
    exact (h.setClean i).store hfh

theorem flushAllPages (h : Quiet none s) :
    wp (fun _ => False) flushAllPages (fun _ s' => Quiet none s') s := by
  simp only [Storage.flushAllPages, wp_bind, wp_get]
  exact wp_foldlM (fun _ _ s' => Quiet none s') _ (fun _ x _ _ s' _ hs' => hs'.flushFrame x.2) h

end Quiet

namespace Serves

theorem flushPage (h : Serves f none s) (p : ℕ) :
    wp (fun _ => False) (flushPage f p) (fun _ s' => Quiet none s') s := by
  obtain ⟨fh, hfh⟩ := exists_handle h.file
  simp only [Storage.flushPage, wp_bind, wp_get]
  split
  · exact h.toQuiet
  · split
    case isFalse => exact h.toQuiet
    case isTrue =>
      simp only [wp_bind, onDisk, wp_zoom, DiskManager.wp_writePage_store hfh, onPool, wp_modify]
      exact (h.setClean _).store hfh

/-- The page read into the frame found for it. -/
theorem load (h : Serves f (some i) s) (w : Bool) :
    wp (fun _ => False) (load f p w i) (fun j s' => Holding f p j s') s := by
  obtain ⟨fh, hfh⟩ := exists_handle h.file
  simp only [Storage.load, wp_bind, onDisk, wp_zoom, DiskManager.wp_readPage hfh, onPool, wp_modify,
    wp_pure]
  exact { size := h.size, rested := h.rested.install (f, p) _,
          backed := h.backed_update fun _ => h.file, file := h.file,
          table := Dict.find?_insert_self .., pinned := by simp [setFrame] }

/-- A fetch from a quiet storage returns: a frame is there for the page, and no disk operation
fails. -/
theorem fetchPage (h : Serves f none s) (p : ℕ) (w : Bool) :
    wp (fun _ => False) (fetchPage f p w) (fun i s' => Holding f p i s') s := by
  cases hfind : s.bufferPool.pageTable.find? (f, p) with
  | some i =>
    have hfind' : s.bufferPool.pageTable.find? (makePageKey f p) = some i := hfind
    simp only [Storage.fetchPage, wp_bind, wp_get, hfind', onPool, wp_modify, wp_pure]
    refine { size := ?size, rested := (h.rested.cacheHits _).pin hfind, backed := ?backed,
             file := h.file, table := ?table, pinned := ?pinned }
    case size =>
      rw [removeLru_poolSize]
      exact h.size
    case backed =>
      intro j hj
      rw [removeLru_frames] at hj ⊢
      refine h.backed_update ?_ hj
      exact h.backed
    case table =>
      rw [removeLru_pageTable]
      exact hfind
    case pinned =>
      rw [removeLru_frames]
      simp [setFrame, h.rested.pins (by simp)]
  | none =>
    -- A miss finds a frame: with nothing pinned the free list and the victims hold them all.
    refine wp_fetch_find hfind ?_ (fun {i rest} hfree => ?_) fun {victim} hlast => ?_
    · rintro ⟨hfree, hlast⟩
      obtain ⟨victim, hvictim⟩ := h.rested.exists_victim h.size hfree
      rw [hlast] at hvictim
      cases hvictim
    · have htaken : Quiet (some i) { s with bufferPool := { s.bufferPool with
          cacheMisses := s.bufferPool.cacheMisses + 1, freeList := rest } } :=
        ⟨h.size, (h.rested.takeFree hfree).cacheMisses _, h.backed⟩
      exact htaken.evict fun s' hs' hpath => Serves.load ⟨hs', hpath h.file⟩ w
    · have htaken : Quiet (some victim.frameIdx) { s with bufferPool := { s.bufferPool with
          cacheMisses := s.bufferPool.cacheMisses + 1
          lruList := s.bufferPool.lruList.dropLast
          lruMap := s.bufferPool.lruMap.erase victim.frameIdx } } :=
        ⟨h.size, (h.rested.takeVictim hlast).cacheMisses _, h.backed⟩
      exact htaken.evict fun s' hs' hpath => Serves.load ⟨hs', hpath h.file⟩ w

/-- A new page of the file, unless the file cannot grow. -/
theorem allocateNewPage (h : Serves f none s) :
    wp (· = .io) (onDisk (DiskManager.allocateNewPage f)) (fun _ s' => Serves f none s') s := by
  obtain ⟨fh, hfh⟩ := exists_handle h.file
  have hgrows : wp (· = .io) (DiskManager.allocateNewPage f)
      (fun _ d => ∀ g, (s.diskMgr.path g).isSome → (d.path g).isSome) s.diskMgr := by
    simp only [DiskManager.allocateNewPage, wp_bind, DiskManager.wp_handle hfh]
    split
    case isTrue => exact fun g hg => path_insert hg f _
    case isFalse => rfl
  simp only [onDisk, wp_zoom]
  refine wp_mono hgrows fun n d hpath => ⟨h.onDisk (hpath _), hpath f h.file⟩

end Serves

namespace Holding

/-- The client may write to the page it holds. -/
theorem setPageData (h : Holding f p i s) (data : Page) :
    wp (fun _ => False) (setPageData i data) (fun _ s' => Holding f p i s') s := by
  simp only [Storage.setPageData, onPool, wp_modify]
  refine { size := h.size, rested := h.rested.setFrame fun hne => absurd rfl hne,
           backed := h.backed_update ?_, file := h.file, table := h.table,
           pinned := by simpa [setFrame] using h.pinned }
  exact h.backed

/-- The page unpinned. -/
theorem unpinPage (h : Holding f p i s) (isDirty : Bool) :
    wp (fun _ => False) (unpinPage f p isDirty) (fun _ s' => Serves f none s') s := by
  have htable : s.bufferPool.pageTable.find? (makePageKey f p) = some i := h.table
  simp only [Storage.unpinPage, wp_bind, wp_get, htable, h.pinned, if_neg Nat.one_ne_zero, onPool,
    wp_modify, Nat.sub_self, if_pos]
  refine { size := h.size, rested := h.rested.unpin rfl, backed := h.backed_update ?_,
           file := h.file }
  exact h.backed

end Holding

end Storage

end MiniDB
