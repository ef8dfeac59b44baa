import MiniDB.Storage.Pool

/-!
# The bookkeeping of the buffer pool over its runs

The page table, the list of unpinned frames with the map of its nodes and the list of unused frames
are changed by hand on every path of the pool. Over any run of calls, matched or not and with the
fetches among them that throw, they say the same thing about every frame: it is unused, or it holds
one page and is unpinned, or it holds one page and is pinned. How often a page is pinned is counted
beside the pool, from the calls alone.

## Main definitions

* `Storage.Booked d out s`: the bookkeeping is right, and the cached pages are of files open in `d`
* `PoolCall`, `Tally`: the calls of the pool, and the pool with the count of fetches and unpins
* `Tally.Bookkeeping`: what the five containers say about the frames

## Main results

* `Booked.fetchPage`, `Booked.unpinPage`, `Booked.flushPage`, `Booked.flushAllPages`: the calls
* `Tally.run_bookkeeping`: every run
-/

namespace MiniDB

open Program

namespace Storage

open BufferPool Coherent

/-- The bookkeeping of the pool is right, with the frame `out` on its way, and the cached pages are
of files that are open in `d`. -/
structure Booked (d : DiskManager) (out : Option ℕ) (s : Storage) : Prop where
  tracks : s.bufferPool.Tracks out
  paths : ∀ g, s.diskMgr.path g = d.path g
  cached : ∀ {key i}, s.bufferPool.pageTable.find? key = some i →
    ∃ path, d.path key.1 = some path

/-- A page fetched, and no other page with it. -/
structure Brought (key : PageKey) (i : ℕ) (s s' : Storage) : Prop where
  gained : Gained key i s s'
  others : ∀ {key' j}, s'.bufferPool.pageTable.find? key' = some j →
    key' = key ∨ s.bufferPool.pageTable.find? key' = some j

variable {d : DiskManager} {out out' : Option ℕ} {s : Storage} {key : PageKey} {i : ℕ} {f : ℤ}
  {p : ℕ}

theorem booked_new (d : DiskManager) (poolSize : ℕ) :
    Booked d none ⟨d, BufferPool.new poolSize⟩ where
  tracks := tracks_new poolSize
  paths _ := rfl
  cached h := by cases h

namespace Booked

theorem handle (h : Booked d out s) (hk : s.bufferPool.pageTable.find? key = some i) :
    ∃ fh, s.diskMgr.files.find? key.1 = some fh := by
  obtain ⟨path, hpath⟩ := h.cached hk
  rw [← h.paths] at hpath
  obtain ⟨fh, hfh, -⟩ := Option.map_eq_some_iff.mp hpath
  exact ⟨fh, hfh⟩

/-- A change of the pool that brings no page in. -/
theorem reframe (h : Booked d out s) {pool : BufferPool} (htracks : pool.Tracks out')
    (hold : ∀ {key j}, pool.pageTable.find? key = some j →
      s.bufferPool.pageTable.find? key = some j) : Booked d out' { s with bufferPool := pool } where
  tracks := htracks
  paths := h.paths
  cached hk := h.cached (hold hk)

/-- A page written to an open file. -/
theorem store (h : Booked d out s) {fh : FileHandle} (hfh : s.diskMgr.files.find? f = some fh)
    (data : Page) : Booked d out { s with diskMgr := s.diskMgr.store f fh p data } where
  tracks := h.tracks
  paths g := (DiskManager.path_store hfh g).trans (h.paths g)
  cached := h.cached

/-! ## Fetching a page -/

theorem fetch_hit (h : Booked d none s) (hk : s.bufferPool.pageTable.find? (f, p) = some i)
    (forWrite : Bool) : wp (fun _ => False) (Storage.fetchPage f p forWrite)
      (fun j s' => Booked d none s' ∧ Brought (f, p) j s s') s := by
  have hk' : s.bufferPool.pageTable.find? (makePageKey f p) = some i := hk
  simp only [Storage.fetchPage, wp_bind, wp_get, hk', onPool, wp_modify, wp_pure]
  obtain ⟨-, -, hc⟩ := h.tracks.table hk
  let frame : PageFrame := { s.bufferPool.frames i with
    pinCount := (s.bufferPool.frames i).pinCount + 1
    isDirty := (s.bufferPool.frames i).isDirty || forWrite }
  let pool : BufferPool := { s.bufferPool with cacheHits := s.bufferPool.cacheHits + 1 }
  have hcar : Carries frame (f, p) := ⟨hc.fileId, hc.pageNum, hc.pageId, hc.file, hc.page⟩
  have hpool : pool.Tracks none := h.tracks.cacheHits _
  -- The frame is pinned now, so it must not be on the list.
  have htracks : ((pool.setFrame i frame).removeLru i).Tracks none :=
    hpool.pin hk hcar (Nat.succ_ne_zero _)
  have htable : ((pool.setFrame i frame).removeLru i).pageTable = s.bufferPool.pageTable :=
    removeLru_pageTable
  exact ⟨h.reframe htracks fun hj => htable ▸ hj,
    .of_pin h.tracks hk removeLru_poolSize htable removeLru_frames rfl,
    fun hj => Or.inr (htable ▸ hj)⟩

/-- The rest of a fetch once a frame is there for the page. -/
theorem load (h : Booked d (some i) s) (hlt : i < s.bufferPool.poolSize) (hf : 0 ≤ f)
    {path : Str} (hpath : d.path f = some path) (hp : p ≠ INVALID_PAGE_ID)
    (hnone : s.bufferPool.pageTable.find? (f, p) = none) (forWrite : Bool) :
    wp (fun _ => False) (Storage.load f p forWrite i)
      (fun j s' => Booked d none s' ∧ Brought (f, p) j s s') s := by
  obtain ⟨fh, hfh, -⟩ := Option.map_eq_some_iff.mp ((h.paths f).trans hpath)
  rw [wp_load hfh]
  let frame : PageFrame := ⟨s.diskMgr.page (f, p), p, f, p, forWrite, 1⟩
  have hcar : Carries frame (f, p) := ⟨rfl, rfl, rfl, hf, hp⟩
  have hothers : ∀ {key' j}, (s.bufferPool.pageTable.insert (f, p) i).find? key' = some j →
      key' = (f, p) ∨ s.bufferPool.pageTable.find? key' = some j := by
    intro key' j hj
    exact (Dict.eq_or_find?_of_find?_insert hj).imp_left And.left
  refine ⟨⟨h.tracks.install hlt hnone hcar Nat.one_ne_zero, h.paths, fun hj => ?_⟩,
    .of_install h.tracks hnone rfl rfl rfl rfl, hothers⟩
  rcases hothers hj with heq | hj
  · exact ⟨path, by rw [heq]; exact hpath⟩
  · exact h.cached hj

/-- The least recently used frame given up: its page was not pinned. -/
theorem evictVictim (h : Booked d none s) {victim : LruNode} {n : ℕ}
    (hlast : s.bufferPool.lruList.getLast? = some victim) :
    wp (fun _ => False) (evict (s.bufferPool.frames victim.frameIdx))
      (fun _ s' => Booked d (some victim.frameIdx) s' ∧ Keeps s s' ∧
        victim.frameIdx < s'.bufferPool.poolSize ∧
        (∀ {key j}, s'.bufferPool.pageTable.find? key = some j →
          s.bufferPool.pageTable.find? key = some j) ∧
        ∀ key, s'.pinsOf key = s.pinsOf key)
      { s with bufferPool := { s.bufferPool with
        cacheMisses := n
        lruList := s.bufferPool.lruList.dropLast
        lruMap := s.bufferPool.lruMap.erase victim.frameIdx } } := by
  obtain ⟨key, hk, hpin, hlt, htracks, hevict⟩ := evict_victim h.tracks hlast n
  have hold : ∀ {key' j}, (s.bufferPool.pageTable.erase key).find? key' = some j →
      s.bufferPool.pageTable.find? key' = some j := Dict.find?_of_find?_erase
  have h₁ : Booked d (some victim.frameIdx) _ := h.reframe htracks hold
  refine hevict.mpr ?_
  split
  case isFalse =>
    exact ⟨h₁, .of_giveUp hk hpin (fun _ => rfl) rfl rfl, hlt, hold, pinsOf_giveUp hk hpin rfl rfl⟩
  case isTrue =>
    obtain ⟨fh, hfh⟩ := h.handle hk
    rw [DiskManager.wp_writePage_store hfh]
    exact ⟨h₁.store hfh _, .of_giveUp hk hpin (DiskManager.path_store hfh) rfl rfl, hlt, hold,
      pinsOf_giveUp hk hpin rfl rfl⟩

theorem fetch_miss (h : Booked d none s) (hf : 0 ≤ f) {path : Str} (hpath : d.path f = some path)
    (hp : p ≠ INVALID_PAGE_ID) (hnone : s.bufferPool.pageTable.find? (f, p) = none)
    (hfull : ¬ Full s) (forWrite : Bool) :
    wp (fun _ => False) (Storage.fetchPage f p forWrite)
      (fun j s' => Booked d none s' ∧ Brought (f, p) j s s') s := by
  refine wp_fetch_miss h.tracks hnone hfull (fun hfree hlt htracks => ?_) fun hlast => ?_
  · have h₁ := h.reframe (htracks.cacheMisses (s.bufferPool.cacheMisses + 1)) id
    refine wp_mono (h₁.load hlt hf hpath hp hnone forWrite) ?_
    rintro j s' ⟨hs', ⟨hkeeps, htable, hpins⟩, hothers⟩
    exact ⟨hs', ⟨⟨hkeeps.paths, hkeeps.size, hkeeps.frames⟩, htable, hpins⟩, hothers⟩
  · refine wp_mono (h.evictVictim hlast) ?_
    rintro - s₁ ⟨h₁, hkeeps, hlt, hold, hpins⟩
    have hnone₁ : s₁.bufferPool.pageTable.find? (f, p) = none := by
      rw [Option.eq_none_iff_forall_ne_some]
      intro j hj
      rw [hold hj] at hnone
      cases hnone
    refine wp_mono (h₁.load hlt hf hpath hp hnone₁ forWrite) ?_
    rintro j s' ⟨hs', hgained, hothers⟩
    exact ⟨hs', hgained.trans hkeeps hpins, fun hj => (hothers hj).imp_right hold⟩

/-- A fetch of a valid page: it throws when no frame is there for it, and leaves the pool as it is
then. -/
theorem fetchPage (h : Booked d none s) (hf : 0 ≤ f) {path : Str} (hpath : d.path f = some path)
    (hp : p ≠ INVALID_PAGE_ID) (forWrite : Bool) :
    (∃ i s', (Storage.fetchPage f p forWrite).run s = (.ok i, s') ∧ Booked d none s' ∧
      Brought (f, p) i s s' ∧ ¬ (s.bufferPool.pageTable.find? (f, p) = none ∧ Full s)) ∨
    (∃ s', (Storage.fetchPage f p forWrite).run s = (.error allPinned, s') ∧ Booked d none s' ∧
      Still s s' ∧ s.bufferPool.pageTable.find? (f, p) = none ∧ Full s) := by
  cases hk : s.bufferPool.pageTable.find? (f, p) with
  | some i =>
    obtain ⟨j, s', hrun, hs', hbrought⟩ := wp_total.mp (h.fetch_hit hk forWrite)
    exact Or.inl ⟨j, s', hrun, hs', hbrought, fun hnone => by cases hnone.1⟩
  | none =>
    by_cases hfull : Full s
    case neg =>
      obtain ⟨j, s', hrun, hs', hbrought⟩ :=
        wp_total.mp (h.fetch_miss hf hpath hp hk hfull forWrite)
      exact Or.inl ⟨j, s', hrun, hs', hbrought, fun hnone => hfull hnone.2⟩
    case pos =>
      refine Or.inr ⟨_, run_fetchPage_full hk hfull forWrite, ?_, ⟨fun _ => rfl, rfl, rfl,
        fun _ => rfl⟩, rfl, hfull⟩
      exact h.reframe (h.tracks.cacheMisses _) id

/-! ## The other calls -/

/-- An unpin takes one pin off a pinned page; an unmatched one changes nothing. -/
theorem unpinPage (h : Booked d none s) (f : ℤ) (p : ℕ) (isDirty : Bool) :
    wp (fun _ => False) (Storage.unpinPage f p isDirty)
      (fun _ s' => Booked d none s' ∧ Keeps s s' ∧
        s'.bufferPool.pageTable = s.bufferPool.pageTable ∧
        ∀ key, s'.pinsOf key = s.pinsOf key - if key = (f, p) then 1 else 0) s := by
  have hnothing : s.pinsOf (f, p) = 0 → Booked d none s ∧ Keeps s s ∧
      s.bufferPool.pageTable = s.bufferPool.pageTable ∧
      ∀ key, s.pinsOf key = s.pinsOf key - if key = (f, p) then 1 else 0 := by
    refine fun hzero => ⟨h, (Still.refl s).keeps, rfl, fun key => ?_⟩
    by_cases heq : key = (f, p)
    · rw [heq, hzero, Nat.zero_sub]
    · rw [if_neg heq, Nat.sub_zero]
  simp only [Storage.unpinPage, wp_bind, wp_get]
  cases hk : s.bufferPool.pageTable.find? (makePageKey f p) with
  | none => exact hnothing (pinsOf_of_not_cached hk)
  | some i =>
    replace hk : s.bufferPool.pageTable.find? (f, p) = some i := hk
    obtain ⟨-, -, hc⟩ := h.tracks.table hk
    let frame : PageFrame := { s.bufferPool.frames i with
      pinCount := (s.bufferPool.frames i).pinCount - 1
      isDirty := (s.bufferPool.frames i).isDirty || isDirty }
    have hcar : Carries frame (f, p) := ⟨hc.fileId, hc.pageNum, hc.pageId, hc.file, hc.page⟩
    have hnext : ∀ {pool : BufferPool}, pool.Tracks none →
        pool.pageTable = s.bufferPool.pageTable → pool.poolSize = s.bufferPool.poolSize →
        pool.frames = (s.bufferPool.setFrame i frame).frames →
        Booked d none { s with bufferPool := pool } ∧ Keeps s { s with bufferPool := pool } ∧
          pool.pageTable = s.bufferPool.pageTable ∧
          ∀ key, Storage.pinsOf { s with bufferPool := pool } key =
            s.pinsOf key - if key = (f, p) then 1 else 0 := by
      intro pool htracks htable hsize hframes
      exact ⟨h.reframe htracks fun hj => htable ▸ hj,
        ⟨fun _ => rfl, hsize, fun _ => congrArg (Dict.find? · _) htable⟩, htable,
        pinsOf_unpin h.tracks hk htable hframes rfl⟩
    simp only
    split
    case isTrue hzero => exact hnothing ((pinsOf_of_cached hk).trans hzero)
    case isFalse hpin =>
      simp only [wp_bind, onPool, wp_modify]
      split
      case isTrue hlast => exact hnext (h.tracks.unpin hk hcar hpin hlast) rfl rfl rfl
      case isFalse hlast =>
        have hpin' : frame.pinCount = 0 ↔ (s.bufferPool.frames i).pinCount = 0 :=
          iff_of_false hlast hpin
        exact hnext (h.tracks.setFrame frame rfl rfl rfl hpin') rfl rfl rfl

/-- A cached page written back and its frame clean. -/
theorem writeBack (h : Booked d none s) {fh : FileHandle}
    (hfh : s.diskMgr.files.find? f = some fh) (i : ℕ) (data : Page) :
    let s' : Storage := ⟨s.diskMgr.store f fh p data,
      s.bufferPool.setFrame i { s.bufferPool.frames i with isDirty := false }⟩
    Booked d none s' ∧ Still s s' := by
  intro s'
  have htracks := h.tracks.setFrame (i := i) { s.bufferPool.frames i with isDirty := false }
    rfl rfl rfl Iff.rfl
  refine ⟨(h.store hfh data).reframe htracks id, DiskManager.path_store hfh, rfl, rfl, fun j => ?_⟩
  simp only [s', BufferPool.setFrame, Function.update_apply]
  split
  case isTrue hji => rw [hji]
  case isFalse => rfl

theorem flushPage (h : Booked d none s) (f : ℤ) (p : ℕ) :
    wp (fun _ => False) (Storage.flushPage f p) (fun _ s' => Booked d none s' ∧ Still s s') s := by
  simp only [Storage.flushPage, wp_bind, wp_get]
  cases hk : s.bufferPool.pageTable.find? (makePageKey f p) with
  | none => exact ⟨h, Still.refl s⟩
  | some i =>
    simp only
    split
    case isTrue =>
      obtain ⟨fh, hfh⟩ := h.handle hk
      simp only [wp_bind, onDisk, wp_zoom, onPool, wp_modify]
      exact (DiskManager.wp_writePage_store hfh).mpr (h.writeBack hfh i _)
    case isFalse => exact ⟨h, Still.refl s⟩

theorem flushFrame (h : Booked d none s) (hk : s.bufferPool.pageTable.find? key = some i) :
    wp (fun _ => False) (Storage.flushFrame i) (fun _ s' => Booked d none s' ∧ Still s s') s := by
  obtain ⟨-, -, hc⟩ := h.tracks.table hk
  simp only [Storage.flushFrame, wp_bind, wp_get]
  split
  case isTrue =>
    obtain ⟨fh, hfh⟩ := h.handle hk
    rw [← hc.fileId] at hfh
    simp only [wp_bind, onDisk, wp_zoom, onPool, wp_modify]
    exact (DiskManager.wp_writePage_store hfh).mpr (h.writeBack hfh i _)
  case isFalse => exact ⟨h, Still.refl s⟩

theorem flushAllPages (h : Booked d none s) :
    wp (fun _ => False) Storage.flushAllPages (fun _ s' => Booked d none s' ∧ Still s s') s := by
  simp only [Storage.flushAllPages, wp_bind, wp_get]
  refine wp_foldlM (fun _ _ s' => Booked d none s' ∧ Still s s') _ ?_ ⟨h, Still.refl s⟩
  rintro done ⟨key, i⟩ rest - s₁ hsplit ⟨h₁, hstill⟩
  have hk : s.bufferPool.pageTable.find? key = some i :=
    (Dict.mem_iff h.tracks.unique).mp (by rw [hsplit]; simp)
  have hk₁ : s₁.bufferPool.pageTable.find? key = some i := hstill.table ▸ hk
  refine wp_mono (h₁.flushFrame hk₁) ?_
  rintro - s₂ ⟨h₂, hstill₂⟩
  exact ⟨h₂, hstill.trans hstill₂⟩

/-- A client writes to a frame. -/
theorem setPageData (h : Booked d none s) (i : ℕ) (data : Page) :
    wp (fun _ => False) (Storage.setPageData i data)
      (fun _ s' => Booked d none s' ∧ Still s s') s := by
  simp only [Storage.setPageData, onPool, wp_modify]
  have htracks := h.tracks.setFrame (i := i) { s.bufferPool.frames i with data := data }
    rfl rfl rfl Iff.rfl
  refine ⟨h.reframe htracks id, fun _ => rfl, rfl, rfl, fun j => ?_⟩
  simp only [BufferPool.setFrame, Function.update_apply]
  split
  case isTrue hji => rw [hji]
  case isFalse => rfl

/-- There is no frame for another page exactly when every frame is pinned. -/
theorem full_iff (h : Booked d none s) : Full s ↔ ∀ i < s.bufferPool.poolSize,
    (∃ key, s.bufferPool.pageTable.find? key = some i) ∧ (s.bufferPool.frames i).pinCount ≠ 0 := by
  constructor
  · rintro ⟨hfree, hlast⟩ i hi
    have hkey := (h.tracks.room hi (by simp)).resolve_left (by simp [hfree])
    refine ⟨hkey, fun hpin => ?_⟩
    have hmem : i ∈ s.bufferPool.unpinned := h.tracks.lru.mpr ⟨hkey, hpin⟩
    simp [unpinned, List.getLast?_eq_none_iff.mp hlast] at hmem
  · intro hall
    constructor
    · refine List.eq_nil_iff_forall_not_mem.mpr fun i hi => ?_
      obtain ⟨hlt, -, -, hnone⟩ := h.tracks.free hi
      obtain ⟨⟨key, hkey⟩, -⟩ := hall i hlt
      exact hnone key hkey
    · refine List.getLast?_eq_none_iff.mpr (List.eq_nil_iff_forall_not_mem.mpr fun n hn => ?_)
      obtain ⟨⟨key, hkey⟩, hpin⟩ := h.tracks.lru.mp (mem_unpinned hn)
      exact (hall _ (h.tracks.table hkey).1).2 hpin

end Booked

end Storage

open Storage BufferPool

/-! ## Runs -/

/-- The calls of the pool, and the writes of its clients through the pointers they were given. -/
inductive PoolCall
  | fetchPage (fileId : ℤ) (pageNum : ℕ) (forWrite : Bool)
  | unpinPage (fileId : ℤ) (pageNum : ℕ) (isDirty : Bool)
  | flushPage (fileId : ℤ) (pageNum : ℕ)
  | flushAllPages
  | write (frameIdx : ℕ) (data : Page)

/-- The storage, and beside it how often each page was fetched since it was loaded and how often it
was unpinned since then by a call that found it pinned. -/
structure Tally where
  storage : Storage
  fetches : PageKey → ℕ
  unpins : PageKey → ℕ

/-- A page of an open file, with a page number that can be one. -/
def DiskManager.Valid (d : DiskManager) (fileId : ℤ) (pageNum : ℕ) : Prop :=
  0 ≤ fileId ∧ (d.path fileId).isSome ∧ pageNum ≠ INVALID_PAGE_ID

instance (d : DiskManager) (fileId : ℤ) (pageNum : ℕ) : Decidable (d.Valid fileId pageNum) :=
  inferInstanceAs (Decidable (_ ∧ _ ∧ _))

/-- The calls on valid pages. -/
def PoolCall.Valid (d : DiskManager) : PoolCall → Prop
  | fetchPage fileId pageNum _ => d.Valid fileId pageNum
  | unpinPage fileId pageNum _ => d.Valid fileId pageNum
  | flushPage fileId pageNum => d.Valid fileId pageNum
  | flushAllPages => True
  | write _ _ => True

instance (d : DiskManager) : (c : PoolCall) → Decidable (c.Valid d)
  | .fetchPage f p _ => inferInstanceAs (Decidable (d.Valid f p))
  | .unpinPage f p _ => inferInstanceAs (Decidable (d.Valid f p))
  | .flushPage f p => inferInstanceAs (Decidable (d.Valid f p))
  | .flushAllPages => .isTrue trivial
  | .write _ _ => .isTrue trivial

namespace Tally

/-- A new pool over a disk. -/
def new (d : DiskManager) (poolSize : ℕ) : Tally :=
  ⟨⟨d, BufferPool.new poolSize⟩, fun _ => 0, fun _ => 0⟩

/-- One call. An exception leaves the pool as the call left it, and its client goes on. -/
def call (t : Tally) : PoolCall → Tally
  | .fetchPage fileId pageNum forWrite =>
    match (fetchPage fileId pageNum forWrite).run t.storage with
    | (.ok _, s) =>
      if (t.storage.bufferPool.pageTable.find? (fileId, pageNum)).isSome then
        { t with
          storage := s
          fetches := Function.update t.fetches (fileId, pageNum) (t.fetches (fileId, pageNum) + 1) }
      else
        { storage := s
          fetches := Function.update t.fetches (fileId, pageNum) 1
          unpins := Function.update t.unpins (fileId, pageNum) 0 }
    | (.error _, s) => { t with storage := s }
  | .unpinPage fileId pageNum isDirty =>
    { t with
      storage := ((unpinPage fileId pageNum isDirty).run t.storage).2
      unpins := if 0 < t.storage.pinsOf (fileId, pageNum) then
          Function.update t.unpins (fileId, pageNum) (t.unpins (fileId, pageNum) + 1)
        else t.unpins }
  | .flushPage fileId pageNum =>
    { t with storage := ((flushPage fileId pageNum).run t.storage).2 }
  | .flushAllPages => { t with storage := (flushAllPages.run t.storage).2 }
  | .write frameIdx data => { t with storage := ((setPageData frameIdx data).run t.storage).2 }

/-- A new pool after a sequence of calls. -/
def run (d : DiskManager) (poolSize : ℕ) (calls : List PoolCall) : Tally :=
  calls.foldl call (new d poolSize)

/-- The pages that are cached are pinned as often as they were fetched and not unpinned. -/
structure Booked (d : DiskManager) (poolSize : ℕ) (t : Tally) : Prop where
  booked : t.storage.Booked d none
  size : t.storage.bufferPool.poolSize = poolSize
  pins : ∀ {key i}, t.storage.bufferPool.pageTable.find? key = some i →
    t.storage.pinsOf key + t.unpins key = t.fetches key

variable {d : DiskManager} {poolSize : ℕ} {t : Tally}

theorem booked_new (d : DiskManager) (poolSize : ℕ) : Booked d poolSize (new d poolSize) where
  booked := Storage.booked_new d poolSize
  size := rfl
  pins h := by cases h

/-- A call that neither pins nor unpins. -/
theorem Booked.still (h : Booked d poolSize t) {s : Storage} (hs : s.Booked d none)
    (hstill : Still t.storage s) : Booked d poolSize { t with storage := s } where
  booked := hs
  size := hstill.size.trans h.size
  pins hk := (congrArg (· + _) (hstill.pinsOf _)).trans (h.pins (hstill.table ▸ hk))

/-- One call keeps the bookkeeping, and the frames of the pinned pages. -/
theorem Booked.call (h : Booked d poolSize t) {c : PoolCall} (hc : c.Valid d) :
    Booked d poolSize (t.call c) ∧ Keeps t.storage (t.call c).storage := by
  have hreturns : ∀ {x : Program Storage Fault Unit} {Q : Storage → Prop},
      wp (fun _ => False) x (fun _ => Q) t.storage → Q (x.run t.storage).2 := by
    intro x Q hx
    obtain ⟨_, s', hrun, hs'⟩ := wp_total.mp hx
    rw [hrun]
    exact hs'
  cases c with
  | fetchPage f p w =>
    obtain ⟨hf, hpath, hp⟩ := hc
    obtain ⟨path, hpath⟩ := Option.isSome_iff_exists.mp hpath
    rcases h.booked.fetchPage hf hpath hp w with
      ⟨i, s', hrun, hs', ⟨⟨hkeeps, htable, hpins⟩, hothers⟩, -⟩ | ⟨s', hrun, hs', hstill, -, -⟩
    · have hsize : s'.bufferPool.poolSize = poolSize := hkeeps.size.trans h.size
      simp only [Tally.call, hrun]
      split
      case isTrue hsome =>
        obtain ⟨j, hj⟩ := Option.isSome_iff_exists.mp hsome
        refine ⟨⟨hs', hsize, fun {key k} hk => ?_⟩, hkeeps⟩
        show s'.pinsOf key + t.unpins key = Function.update t.fetches (f, p) _ key
        rw [hpins, Function.update_apply]
        by_cases heq : key = (f, p)
        · rw [if_pos heq, if_pos heq, heq, ← h.pins hj]
          omega
        · rw [if_neg heq, if_neg heq, ← h.pins ((hothers hk).resolve_left heq)]
          omega
      case isFalse hnone =>
        have hnone : t.storage.bufferPool.pageTable.find? (f, p) = none := by simpa using hnone
        refine ⟨⟨hs', hsize, fun {key k} hk => ?_⟩, hkeeps⟩
        show s'.pinsOf key + Function.update t.unpins (f, p) 0 key =
          Function.update t.fetches (f, p) 1 key
        rw [hpins, Function.update_apply, Function.update_apply]
        by_cases heq : key = (f, p)
        · rw [if_pos heq, if_pos heq, if_pos heq, heq, pinsOf_of_not_cached hnone]
        · rw [if_neg heq, if_neg heq, if_neg heq, ← h.pins ((hothers hk).resolve_left heq)]
          omega
    · simp only [Tally.call, hrun]
      exact ⟨h.still hs' hstill, hstill.keeps⟩
  | unpinPage f p isDirty =>
    obtain ⟨hs', hkeeps, htable, hpins⟩ := hreturns (h.booked.unpinPage f p isDirty)
    refine ⟨⟨hs', hkeeps.size.trans h.size, fun {key k} hk => ?_⟩, hkeeps⟩
    have hbefore := h.pins (htable ▸ hk)
    simp only [Tally.call] at hpins ⊢
    rw [hpins]
    by_cases heq : key = (f, p)
    · subst heq
      rw [if_pos rfl]
      split
      case isTrue hpos => rw [Function.update_self]; omega
      case isFalse hzero => omega
    · rw [if_neg heq]
      split
      case isTrue => rw [Function.update_of_ne heq]; omega
      case isFalse => omega
  | flushPage f p =>
    obtain ⟨hs', hstill⟩ := hreturns (h.booked.flushPage f p)
    exact ⟨h.still hs' hstill, hstill.keeps⟩
  | flushAllPages =>
    obtain ⟨hs', hstill⟩ := hreturns h.booked.flushAllPages
    exact ⟨h.still hs' hstill, hstill.keeps⟩
  | write i data =>
    obtain ⟨hs', hstill⟩ := hreturns (h.booked.setPageData i data)
    exact ⟨h.still hs' hstill, hstill.keeps⟩

theorem booked_run {calls : List PoolCall} (hvalid : ∀ c ∈ calls, c.Valid d) :
    Booked d poolSize (run d poolSize calls) := by
  suffices hfold : ∀ (calls : List PoolCall) (t : Tally), (∀ c ∈ calls, c.Valid d) →
      Booked d poolSize t → Booked d poolSize (calls.foldl call t) from
    hfold calls _ hvalid (booked_new d poolSize)
  intro calls
  induction calls with
  | nil => exact fun t _ ht => ht
  | cons c calls ih =>
    intro t hvalid ht
    exact ih _ (fun c' hc' => hvalid c' (List.mem_cons_of_mem c hc'))
      (ht.call (hvalid c List.mem_cons_self)).1

/-- The frame is in the page table. -/
def Mapped (pool : BufferPool) (i : ℕ) : Prop := ∃ key, pool.pageTable.find? key = some i

/-- The frame holds a pinned page. -/
def Pinned (pool : BufferPool) (i : ℕ) : Prop := Mapped pool i ∧ 0 < (pool.frames i).pinCount

/-- What the containers of the pool say about its frames. -/
structure Bookkeeping (t : Tally) : Prop where
  keys : t.storage.bufferPool.pageTable.Unique
  encodes : ∀ {key i}, t.storage.bufferPool.pageTable.find? key = some i →
    i < t.storage.bufferPool.poolSize ∧
      ((t.storage.bufferPool.frames i).fileId, (t.storage.bufferPool.frames i).pageNum) = key
  injective : ∀ {key key' i}, t.storage.bufferPool.pageTable.find? key = some i →
    t.storage.bufferPool.pageTable.find? key' = some i → key = key'
  once : ∀ {i j}, Mapped t.storage.bufferPool i → Mapped t.storage.bufferPool j →
    (t.storage.bufferPool.frames i).fileId = (t.storage.bufferPool.frames j).fileId →
    (t.storage.bufferPool.frames i).pageNum = (t.storage.bufferPool.frames j).pageNum → i = j
  indices : ∀ {i}, i ∈ t.storage.bufferPool.freeList ∨ i ∈ t.storage.bufferPool.unpinned →
    i < t.storage.bufferPool.poolSize
  freeNodup : t.storage.bufferPool.freeList.Nodup
  lruNodup : t.storage.bufferPool.unpinned.Nodup
  place : ∀ i < t.storage.bufferPool.poolSize,
    (i ∈ t.storage.bufferPool.freeList ∧ i ∉ t.storage.bufferPool.unpinned ∧
      ¬ Pinned t.storage.bufferPool i) ∨
    (i ∉ t.storage.bufferPool.freeList ∧ i ∈ t.storage.bufferPool.unpinned ∧
      ¬ Pinned t.storage.bufferPool i) ∨
    (i ∉ t.storage.bufferPool.freeList ∧ i ∉ t.storage.bufferPool.unpinned ∧
      Pinned t.storage.bufferPool i)
  lru : ∀ {i}, i ∈ t.storage.bufferPool.unpinned ↔
    Mapped t.storage.bufferPool i ∧ (t.storage.bufferPool.frames i).pinCount = 0
  nodes : (t.storage.bufferPool.lruList.map LruNode.id).Nodup
  positions : ∀ {i id}, t.storage.bufferPool.lruMap.find? i = some id ↔
    (⟨id, i⟩ : LruNode) ∈ t.storage.bufferPool.lruList
  pins : ∀ {key i}, t.storage.bufferPool.pageTable.find? key = some i →
    (t.storage.bufferPool.frames i).pinCount + t.unpins key = t.fetches key

theorem Booked.bookkeeping (h : Booked d poolSize t) : Bookkeeping t := by
  have htracks := h.booked.tracks
  have hfree : ∀ {i}, i ∈ t.storage.bufferPool.freeList → ¬ Mapped t.storage.bufferPool i :=
    fun hi ⟨key, hkey⟩ => (htracks.free hi).2.2.2 key hkey
  have hencodes : ∀ {key i}, t.storage.bufferPool.pageTable.find? key = some i →
      i < t.storage.bufferPool.poolSize ∧
        ((t.storage.bufferPool.frames i).fileId, (t.storage.bufferPool.frames i).pageNum) = key :=
    fun hk => ⟨(htracks.table hk).1,
      Prod.ext (htracks.table hk).2.2.fileId (htracks.table hk).2.2.pageNum⟩
  refine { keys := htracks.unique, encodes := hencodes, injective := htracks.key_eq,
           once := ?once, indices := ?indices, freeNodup := htracks.freeNodup,
           lruNodup := htracks.lruNodup, place := ?place, lru := htracks.lru,
           nodes := htracks.nodeNodup, positions := htracks.position, pins := ?pins }
  case once =>
    rintro i j ⟨key, hi⟩ ⟨key', hj⟩ hfile hnum
    obtain rfl : key = key' := by
      rw [← (hencodes hi).2, ← (hencodes hj).2, hfile, hnum]
    exact Option.some.inj (hi.symm.trans hj)
  case indices =>
    rintro i (hi | hi)
    · exact (htracks.free hi).1
    · obtain ⟨⟨key, hkey⟩, -⟩ := htracks.lru.mp hi
      exact (htracks.table hkey).1
  case place =>
    intro i hi
    rcases htracks.room hi (by simp) with hmem | hmapped
    · exact Or.inl ⟨hmem, fun hlru => hfree hmem (htracks.lru.mp hlru).1,
        fun hpinned => hfree hmem hpinned.1⟩
    · have hnot : i ∉ t.storage.bufferPool.freeList := fun hmem => hfree hmem hmapped
      rcases Nat.eq_zero_or_pos (t.storage.bufferPool.frames i).pinCount with hzero | hpos
      · exact Or.inr (Or.inl ⟨hnot, htracks.lru.mpr ⟨hmapped, hzero⟩,
          fun hpinned => Nat.lt_irrefl 0 (hzero ▸ hpinned.2)⟩)
      · exact Or.inr (Or.inr ⟨hnot, fun hlru => Nat.ne_of_gt hpos (htracks.lru.mp hlru).2,
          hmapped, hpos⟩)
  case pins =>
    intro key i hk
    rw [← pinsOf_of_cached hk]
    exact h.pins hk

/-- Over every run of calls on valid pages the containers agree, each call keeps the pinned pages in
their frames, and a fetch throws exactly when its page is not cached and every frame is pinned. -/
theorem run_bookkeeping (d : DiskManager) (poolSize : ℕ) (calls : List PoolCall)
    (hvalid : ∀ c ∈ calls, c.Valid d) :
    Bookkeeping (run d poolSize calls) ∧
    (run d poolSize calls).storage.bufferPool.poolSize = poolSize ∧
    (∀ c : PoolCall, c.Valid d → ∀ key i,
      (run d poolSize calls).storage.bufferPool.pageTable.find? key = some i →
      Pinned (run d poolSize calls).storage.bufferPool i →
      (run d poolSize (calls ++ [c])).storage.bufferPool.pageTable.find? key = some i) ∧
    ∀ fileId pageNum forWrite, d.Valid fileId pageNum →
      ((∃ e s', (fetchPage fileId pageNum forWrite).run (run d poolSize calls).storage =
          (.error e, s')) ↔
        (run d poolSize calls).storage.bufferPool.pageTable.find? (fileId, pageNum) = none ∧
          ∀ i < poolSize, Pinned (run d poolSize calls).storage.bufferPool i) := by
  have hbooked : Booked d poolSize (run d poolSize calls) := booked_run hvalid
  refine ⟨hbooked.bookkeeping, hbooked.size, ?kept, ?throws⟩
  case kept =>
    intro c hc key i hk hpinned
    have hkeeps := (hbooked.call hc).2
    have hpins : (run d poolSize calls).storage.pinsOf key ≠ 0 := by
      rw [pinsOf_of_cached hk]
      exact Nat.ne_of_gt hpinned.2
    have hrun : run d poolSize (calls ++ [c]) = (run d poolSize calls).call c := by
      simp [run, List.foldl_append]
    rw [hrun, hkeeps.frames hpins, hk]
  case throws =>
    rintro f p w ⟨hf, hsome, hp⟩
    obtain ⟨path, hpath⟩ := Option.isSome_iff_exists.mp hsome
    have hfull := hbooked.booked.full_iff
    rw [hbooked.size] at hfull
    rcases hbooked.booked.fetchPage hf hpath hp w with
      ⟨i, s', hrun, -, -, hnot⟩ | ⟨s', hrun, -, -, hnone, hall⟩
    · refine iff_of_false ?_ fun hthrow => hnot ⟨hthrow.1, hfull.mpr fun i hi => ?_⟩
      · rintro ⟨e, s'', herror⟩
        rw [hrun] at herror
        cases herror
      · exact ⟨(hthrow.2 i hi).1, Nat.ne_of_gt (hthrow.2 i hi).2⟩
    · refine iff_of_true ⟨_, _, hrun⟩ ⟨hnone, fun i hi => ?_⟩
      obtain ⟨hmapped, hpin⟩ := hfull.mp hall i hi
      exact ⟨hmapped, Nat.pos_of_ne_zero hpin⟩

/-- A disk with one open file. -/
def oneFile : DiskManager := ((DiskManager.createFile (lit "t.dat")).run (.new fun _ => none)).2

/-- One frame for three pages: pins that are ended, one that is not, and a fetch that throws. -/
theorem run_bookkeeping_one_frame :
    let calls : List PoolCall := [.fetchPage 1 0 true, .fetchPage 1 0 false, .unpinPage 1 0 true,
      .unpinPage 1 0 false, .unpinPage 1 0 false, .fetchPage 1 1 false, .fetchPage 1 2 false]
    Bookkeeping (run oneFile 1 calls) ∧ (run oneFile 1 calls).storage.pinsOf (1, 1) = 1 ∧
      ∃ e s', (fetchPage 1 2 false).run (run oneFile 1 calls).storage = (.error e, s') := by
  intro calls
  have hvalid : ∀ c ∈ calls, c.Valid oneFile := by decide +kernel
  have hthrow : (run oneFile 1 calls).storage.bufferPool.pageTable.find? (1, 2) = none ∧
      (run oneFile 1 calls).storage.bufferPool.pageTable.find? (1, 1) = some 0 ∧
      ((run oneFile 1 calls).storage.bufferPool.frames 0).pinCount = 1 := by
    decide +kernel
  obtain ⟨hnone, hk, hpin⟩ := hthrow
  obtain ⟨hbook, -, -, hiff⟩ := run_bookkeeping oneFile 1 calls hvalid
  refine ⟨hbook, (pinsOf_of_cached hk).trans hpin, (hiff 1 2 false ?_).mpr ⟨hnone, ?_⟩⟩
  · decide +kernel
  · intro i hi
    obtain rfl : i = 0 := by omega
    exact ⟨⟨_, hk⟩, by rw [hpin]; exact Nat.one_pos⟩

end Tally

end MiniDB
