import MiniDB.Foundations.Machine
import MiniDB.Foundations.Recency
import MiniDB.Storage.Bookkeeping

/-!
# The order of eviction

The pool keeps the order in which its pages became unpinned only by their places in a list: an unpin
to zero puts the frame at the front, a hit takes it out from where it is, and an eviction takes the
last one. Over every run the list is in the order of the last drops to pin count zero, so that the
page given up for another one is the unpinned page whose last drop is the earliest.

## Main definitions

* `Storage.unpinnedPages`: the pages in the list of unpinned frames, the most recent one first
* `Tally.LastDrop`: the last call of a run at which the pin count of a page drops to zero

## Main results

* `Tally.fetch_evicts_earliest`: which page a fetch gives up
-/

namespace MiniDB

open Program

namespace Storage

open BufferPool Coherent

/-- The pages in the list of unpinned frames. -/
def unpinnedPages (s : Storage) : List PageKey := s.bufferPool.unpinned.map fun i =>
  ((s.bufferPool.frames i).fileId, (s.bufferPool.frames i).pageNum)

variable {s : Storage} {out : Option ℕ} {key : PageKey} {i : ℕ} {f : ℤ} {p : ℕ}

/-- The page of a frame of the page table. -/
theorem page_of_frame (h : s.bufferPool.Tracks out)
    (hk : s.bufferPool.pageTable.find? key = some i) :
    ((s.bufferPool.frames i).fileId, (s.bufferPool.frames i).pageNum) = key :=
  Prod.ext (h.table hk).2.2.fileId (h.table hk).2.2.pageNum

/-- The pages in the list are the cached pages that are not pinned. -/
theorem mem_unpinnedPages (h : s.bufferPool.Tracks out) : key ∈ s.unpinnedPages ↔
    (∃ i, s.bufferPool.pageTable.find? key = some i) ∧ s.pinsOf key = 0 := by
  unfold unpinnedPages
  rw [List.mem_map]
  constructor
  · rintro ⟨i, hi, rfl⟩
    obtain ⟨⟨key, hk⟩, hpin⟩ := h.lru.mp hi
    rw [page_of_frame h hk]
    exact ⟨⟨i, hk⟩, (pinsOf_of_cached hk).trans hpin⟩
  · rintro ⟨⟨i, hk⟩, hpin⟩
    exact ⟨i, h.lru.mpr ⟨⟨key, hk⟩, (pinsOf_of_cached hk).symm.trans hpin⟩, page_of_frame h hk⟩

/-- The pages of another pool with the same frames in its list, if these hold the same pages. -/
theorem unpinnedPages_congr {s' : Storage} (hlist : s'.bufferPool.lruList = s.bufferPool.lruList)
    (hpages : ∀ i ∈ s.bufferPool.unpinned,
      (s'.bufferPool.frames i).fileId = (s.bufferPool.frames i).fileId ∧
        (s'.bufferPool.frames i).pageNum = (s.bufferPool.frames i).pageNum) :
    s'.unpinnedPages = s.unpinnedPages := by
  unfold unpinnedPages
  have hsame : s'.bufferPool.unpinned = s.bufferPool.unpinned := by rw [unpinned, hlist, unpinned]
  rw [hsame]
  refine List.map_congr_left fun i hi => ?_
  rw [(hpages i hi).1, (hpages i hi).2]

/-- A frame replaced by one that holds the same page. -/
theorem unpinnedPages_setFrame {pool : BufferPool} {frame : PageFrame} {d d' : DiskManager}
    (hfile : frame.fileId = (pool.frames i).fileId)
    (hnum : frame.pageNum = (pool.frames i).pageNum) :
    unpinnedPages ⟨d, pool.setFrame i frame⟩ = unpinnedPages ⟨d', pool⟩ := by
  refine unpinnedPages_congr rfl fun j _ => ?_
  show (Function.update pool.frames i frame j).fileId = _ ∧
    (Function.update pool.frames i frame j).pageNum = _
  rw [Function.update_apply]
  split
  case isTrue hji => rw [hji]; exact ⟨hfile, hnum⟩
  case isFalse => exact ⟨rfl, rfl⟩

/-! ## Fetching a page -/

theorem unpinnedPages_removeLru {d : DiskManager} {pool : BufferPool} :
    (unpinnedPages ⟨d, pool.removeLru i⟩).Sublist (unpinnedPages ⟨d, pool⟩) := by
  unfold unpinnedPages
  rw [removeLru_frames]
  exact (removeLru_sublist.map _).map _

/-- A hit takes at most its own page out of the list. -/
theorem fetch_hit_thins (hk : s.bufferPool.pageTable.find? (f, p) = some i) (w : Bool) :
    wp (fun _ => True) (fetchPage f p w)
      (fun _ s' => s'.unpinnedPages.Sublist s.unpinnedPages) s := by
  have hk' : s.bufferPool.pageTable.find? (makePageKey f p) = some i := hk
  simp only [fetchPage, wp_bind, wp_get, hk', onPool, wp_modify, wp_pure]
  let frame : PageFrame := { s.bufferPool.frames i with
    pinCount := (s.bufferPool.frames i).pinCount + 1
    isDirty := (s.bufferPool.frames i).isDirty || w }
  let pool : BufferPool := { s.bufferPool with cacheHits := s.bufferPool.cacheHits + 1 }
  have hframe : unpinnedPages ⟨s.diskMgr, pool.setFrame i frame⟩ =
      unpinnedPages ⟨s.diskMgr, pool⟩ := unpinnedPages_setFrame rfl rfl
  have hsub : (unpinnedPages ⟨s.diskMgr, (pool.setFrame i frame).removeLru i⟩).Sublist
      (unpinnedPages ⟨s.diskMgr, pool.setFrame i frame⟩) := unpinnedPages_removeLru
  rw [hframe] at hsub
  exact hsub

/-- The frame on its way is not in the list. -/
theorem not_mem_unpinned {pool : BufferPool} (h : pool.Tracks (some i)) : i ∉ pool.unpinned := by
  intro hi
  obtain ⟨⟨key, hk⟩, -⟩ := h.lru.mp hi
  exact (h.table hk).2.1 rfl

/-- A page loaded into the frame on its way leaves the list, and adds its entry to the page
table. -/
theorem load_keeps_list (h : s.bufferPool.Tracks (some i)) (w : Bool) :
    wp (fun _ => True) (load f p w i) (fun j s' => j = i ∧ s'.unpinnedPages = s.unpinnedPages ∧
      s'.bufferPool.pageTable = s.bufferPool.pageTable.insert (f, p) i) s := by
  simp only [load, wp_bind, onDisk, wp_zoom, onPool, wp_modify, wp_pure]
  refine wp_of_forall (fun _ => trivial) fun data d => ⟨trivial, ?_, rfl⟩
  refine unpinnedPages_congr rfl fun j hj => ?_
  show (Function.update s.bufferPool.frames i _ j).fileId = _ ∧
    (Function.update s.bufferPool.frames i _ j).pageNum = _
  have hne : j ≠ i := fun hji => not_mem_unpinned h (hji ▸ hj)
  rw [Function.update_of_ne hne]
  exact ⟨rfl, rfl⟩

/-- The last page of the list given up, and another one loaded into its frame. -/
theorem evict_load (h : s.bufferPool.Tracks none) {victim : LruNode}
    (hlast : s.bufferPool.lruList.getLast? = some victim) (n : ℕ) (w : Bool) :
    ∃ key, s.unpinnedPages.getLast? = some key ∧
      s.bufferPool.pageTable.find? key = some victim.frameIdx ∧
      wp (fun _ => True) (evict (s.bufferPool.frames victim.frameIdx))
        (fun _ s₁ => wp (fun _ => True) (load f p w victim.frameIdx) (fun j s' =>
          j = victim.frameIdx ∧ s'.unpinnedPages = s.unpinnedPages.dropLast ∧
          s'.bufferPool.pageTable =
            (s.bufferPool.pageTable.erase key).insert (f, p) victim.frameIdx) s₁)
        { s with bufferPool := { s.bufferPool with
          cacheMisses := n
          lruList := s.bufferPool.lruList.dropLast
          lruMap := s.bufferPool.lruMap.erase victim.frameIdx } } := by
  obtain ⟨key, hk, -, -, htracks, hevict⟩ := evict_victim (G := fun _ => True) h hlast n
  refine ⟨key, ?_, hk, hevict.mpr ?_⟩
  · rw [unpinnedPages, unpinned, List.getLast?_map, List.getLast?_map, hlast]
    exact congrArg some (page_of_frame h hk)
  have hload : ∀ d, wp (fun _ => True) (load f p w victim.frameIdx) (fun j s' =>
      j = victim.frameIdx ∧ s'.unpinnedPages = s.unpinnedPages.dropLast ∧
      s'.bufferPool.pageTable = (s.bufferPool.pageTable.erase key).insert (f, p) victim.frameIdx)
      ⟨d, s.bufferPool.giveUp victim key n⟩ := by
    intro d
    refine wp_mono (load_keeps_list htracks w) fun j s' hs' => ⟨hs'.1, hs'.2.1.trans ?_, hs'.2.2⟩
    show List.map _ (List.map _ s.bufferPool.lruList.dropLast) = _
    rw [List.map_dropLast, List.map_dropLast]
    rfl
  split
  case isTrue => exact wp_of_forall (fun _ => trivial) fun _ d => hload d
  case isFalse => exact hload s.diskMgr

/-- The page that a miss gives up when there is no unused frame: the last one of the list. -/
theorem fetch_evicts_last (h : s.bufferPool.Tracks none)
    (hnone : s.bufferPool.pageTable.find? (f, p) = none) (hfree : s.bufferPool.freeList = [])
    (hlist : s.bufferPool.lruList.getLast? ≠ none) (w : Bool) :
    ∃ key i, s.unpinnedPages.getLast? = some key ∧ s.bufferPool.pageTable.find? key = some i ∧
      wp (fun _ => True) (fetchPage f p w) (fun j s' => j = i ∧
        s'.unpinnedPages = s.unpinnedPages.dropLast ∧
        s'.bufferPool.pageTable = (s.bufferPool.pageTable.erase key).insert (f, p) i) s := by
  obtain ⟨victim, hvictim⟩ := Option.ne_none_iff_exists'.mp hlist
  obtain ⟨key, hlast, hk, hwp⟩ := evict_load h hvictim (s.bufferPool.cacheMisses + 1) w
  refine ⟨key, victim.frameIdx, hlast, hk, ?_⟩
  refine wp_fetch_miss h hnone (fun hfull => hlist hfull.2) (fun hcons => ?_) fun hlast => ?_
  · rw [hfree] at hcons
    cases hcons
  · obtain rfl := Option.some.inj (hvictim.symm.trans hlast)
    exact hwp

/-- A fetch puts no page into the list. -/
theorem fetchPage_thins (h : s.bufferPool.Tracks none) (f : ℤ) (p : ℕ) (w : Bool)
    (hroom : ¬ (s.bufferPool.pageTable.find? (f, p) = none ∧ Full s)) :
    wp (fun _ => True) (fetchPage f p w)
      (fun _ s' => s'.unpinnedPages.Sublist s.unpinnedPages) s := by
  cases hk : s.bufferPool.pageTable.find? (f, p) with
  | some i => exact fetch_hit_thins hk w
  | none =>
    refine wp_fetch_miss h hk (fun hfull => hroom ⟨hk, hfull⟩) (fun _ _ htracks => ?_) fun hlast => ?_
    · refine wp_mono (load_keeps_list (htracks.cacheMisses _) w) fun j s' hs' => ?_
      rw [hs'.2.1]
      exact List.Sublist.refl _
    · obtain ⟨key, -, -, hwp⟩ := evict_load h hlast (s.bufferPool.cacheMisses + 1) w
      refine wp_mono hwp fun _ s₁ hload => wp_mono hload fun j s' hs' => ?_
      rw [hs'.2.1]
      exact List.dropLast_sublist _

/-! ## The other calls -/

/-- An unpin puts its page at the front of the list when its pin count drops to zero, and leaves the
list otherwise. -/
theorem unpinPage_pushes (h : s.bufferPool.Tracks none) (f : ℤ) (p : ℕ) (isDirty : Bool) :
    wp (fun _ => True) (unpinPage f p isDirty) (fun _ s' =>
      if s.pinsOf (f, p) = 1 then s'.unpinnedPages = (f, p) :: s.unpinnedPages
      else s'.unpinnedPages = s.unpinnedPages) s := by
  simp only [unpinPage, wp_bind, wp_get]
  cases hk : s.bufferPool.pageTable.find? (makePageKey f p) with
  | none =>
    have hzero : s.pinsOf (f, p) = 0 := pinsOf_of_not_cached hk
    simp only [wp_pure, hzero, Nat.zero_ne_one, if_false]
  | some i =>
    replace hk : s.bufferPool.pageTable.find? (f, p) = some i := hk
    rw [pinsOf_of_cached hk]
    simp only
    split
    case isTrue hzero => simp only [wp_pure, hzero, Nat.zero_ne_one, if_false]
    case isFalse hpin =>
      simp only [wp_bind, onPool, wp_modify]
      let frame : PageFrame := { s.bufferPool.frames i with
        pinCount := (s.bufferPool.frames i).pinCount - 1
        isDirty := (s.bufferPool.frames i).isDirty || isDirty }
      have hframe : unpinnedPages ⟨s.diskMgr, s.bufferPool.setFrame i frame⟩ = s.unpinnedPages :=
        unpinnedPages_setFrame rfl rfl
      split
      case isTrue hlast =>
        rw [wp_modify, if_pos (by omega), ← hframe, ← page_of_frame h hk]
        have hself : (s.bufferPool.setFrame i frame).frames i = frame := Function.update_self ..
        show ((((s.bufferPool.setFrame i frame).frames i).fileId,
          ((s.bufferPool.setFrame i frame).frames i).pageNum) : PageKey) :: _ = _
        rw [hself]
        rfl
      case isFalse hlast =>
        rw [wp_pure, if_neg (by omega)]
        exact hframe

theorem flushPage_keeps (f : ℤ) (p : ℕ) :
    wp (fun _ => True) (flushPage f p) (fun _ s' => s'.unpinnedPages = s.unpinnedPages) s := by
  simp only [flushPage, wp_bind, wp_get]
  cases s.bufferPool.pageTable.find? (makePageKey f p) with
  | none => exact rfl
  | some i =>
    simp only
    split
    case isTrue =>
      simp only [wp_bind, onDisk, wp_zoom, onPool, wp_modify]
      exact wp_of_forall (fun _ => trivial) fun _ d => unpinnedPages_setFrame rfl rfl
    case isFalse => exact rfl

theorem flushFrame_keeps (i : ℕ) :
    wp (fun _ => True) (flushFrame i) (fun _ s' => s'.unpinnedPages = s.unpinnedPages) s := by
  simp only [flushFrame, wp_bind, wp_get]
  split
  case isTrue =>
    simp only [wp_bind, onDisk, wp_zoom, onPool, wp_modify]
    exact wp_of_forall (fun _ => trivial) fun _ d => unpinnedPages_setFrame rfl rfl
  case isFalse => exact rfl

theorem flushAllPages_keeps :
    wp (fun _ => True) flushAllPages (fun _ s' => s'.unpinnedPages = s.unpinnedPages) s := by
  simp only [flushAllPages, wp_bind, wp_get]
  refine wp_foldlM (fun _ _ s' => unpinnedPages s' = s.unpinnedPages) _ ?_ rfl
  rintro done ⟨key, i⟩ rest - s₁ - hs₁
  exact wp_mono (flushFrame_keeps i) fun _ s₂ hs₂ => hs₂.trans hs₁

end Storage

open Storage BufferPool Coherent

/-! ## Runs -/

namespace Tally

/-- The last call of the run at which the pin count of the page drops to zero is the one with this
number. -/
def LastDrop (d : DiskManager) (poolSize : ℕ) (calls : List PoolCall) (key : PageKey) (k : ℕ) :
    Prop :=
  Recency.LastRelease call (fun t => t.storage.pinsOf) (new d poolSize) calls key k

variable {d : DiskManager} {poolSize : ℕ} {t : Tally}

/-- A call that leaves the list and the pins. -/
theorem moves_of_still {t' : Tally} (hlist : t'.storage.unpinnedPages = t.storage.unpinnedPages)
    (hstill : Still t.storage t'.storage) :
    Recency.Moves (fun t : Tally => t.storage.pinsOf) (fun t => t.storage.unpinnedPages) t t' :=
  .thin (hlist ▸ List.Sublist.refl _) fun key hkey => (hstill.pinsOf key).symm ▸ hkey

/-- A fetch takes pages out of the list: the one it pins, or the one it gives up. -/
theorem Booked.moves_fetchPage (h : Booked d poolSize t) {f : ℤ} {p : ℕ} (hpage : d.Valid f p)
    (w : Bool) :
    Recency.Moves (fun t : Tally => t.storage.pinsOf) (fun t => t.storage.unpinnedPages)
      t (t.call (.fetchPage f p w)) := by
  obtain ⟨hf, hsome, hp⟩ := hpage
  obtain ⟨path, hpath⟩ := Option.isSome_iff_exists.mp hsome
  rcases h.booked.fetchPage hf hpath hp w with
    ⟨i, s', hrun, -, ⟨⟨-, -, hpins⟩, -⟩, hroom⟩ | ⟨s', hrun, -, hstill, hnone, hfull⟩
  · have hsub := wp_of_ok (fetchPage_thins h.booked.tracks f p w hroom) hrun
    have hstorage : (t.call (.fetchPage f p w)).storage = s' := by
      simp only [Tally.call, hrun]
      split <;> rfl
    -- No pin count drops: the page fetched has one pin more, and the others keep theirs.
    refine .thin (hstorage ▸ hsub) fun key hkey => ?_
    rw [hstorage, hpins]
    omega
  · have hstorage : (t.call (.fetchPage f p w)).storage = s' := by simp only [Tally.call, hrun]
    rw [run_fetchPage_full hnone hfull] at hrun
    obtain ⟨-, rfl⟩ := Prod.mk.inj hrun
    exact moves_of_still (hstorage ▸ rfl) (hstorage ▸ hstill)

/-- An unpin puts the page at the front of the list when its last pin goes, and does nothing to the
list otherwise. -/
theorem Booked.moves_unpinPage (h : Booked d poolSize t) (f : ℤ) (p : ℕ) (isDirty : Bool) :
    Recency.Moves (fun t : Tally => t.storage.pinsOf) (fun t => t.storage.unpinnedPages)
      t (t.call (.unpinPage f p isDirty)) := by
  have htracks := h.booked.tracks
  obtain ⟨_, s', hrun, -, -, -, hpins⟩ := wp_total.mp (h.booked.unpinPage f p isDirty)
  have hlist := wp_of_ok (unpinPage_pushes htracks f p isDirty) hrun
  have hstorage : (t.call (.unpinPage f p isDirty)).storage = s' := by
    simp only [Tally.call, hrun]
  split at hlist
  case isTrue hone =>
    refine .push (f, p) (hstorage ▸ hlist) ?_ (by rw [hone]; exact Nat.one_ne_zero) ?_ ?_
    · intro hmem
      rw [((mem_unpinnedPages htracks).mp hmem).2] at hone
      cases hone
    · rw [hstorage, hpins, if_pos rfl, hone]
    · intro key hne hkey
      rw [hstorage, hpins, if_neg hne]
      exact hkey
  case isFalse hnotone =>
    refine .thin (hstorage ▸ hlist ▸ List.Sublist.refl _) fun key hkey => ?_
    rw [hstorage, hpins]
    split
    case isTrue heq =>
      rw [heq] at hkey ⊢
      omega
    case isFalse => exact hkey

/-- One call takes pages out of the list, or puts the one whose pin count drops to zero at the
front. -/
theorem Booked.moves (h : Booked d poolSize t) {c : PoolCall} (hc : c.Valid d) :
    Recency.Moves (fun t : Tally => t.storage.pinsOf) (fun t => t.storage.unpinnedPages)
      t (t.call c) := by
  cases c with
  | fetchPage f p w => exact h.moves_fetchPage hc w
  | unpinPage f p isDirty => exact h.moves_unpinPage f p isDirty
  | flushPage f p =>
    obtain ⟨_, s', hrun, -, hstill⟩ := wp_total.mp (h.booked.flushPage f p)
    have hlist := wp_of_ok (flushPage_keeps f p) hrun
    have hstorage : (t.call (.flushPage f p)).storage = s' := by simp only [Tally.call, hrun]
    exact moves_of_still (hstorage ▸ hlist) (hstorage ▸ hstill)
  | flushAllPages =>
    obtain ⟨_, s', hrun, -, hstill⟩ := wp_total.mp h.booked.flushAllPages
    have hlist := wp_of_ok flushAllPages_keeps hrun
    have hstorage : (t.call .flushAllPages).storage = s' := by simp only [Tally.call, hrun]
    exact moves_of_still (hstorage ▸ hlist) (hstorage ▸ hstill)
  | write i data =>
    obtain ⟨_, s', hrun, -, hstill⟩ := wp_total.mp (h.booked.setPageData i data)
    obtain ⟨-, rfl⟩ := Prod.mk.inj hrun
    exact moves_of_still (unpinnedPages_setFrame rfl rfl) hstill

/-- After every run the list of unpinned pages is in the order of their last drops. -/
theorem inOrder_of_run (d : DiskManager) (poolSize : ℕ) {calls : List PoolCall}
    (hvalid : ∀ c ∈ calls, c.Valid d) :
    Booked d poolSize (run d poolSize calls) ∧
      Recency.InOrder call (fun t : Tally => t.storage.pinsOf) (fun t => t.storage.unpinnedPages)
        (new d poolSize) calls :=
  Recency.inOrder_run (I := Booked d poolSize) (P := fun c => c.Valid d) rfl (booked_new d poolSize)
    (fun h hc => ⟨(h.call hc).1, h.moves hc⟩) calls hvalid

/-- After every run of calls on valid pages, a fetch of a page that is not cached and for which
there is no unused frame gives up the unpinned page whose last drop to pin count zero is the
earliest, and no other page leaves the cache; or it throws, because no cached page is unpinned, and
none leaves. -/
theorem fetch_evicts_earliest (d : DiskManager) (poolSize : ℕ) (calls : List PoolCall)
    (hvalid : ∀ c ∈ calls, c.Valid d) {f : ℤ} {p : ℕ} (hpage : d.Valid f p) (w : Bool)
    (hmiss : (run d poolSize calls).storage.bufferPool.pageTable.find? (f, p) = none)
    (hfree : (run d poolSize calls).storage.bufferPool.freeList = []) :
    let s := (run d poolSize calls).storage
    (∃ i s' victim k, (fetchPage f p w).run s = (.ok i, s') ∧
      s.bufferPool.pageTable.find? victim = some i ∧ s.pinsOf victim = 0 ∧
      LastDrop d poolSize calls victim k ∧
      (∀ key j, s.bufferPool.pageTable.find? key = some j → s.pinsOf key = 0 → key ≠ victim →
        ∃ k', LastDrop d poolSize calls key k' ∧ k < k') ∧
      s'.bufferPool.pageTable.find? victim = none ∧
      ∀ key j, s.bufferPool.pageTable.find? key = some j → key ≠ victim →
        s'.bufferPool.pageTable.find? key = some j) ∨
    ∃ s', (fetchPage f p w).run s = (.error allPinned, s') ∧
      (∀ key j, s.bufferPool.pageTable.find? key = some j → s.pinsOf key ≠ 0) ∧
      s'.bufferPool.pageTable = s.bufferPool.pageTable := by
  intro s
  obtain ⟨hbooked, horder⟩ := inOrder_of_run d poolSize hvalid
  have htracks : s.bufferPool.Tracks none := hbooked.booked.tracks
  obtain ⟨hf, hsome, hp⟩ := hpage
  obtain ⟨path, hpath⟩ := Option.isSome_iff_exists.mp hsome
  rcases hbooked.booked.fetchPage hf hpath hp w with
    ⟨j, s', hrun, -, -, hroom⟩ | ⟨s', hrun, -, hstill, -, hfull⟩
  · -- The page given up is the last of the list, and the list is in the order of the last drops.
    have hlist : s.bufferPool.lruList.getLast? ≠ none := fun hlast => hroom ⟨hmiss, hfree, hlast⟩
    obtain ⟨victim, i, hlast, hk, hwp⟩ := fetch_evicts_last htracks hmiss hfree hlist w
    obtain ⟨rfl, -, htable⟩ := wp_of_ok hwp hrun
    obtain ⟨k, hdrop, hlater⟩ := horder.earliest hlast
    have hpins := ((mem_unpinnedPages htracks).mp (List.mem_of_getLast? hlast)).2
    have hne : victim ≠ (f, p) := by
      rintro rfl
      rw [hmiss] at hk
      cases hk
    refine Or.inl ⟨j, s', victim, k, hrun, hk, hpins, hdrop, ?_, ?_, ?_⟩
    · intro key i' hkey hzero hother
      exact hlater key ((mem_unpinnedPages htracks).mpr ⟨⟨i', hkey⟩, hzero⟩) hother
    · rw [htable, Dict.find?_insert_of_ne _ _ hne, Dict.find?_erase_self]
    · intro key i' hkey hother
      have hmissed : key ≠ (f, p) := by
        rintro rfl
        rw [hmiss] at hkey
        cases hkey
      rw [htable, Dict.find?_insert_of_ne _ _ hmissed, Dict.find?_erase_of_ne _ hother, hkey]
  · refine Or.inr ⟨s', hrun, fun key i hkey => ?_, hstill.table⟩
    obtain ⟨-, hpin⟩ := hbooked.booked.full_iff.mp hfull i (htracks.table hkey).1
    rw [pinsOf_of_cached hkey]
    exact hpin

/-- Two frames for three pages: the page `0` is pinned again, so the page `1` is given up. -/
theorem fetch_evicts_earliest_two_frames :
    let calls : List PoolCall := [.fetchPage 1 0 true, .unpinPage 1 0 false, .fetchPage 1 1 false,
      .unpinPage 1 1 false, .fetchPage 1 0 false, .unpinPage 1 0 false]
    let s := (run oneFile 2 calls).storage
    ∃ i s' k, (fetchPage 1 2 false).run s = (.ok i, s') ∧ LastDrop oneFile 2 calls (1, 1) k ∧
      s'.bufferPool.pageTable.find? (1, 1) = none ∧
      s'.bufferPool.pageTable.find? (1, 0) = some 0 := by
  intro calls s
  have hvalid : ∀ c ∈ calls, c.Valid oneFile := by decide +kernel
  have hview : s.bufferPool.pageTable.find? (1, 2) = none ∧ s.bufferPool.freeList = [] ∧
      s.bufferPool.pageTable.find? (1, 0) = some 0 ∧ s.bufferPool.pageTable.find? (1, 1) = some 1 ∧
      ((fetchPage 1 2 false).run s).1.toOption = some 1 := by decide +kernel
  obtain ⟨hmiss, hfree, hzero, hone, hfetch⟩ := hview
  have hresult := run_of_result (Machine.toOption_eq_some.mp hfetch)
  have hbooked := (inOrder_of_run oneFile 2 hvalid).1
  rcases fetch_evicts_earliest oneFile 2 calls hvalid (by decide +kernel) false hmiss hfree with
    ⟨i, s', victim, k, hrun, hk, -, hdrop, -, hgone, hkept⟩ | ⟨s', hrun, -⟩
  · obtain ⟨hi, rfl⟩ := Prod.mk.inj (hrun.symm.trans hresult)
    rw [Except.ok.inj hi] at hk
    obtain rfl : victim = (1, 1) := hbooked.booked.tracks.key_eq hk hone
    exact ⟨i, _, k, hrun, hdrop, hgone, hkept (1, 0) 0 hzero (by decide)⟩
  · rw [hresult] at hrun
    exact absurd (Prod.mk.inj hrun).1 (by simp)

end Tally

end MiniDB
