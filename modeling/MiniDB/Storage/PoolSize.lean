import MiniDB.Foundations.LruStack
import MiniDB.Storage.Eviction

/-!
# More frames never hurt

Two pools with different numbers of frames get the same calls. When every fetch of the smaller pool
returns, every fetch of the larger one does, the pages cached by the smaller pool are cached by the
larger one after every call, and the larger pool misses no more often. The pool is seen as a cache
of least recently used keys: the pins of its pages, its unpinned pages in their order, the number of
its unused frames, and its statistics.

## Main definitions

* `Tally.lru`: the pool as a cache
* `Tally.Served`: a fetch returns

## Main results

* `Tally.Booked.lru_call`: a call of the pool is a call of the cache
* `Tally.more_frames_fewer_misses`: every run of calls
-/

namespace MiniDB

open Program

namespace Storage

open BufferPool Coherent

variable {s s' : Storage} {key : PageKey} {i : ℕ} {f : ℤ} {p : ℕ}

/-- The unused frames and the statistics are those of the other pool. -/
structure SameCounts (s s' : Storage) : Prop where
  free : s'.bufferPool.freeList = s.bufferPool.freeList
  hits : s'.bufferPool.cacheHits = s.bufferPool.cacheHits
  misses : s'.bufferPool.cacheMisses = s.bufferPool.cacheMisses

/-! ## Fetching a page -/

/-- A frame taken out of the list: the other nodes stay. -/
theorem lruList_removeLru {pool : BufferPool} (h : pool.Listed) :
    (pool.removeLru i).lruList = pool.lruList.filter fun n => n.frameIdx ≠ i := by
  unfold removeLru
  cases hfind : pool.lruMap.find? i with
  | none =>
    refine (List.filter_eq_self.mpr fun n hn => ?_).symm
    simp only [decide_not, Bool.not_eq_true', decide_eq_false_iff_not]
    intro he
    have hpos := h.position.mpr (show (⟨n.id, i⟩ : LruNode) ∈ pool.lruList from he ▸ hn)
    rw [hfind] at hpos
    cases hpos
  | some id =>
    have hmem : (⟨id, i⟩ : LruNode) ∈ pool.lruList := h.position.mp hfind
    refine List.filter_congr fun n hn => ?_
    have hiff : n.id = id ↔ n.frameIdx = i := by
      refine ⟨fun he => ?_, fun he => ?_⟩
      · rw [List.inj_on_of_nodup_map h.nodeNodup hn hmem he]
      · rw [List.inj_on_of_nodup_map h.lruNodup hn hmem he]
    simp [hiff]

/-- A hit takes its page out of the list. -/
theorem fetch_hit_takes (h : s.bufferPool.Tracks none)
    (hk : s.bufferPool.pageTable.find? (f, p) = some i) (w : Bool) :
    wp (fun _ => False) (fetchPage f p w) (fun _ s' =>
      s'.unpinnedPages = s.unpinnedPages.filter (· ≠ (f, p)) ∧
      s'.bufferPool.freeList = s.bufferPool.freeList ∧
      s'.bufferPool.cacheHits = s.bufferPool.cacheHits + 1 ∧
      s'.bufferPool.cacheMisses = s.bufferPool.cacheMisses) s := by
  have hk' : s.bufferPool.pageTable.find? (makePageKey f p) = some i := hk
  simp only [fetchPage, wp_bind, wp_get, hk', onPool, wp_modify, wp_pure]
  let frame : PageFrame := { s.bufferPool.frames i with
    pinCount := (s.bufferPool.frames i).pinCount + 1
    isDirty := (s.bufferPool.frames i).isDirty || w }
  let pool : BufferPool := { s.bufferPool with cacheHits := s.bufferPool.cacheHits + 1 }
  show unpinnedPages ⟨s.diskMgr, (pool.setFrame i frame).removeLru i⟩ = _ ∧ _
  rw [removeLru_setFrame]
  refine ⟨?_, removeLru_freeList, ?_, ?_⟩
  · have hframe : unpinnedPages ⟨s.diskMgr, (pool.removeLru i).setFrame i frame⟩ =
        unpinnedPages ⟨s.diskMgr, pool.removeLru i⟩ :=
      unpinnedPages_setFrame (by rw [removeLru_frames]) (by rw [removeLru_frames])
    have hlist : (pool.removeLru i).lruList = pool.lruList.filter fun n => n.frameIdx ≠ i :=
      lruList_removeLru (h.listed.congr rfl rfl rfl)
    rw [hframe]
    unfold unpinnedPages unpinned
    rw [hlist, List.map_map, List.map_map, List.filter_map, removeLru_frames]
    congr 1
    refine List.filter_congr fun n hn => ?_
    obtain ⟨⟨key, hkey⟩, -⟩ := h.lru.mp (mem_unpinned hn)
    have hpage := page_of_frame h hkey
    have hiff : n.frameIdx = i ↔ ((s.bufferPool.frames n.frameIdx).fileId,
        (s.bufferPool.frames n.frameIdx).pageNum) = (f, p) := by
      rw [hpage]
      refine ⟨fun he => h.key_eq hkey (he ▸ hk), fun he => ?_⟩
      rw [he] at hkey
      exact Option.some.inj (hkey.symm.trans hk)
    simp only [Function.comp_apply, decide_not, hiff]
  · unfold removeLru
    split <;> rfl
  · unfold removeLru
    split <;> rfl

/-- A page loaded into the frame on its way changes that frame and the page table. -/
theorem load_counts (w : Bool) :
    wp (fun _ => True) (load f p w i) (fun _ s' => SameCounts s s') s := by
  simp only [load, wp_bind, onDisk, wp_zoom, onPool, wp_modify, wp_pure]
  exact wp_of_forall (fun _ => trivial) fun _ _ => ⟨rfl, rfl, rfl⟩

theorem evict_counts (frame : PageFrame) :
    wp (fun _ => True) (evict frame) (fun _ s' => SameCounts s s') s := by
  unfold evict
  split
  case isFalse => exact ⟨rfl, rfl, rfl⟩
  case isTrue =>
    simp only [wp_bind, onPool, wp_modify]
    split
    case isFalse => exact ⟨rfl, rfl, rfl⟩
    case isTrue =>
      rw [onDisk, wp_zoom]
      exact wp_of_forall (fun _ => trivial) fun _ _ => ⟨rfl, rfl, rfl⟩

/-- A miss with an unused frame takes it, and leaves the list. -/
theorem fetch_miss_free (h : s.bufferPool.Tracks none)
    (hnone : s.bufferPool.pageTable.find? (f, p) = none) {rest : List ℕ}
    (hfree : s.bufferPool.freeList = i :: rest) (w : Bool) :
    wp (fun _ => True) (fetchPage f p w) (fun _ s' => s'.unpinnedPages = s.unpinnedPages ∧
      s'.bufferPool.freeList = rest ∧ s'.bufferPool.cacheHits = s.bufferPool.cacheHits ∧
      s'.bufferPool.cacheMisses = s.bufferPool.cacheMisses + 1) s := by
  obtain ⟨-, htracks⟩ := h.takeFree hfree
  have hnone' : s.bufferPool.pageTable.find? (makePageKey f p) = none := hnone
  let s₁ : Storage := { s with bufferPool := { s.bufferPool with
    cacheMisses := s.bufferPool.cacheMisses + 1, freeList := rest } }
  have hunused : ¬ (0 ≤ (s.bufferPool.frames i).fileId ∧
      (s.bufferPool.frames i).pageId ≠ INVALID_PAGE_ID) := by
    rw [(h.free (hfree ▸ List.mem_cons_self)).2.2.1]
    simp
  have hload : wp (fun _ => True) (load f p w i) (fun _ s' => s'.unpinnedPages = s.unpinnedPages ∧
      s'.bufferPool.freeList = rest ∧ s'.bufferPool.cacheHits = s.bufferPool.cacheHits ∧
      s'.bufferPool.cacheMisses = s.bufferPool.cacheMisses + 1) s₁ := by
    refine wp_mono (wp_and (load_keeps_list (s := s₁) (htracks.cacheMisses _) w)
      (load_counts (s := s₁) w)) ?_
    rintro j s' ⟨⟨-, hlist, -⟩, hcounts⟩
    exact ⟨hlist, hcounts.free, hcounts.hits, hcounts.misses⟩
  simp only [load, onPool, wp_bind, wp_modify, wp_pure] at hload
  simp only [fetchPage, wp_bind, wp_get, hnone', findVictimFrame, onPool, wp_modify, hfree, wp_pure,
    evict, if_neg hunused]
  exact hload

/-- A miss without an unused frame takes the last page of the list. -/
theorem fetch_miss_last (h : s.bufferPool.Tracks none)
    (hnone : s.bufferPool.pageTable.find? (f, p) = none) (hfree : s.bufferPool.freeList = [])
    (hlist : s.bufferPool.lruList.getLast? ≠ none) (w : Bool) :
    wp (fun _ => True) (fetchPage f p w) (fun _ s' =>
      s'.unpinnedPages = s.unpinnedPages.dropLast ∧ s'.bufferPool.freeList = [] ∧
      s'.bufferPool.cacheHits = s.bufferPool.cacheHits ∧
      s'.bufferPool.cacheMisses = s.bufferPool.cacheMisses + 1) s := by
  obtain ⟨key, i, -, -, hpages⟩ := fetch_evicts_last h hnone hfree hlist w
  have hcounts : wp (fun _ => True) (fetchPage f p w) (fun _ s' => s'.bufferPool.freeList = [] ∧
      s'.bufferPool.cacheHits = s.bufferPool.cacheHits ∧
      s'.bufferPool.cacheMisses = s.bufferPool.cacheMisses + 1) s := by
    refine wp_fetch_find hnone (fun hfull => hlist hfull.2) (fun hcons => ?_) fun _ => ?_
    · rw [hfree] at hcons
      cases hcons
    · refine wp_mono (evict_counts _) fun _ s₁ h₁ => wp_mono (load_counts w) fun _ s₂ h₂ => ?_
      exact ⟨(h₂.free.trans h₁.free).trans hfree, h₂.hits.trans h₁.hits, h₂.misses.trans h₁.misses⟩
  refine wp_mono (wp_and hpages hcounts) ?_
  rintro j s' ⟨⟨-, hlist, -⟩, hcounts⟩
  exact ⟨hlist, hcounts⟩

/-! ## The other calls -/

theorem unpinPage_counts (f : ℤ) (p : ℕ) (isDirty : Bool) :
    wp (fun _ => True) (unpinPage f p isDirty) (fun _ s' => SameCounts s s') s := by
  simp only [unpinPage, wp_bind, wp_get]
  split
  case h_1 => exact ⟨rfl, rfl, rfl⟩
  case h_2 =>
    split
    case isTrue => exact ⟨rfl, rfl, rfl⟩
    case isFalse =>
      simp only [wp_bind, onPool, wp_modify]
      split <;> exact ⟨rfl, rfl, rfl⟩

theorem flushPage_counts (f : ℤ) (p : ℕ) :
    wp (fun _ => True) (flushPage f p) (fun _ s' => SameCounts s s') s := by
  simp only [flushPage, wp_bind, wp_get]
  split
  case h_1 => exact ⟨rfl, rfl, rfl⟩
  case h_2 =>
    split
    case isTrue =>
      simp only [wp_bind, onDisk, wp_zoom, onPool, wp_modify]
      exact wp_of_forall (fun _ => trivial) fun _ _ => ⟨rfl, rfl, rfl⟩
    case isFalse => exact ⟨rfl, rfl, rfl⟩

theorem flushAllPages_counts :
    wp (fun _ => True) flushAllPages (fun _ s' => SameCounts s s') s := by
  simp only [flushAllPages, wp_bind, wp_get]
  refine wp_foldlM (fun _ _ s' => SameCounts s s') _ ?_ ⟨rfl, rfl, rfl⟩
  rintro done ⟨key, i⟩ rest - s₁ - h₁
  simp only [flushFrame, wp_bind, wp_get]
  split
  case isTrue =>
    simp only [wp_bind, onDisk, wp_zoom, onPool, wp_modify]
    exact wp_of_forall (fun _ => trivial) fun _ _ => ⟨h₁.free, h₁.hits, h₁.misses⟩
  case isFalse => exact h₁

end Storage

open Storage BufferPool Coherent

/-! ## Runs -/

/-- The call of the cache that a call of the pool is, if it is a fetch or an unpin. -/
def PoolCall.lru : PoolCall → Option (Lru.Call PageKey)
  | .fetchPage fileId pageNum _ => some (.pin (fileId, pageNum))
  | .unpinPage fileId pageNum _ => some (.unpin (fileId, pageNum))
  | .flushPage _ _ => none
  | .flushAllPages => none
  | .write _ _ => none

namespace Tally

/-- The pool as a cache of its pages. -/
def lru (t : Tally) : Lru.Cache PageKey where
  pins := t.storage.pinsOf
  queue := t.storage.unpinnedPages
  free := t.storage.bufferPool.freeList.length
  hits := t.storage.bufferPool.cacheHits
  misses := t.storage.bufferPool.cacheMisses

/-- If the call is a fetch, it returns. -/
def Served (t : Tally) : PoolCall → Prop
  | .fetchPage fileId pageNum forWrite =>
    ((fetchPage fileId pageNum forWrite).run t.storage).1.isOk = true
  | _ => True

instance (t : Tally) : ∀ c, Decidable (t.Served c)
  | .fetchPage .. => inferInstanceAs (Decidable (_ = true))
  | .unpinPage .. | .flushPage .. | .flushAllPages | .write .. => .isTrue trivial

/-- Every fetch among the calls returns. -/
def ServedAll : Tally → List PoolCall → Prop
  | _, [] => True
  | t, c :: calls => t.Served c ∧ ServedAll (t.call c) calls

instance : ∀ (t : Tally) (calls : List PoolCall), Decidable (t.ServedAll calls)
  | _, [] => .isTrue trivial
  | t, c :: calls =>
    have := instDecidableServedAll (t.call c) calls
    inferInstanceAs (Decidable (_ ∧ _))

variable {d : DiskManager} {poolSize : ℕ} {t : Tally} {c : PoolCall} {calls : List PoolCall}

/-- The keys in the cache are the pages in the page table. -/
theorem Booked.cached_iff (h : Booked d poolSize t) {key : PageKey} :
    t.lru.Cached key ↔ ∃ i, t.storage.bufferPool.pageTable.find? key = some i := by
  show t.storage.pinsOf key ≠ 0 ∨ key ∈ t.storage.unpinnedPages ↔ _
  rw [mem_unpinnedPages h.booked.tracks]
  constructor
  · rintro (hpin | ⟨hcached, -⟩)
    · exact Option.ne_none_iff_exists'.mp fun hnone => hpin (pinsOf_of_not_cached hnone)
    · exact hcached
  · intro hcached
    by_cases hpin : t.storage.pinsOf key = 0
    · exact Or.inr ⟨hcached, hpin⟩
    · exact Or.inl hpin

/-- A fetch pins its page in the cache, and it throws when the cache has no place for the page. -/
theorem Booked.lru_fetchPage (h : Booked d poolSize t) {f : ℤ} {p : ℕ} (hpage : d.Valid f p)
    (w : Bool) : t.lru.pin (f, p) = if t.Served (.fetchPage f p w)
      then some (t.call (.fetchPage f p w)).lru else none := by
  have htracks := h.booked.tracks
  obtain ⟨hf, hsome, hp⟩ := hpage
  obtain ⟨path, hpath⟩ := Option.isSome_iff_exists.mp hsome
  rcases h.booked.fetchPage hf hpath hp w with
    ⟨i, s', hrun, -, ⟨⟨-, -, hpins⟩, -⟩, hroom⟩ | ⟨s', hrun, -, -, hnone, hfull⟩
  · have hstorage : (t.call (.fetchPage f p w)).storage = s' := by
      simp only [Tally.call, hrun]
      split <;> rfl
    have hserved : t.Served (.fetchPage f p w) := by
      show ((fetchPage f p w).run t.storage).1.isOk = true
      rw [hrun]
      rfl
    have hpins' : s'.pinsOf = Function.update t.storage.pinsOf (f, p)
        (t.storage.pinsOf (f, p) + 1) := by
      funext key
      rw [hpins, Function.update_apply]
      split
      case isTrue heq => rw [heq]
      case isFalse => rfl
    rw [if_pos hserved]
    cases hk : t.storage.bufferPool.pageTable.find? (f, p) with
    | some j =>
      have hcached := h.cached_iff.mpr ⟨j, hk⟩
      obtain ⟨hlist, hfree, hhits, hmisses⟩ := wp_of_ok (fetch_hit_takes htracks hk w) hrun
      rw [Lru.Cache.pin_of_cached hcached]
      simp only [lru, hstorage, hpins', hlist, hfree, hhits, hmisses]
    | none =>
      have hcached : ¬ t.lru.Cached (f, p) := by
        rw [h.cached_iff, hk]
        simp
      cases hfree : t.storage.bufferPool.freeList with
      | cons j rest =>
        obtain ⟨hlist, hfree', hhits, hmisses⟩ := wp_of_ok (fetch_miss_free htracks hk hfree w) hrun
        rw [Lru.Cache.pin_of_free hcached (by simp [lru, hfree])]
        simp only [lru, hstorage, hpins', hlist, hfree', hhits, hmisses, hfree, List.length_cons,
          Nat.add_sub_cancel]
      | nil =>
        have hlru : t.storage.bufferPool.lruList.getLast? ≠ none :=
          fun hlast => hroom ⟨hk, hfree, hlast⟩
        have hqueue : t.storage.unpinnedPages ≠ [] := by
          intro hnil
          rw [unpinnedPages, unpinned, List.map_map, List.map_eq_nil_iff] at hnil
          rw [hnil] at hlru
          exact hlru rfl
        obtain ⟨hlist, hfree', hhits, hmisses⟩ :=
          wp_of_ok (fetch_miss_last htracks hk hfree hlru w) hrun
        rw [Lru.Cache.pin_of_last hcached (by simp [lru, hfree]) hqueue]
        simp only [lru, hstorage, hpins', hlist, hfree', hhits, hmisses, hfree]
  · have hserved : ¬ t.Served (.fetchPage f p w) := by
      show ¬ ((fetchPage f p w).run t.storage).1.isOk = true
      rw [hrun]
      simp [Except.isOk, Except.toBool]
    have hcached : ¬ t.lru.Cached (f, p) := by
      rw [h.cached_iff, hnone]
      simp
    have hfree : ¬ 0 < t.lru.free := by simp [lru, hfull.1]
    have hqueue : t.lru.queue = [] := by
      simp [lru, unpinnedPages, unpinned, List.getLast?_eq_none_iff.mp hfull.2]
    rw [if_neg hserved]
    exact Lru.Cache.pin_of_full hcached hfree hqueue

/-- An unpin of the pool is one of the cache. -/
theorem Booked.lru_unpinPage (h : Booked d poolSize t) (f : ℤ) (p : ℕ) (isDirty : Bool) :
    (t.call (.unpinPage f p isDirty)).lru = t.lru.unpin (f, p) := by
  have htracks := h.booked.tracks
  obtain ⟨_, s', hrun, -, -, -, hpins⟩ := wp_total.mp (h.booked.unpinPage f p isDirty)
  have hlist := wp_of_ok (unpinPage_pushes htracks f p isDirty) hrun
  obtain ⟨hfree, hhits, hmisses⟩ := wp_of_ok (unpinPage_counts f p isDirty) hrun
  have hstorage : (t.call (.unpinPage f p isDirty)).storage = s' := by
    simp only [Tally.call, hrun]
  have hpins' : s'.pinsOf = Function.update t.storage.pinsOf (f, p)
      (t.storage.pinsOf (f, p) - 1) := by
    funext key
    rw [hpins, Function.update_apply]
    split
    case isTrue heq => rw [heq]
    case isFalse => rfl
  unfold Lru.Cache.unpin
  split
  case isTrue hzero =>
    replace hzero : t.storage.pinsOf (f, p) = 0 := hzero
    rw [if_neg (by omega)] at hlist
    rw [hzero, Nat.zero_sub, ← hzero, Function.update_eq_self] at hpins'
    simp only [lru, hstorage, hpins', hlist, hfree, hhits, hmisses]
  case isFalse hpinned =>
    by_cases hone : t.storage.pinsOf (f, p) = 1
    case pos =>
      rw [if_pos hone] at hlist
      have hone' : t.lru.pins (f, p) = 1 := hone
      simp only [lru, hstorage, hpins', hlist, hfree, hhits, hmisses, hone, if_true]
    case neg =>
      rw [if_neg hone] at hlist
      have hone' : ¬ t.lru.pins (f, p) = 1 := hone
      simp only [lru, hstorage, hpins', hlist, hfree, hhits, hmisses, hone, if_false]

/-- A call that neither pins nor unpins. -/
theorem lru_of_still {t' : Tally} (hlist : t'.storage.unpinnedPages = t.storage.unpinnedPages)
    (hstill : Still t.storage t'.storage) (hcounts : SameCounts t.storage t'.storage) :
    t'.lru = t.lru := by
  have hpins : t'.storage.pinsOf = t.storage.pinsOf := funext hstill.pinsOf
  simp only [lru, hpins, hlist, hcounts.free, hcounts.hits, hcounts.misses]

/-- A call of the pool is a call of the cache, and it throws when there is none. -/
theorem Booked.lru_call (h : Booked d poolSize t) (hc : c.Valid d) :
    t.lru.run c.lru.toList = if t.Served c then some (t.call c).lru else none := by
  cases c with
  | fetchPage f p w =>
    rw [← h.lru_fetchPage hc w]
    show (t.lru.pin (f, p)).bind some = _
    cases t.lru.pin (f, p) <;> rfl
  | unpinPage f p isDirty =>
    rw [h.lru_unpinPage f p isDirty]
    rfl
  | flushPage f p =>
    obtain ⟨_, s', hrun, -, hstill⟩ := wp_total.mp (h.booked.flushPage f p)
    have hlist := wp_of_ok (flushPage_keeps f p) hrun
    have hcounts := wp_of_ok (flushPage_counts f p) hrun
    have hstorage : (t.call (.flushPage f p)).storage = s' := by simp only [Tally.call, hrun]
    exact congrArg some (lru_of_still (hstorage ▸ hlist) (hstorage ▸ hstill)
      (hstorage ▸ hcounts)).symm
  | flushAllPages =>
    obtain ⟨_, s', hrun, -, hstill⟩ := wp_total.mp h.booked.flushAllPages
    have hlist := wp_of_ok flushAllPages_keeps hrun
    have hcounts := wp_of_ok flushAllPages_counts hrun
    have hstorage : (t.call .flushAllPages).storage = s' := by simp only [Tally.call, hrun]
    exact congrArg some (lru_of_still (hstorage ▸ hlist) (hstorage ▸ hstill)
      (hstorage ▸ hcounts)).symm
  | write i data =>
    obtain ⟨_, s', hrun, -, hstill⟩ := wp_total.mp (h.booked.setPageData i data)
    obtain ⟨-, rfl⟩ := Prod.mk.inj hrun
    have hlru : (t.call (.write i data)).lru = t.lru :=
      lru_of_still (unpinnedPages_setFrame rfl rfl) hstill ⟨rfl, rfl, rfl⟩
    exact congrArg some hlru.symm

/-- A run of the pool is a run of the cache, and a fetch of it throws when there is none. -/
theorem Booked.lru_run (h : Booked d poolSize t) (hvalid : ∀ c ∈ calls, c.Valid d) :
    t.lru.run (calls.flatMap fun c => c.lru.toList) =
      if t.ServedAll calls then some (calls.foldl Tally.call t).lru else none := by
  induction calls generalizing t with
  | nil => exact (if_pos trivial).symm
  | cons c calls ih =>
    have hc := hvalid c List.mem_cons_self
    rw [List.flatMap_cons, Lru.Cache.run, List.foldlM_append]
    show (t.lru.run c.lru.toList >>= fun l => l.run _) = _
    rw [h.lru_call hc]
    by_cases hserved : t.Served c
    case pos =>
      rw [if_pos hserved]
      show (t.call c).lru.run _ = _
      rw [ih (h.call hc).1 fun c' hc' => hvalid c' (List.mem_cons_of_mem c hc')]
      simp only [ServedAll, hserved, true_and, List.foldl_cons]
    case neg =>
      rw [if_neg hserved, if_neg fun hall => hserved hall.1]
      rfl

/-- The smaller pool and the larger one, both new. -/
theorem within_new (d : DiskManager) {n m : ℕ} (h : n ≤ m) :
    Lru.Within (new d n).lru (new d m).lru where
  pins := rfl
  queue := List.prefix_refl _
  hits := Nat.le_refl _
  misses := Nat.le_refl _
  free _ := by
    refine ⟨rfl, ?_⟩
    show (List.range n).length ≤ (List.range m).length
    rwa [List.length_range, List.length_range]

/-- On every run of calls on valid pages in which every fetch of a pool returns, every fetch of a
pool with at least as many frames returns; it has the pages cached that the smaller one has, it hits
at least as often and it misses at most as often. -/
theorem more_frames_fewer_misses (d : DiskManager) {n m : ℕ} (hframes : n ≤ m)
    (calls : List PoolCall) (hvalid : ∀ c ∈ calls, c.Valid d)
    (hserved : (new d n).ServedAll calls) :
    (new d m).ServedAll calls ∧
    (∀ key i, (run d n calls).storage.bufferPool.pageTable.find? key = some i →
      ∃ j, (run d m calls).storage.bufferPool.pageTable.find? key = some j) ∧
    (run d n calls).storage.bufferPool.cacheHits ≤ (run d m calls).storage.bufferPool.cacheHits ∧
    (run d m calls).storage.bufferPool.cacheMisses ≤
      (run d n calls).storage.bufferPool.cacheMisses := by
  have hsmall := (booked_new d n).lru_run hvalid
  have hlarge := (booked_new d m).lru_run hvalid
  rw [if_pos hserved] at hsmall
  obtain ⟨c, hrun, hwithin⟩ := (within_new d hframes).run hsmall
  have hserved' : (new d m).ServedAll calls := by
    by_contra hnot
    rw [if_neg hnot, hrun] at hlarge
    cases hlarge
  rw [if_pos hserved', hrun] at hlarge
  obtain rfl := Option.some.inj hlarge
  refine ⟨hserved', fun key i hkey => ?_, hwithin.hits, hwithin.misses⟩
  exact (booked_run hvalid).cached_iff.mp (hwithin.cached ((booked_run hvalid).cached_iff.mpr
    ⟨i, hkey⟩))

/-- Three pages in turns: with two frames every fetch misses, with three the second turn hits. -/
theorem more_frames_fewer_misses_three_pages :
    let calls : List PoolCall := [.fetchPage 1 0 false, .unpinPage 1 0 false, .fetchPage 1 1 false,
      .unpinPage 1 1 false, .fetchPage 1 2 false, .unpinPage 1 2 false, .fetchPage 1 0 false]
    (run oneFile 2 calls).storage.bufferPool.cacheMisses = 4 ∧
      (run oneFile 3 calls).storage.bufferPool.cacheMisses ≤ 4 ∧
      ∃ j, (run oneFile 3 calls).storage.bufferPool.pageTable.find? (1, 2) = some j := by
  intro calls
  obtain ⟨-, hcached, -, hmisses⟩ := more_frames_fewer_misses oneFile (show 2 ≤ 3 by decide) calls
    (by decide +kernel) (by decide +kernel)
  have htwo : (run oneFile 2 calls).storage.bufferPool.cacheMisses = 4 ∧
      (run oneFile 2 calls).storage.bufferPool.pageTable.find? (1, 2) = some 0 := by decide +kernel
  exact ⟨htwo.1, htwo.1 ▸ hmisses, hcached (1, 2) 0 htwo.2⟩

end Tally

end MiniDB
