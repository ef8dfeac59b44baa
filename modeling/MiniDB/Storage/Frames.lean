import MiniDB.Storage.BufferPool

/-!
# The bookkeeping of the buffer pool

Every frame of the pool is unused, or it holds the page that the page table names it for; the
unpinned ones among the latter are exactly those in the list of unpinned frames, at the positions
the map of the list says. A frame on its way from one page to another is in no list and in no entry
of the page table.

## Main definitions

* `Listed pool`: the list of unpinned frames and the map of its positions agree
* `Tracks out pool`: the bookkeeping is right, with the frame `out` on its way
* `Storage.load`: the part of a fetch that reads a page into the frame found for it

## Main results

* `Listed.removeLru`, `Listed.pushLru`, `Listed.dropLast`: what happens to the list
* `tracks_new`: the pool as constructed
* `Tracks.pin`, `Tracks.unpin`: a cached page pinned and unpinned
* `Tracks.takeFree`, `Tracks.takeVictim`: a frame taken for another page
* `Tracks.install`: the frame given its new page
* `Storage.evict_victim`, `Storage.wp_fetch_find`, `Storage.wp_fetch_miss`: a fetch of a page that
  is not cached
-/

namespace MiniDB

namespace BufferPool

/-- The frame holds the page of the key. -/
structure Carries (frame : PageFrame) (key : PageKey) : Prop where
  fileId : frame.fileId = key.1
  pageNum : frame.pageNum = key.2
  pageId : frame.pageId = key.2
  file : 0 ≤ key.1
  page : key.2 ≠ INVALID_PAGE_ID

/-- The frames in the list of unpinned frames. -/
def unpinned (pool : BufferPool) : List ℕ := pool.lruList.map LruNode.frameIdx

variable {pool : BufferPool} {out : Option ℕ} {key : PageKey} {i : ℕ}

/-! ## The list of unpinned frames -/

/-- The list of unpinned frames has no frame and no node twice, and the map says where each frame
stands. -/
structure Listed (pool : BufferPool) : Prop where
  lruNodup : pool.unpinned.Nodup
  nodeLt : ∀ {n}, n ∈ pool.lruList → n.id < pool.nextNode
  nodeNodup : (pool.lruList.map LruNode.id).Nodup
  position : ∀ {i id}, pool.lruMap.find? i = some id ↔ (⟨id, i⟩ : LruNode) ∈ pool.lruList

theorem listed_new (poolSize : ℕ) : Listed (new poolSize) where
  lruNodup := List.nodup_nil
  nodeLt h := absurd h (by simp [new])
  nodeNodup := List.nodup_nil
  position := by simp [new]

theorem mem_unpinned {n : LruNode} (hn : n ∈ pool.lruList) : n.frameIdx ∈ pool.unpinned :=
  List.mem_map_of_mem hn

theorem removeLru_sublist : (pool.removeLru i).lruList.Sublist pool.lruList := by
  unfold removeLru
  split
  · exact List.Sublist.refl _
  · exact List.filter_sublist

theorem find?_lruMap_removeLru (j : ℕ) :
    (pool.removeLru i).lruMap.find? j = if j = i then none else pool.lruMap.find? j := by
  unfold removeLru
  split
  case h_1 hnone =>
    split
    case isTrue hj => rw [hj, hnone]
    case isFalse => rfl
  case h_2 => exact Dict.find?_erase ..

@[simp] theorem removeLru_frames : (pool.removeLru i).frames = pool.frames := by
  unfold removeLru; split <;> rfl

@[simp] theorem removeLru_pageTable : (pool.removeLru i).pageTable = pool.pageTable := by
  unfold removeLru; split <;> rfl

@[simp] theorem removeLru_freeList : (pool.removeLru i).freeList = pool.freeList := by
  unfold removeLru; split <;> rfl

@[simp] theorem removeLru_poolSize : (pool.removeLru i).poolSize = pool.poolSize := by
  unfold removeLru; split <;> rfl

@[simp] theorem removeLru_nextNode : (pool.removeLru i).nextNode = pool.nextNode := by
  unfold removeLru; split <;> rfl

theorem removeLru_setFrame (frame : PageFrame) :
    (pool.setFrame i frame).removeLru i = (pool.removeLru i).setFrame i frame := by
  have hmap : (pool.setFrame i frame).lruMap = pool.lruMap := rfl
  unfold removeLru
  rw [hmap]
  cases pool.lruMap.find? i <;> rfl

namespace Listed

theorem congr {pool' : BufferPool} (h : Listed pool) (hlist : pool'.lruList = pool.lruList)
    (hmap : pool'.lruMap = pool.lruMap) (hnext : pool'.nextNode = pool.nextNode) :
    Listed pool' where
  lruNodup := by rw [unpinned, hlist]; exact h.lruNodup
  nodeLt := by rw [hlist, hnext]; exact h.nodeLt
  nodeNodup := by rw [hlist]; exact h.nodeNodup
  position := by rw [hlist, hmap]; exact h.position

/-- The list without the node of a frame. -/
theorem mem_lruList_removeLru (h : Listed pool) {n : LruNode} :
    n ∈ (pool.removeLru i).lruList ↔ n ∈ pool.lruList ∧ n.frameIdx ≠ i := by
  unfold removeLru
  cases hfind : pool.lruMap.find? i with
  | none =>
    refine ⟨fun hn => ⟨hn, fun he => ?_⟩, And.left⟩
    have hpos : pool.lruMap.find? i = some n.id ↔ _ := h.position
    rw [hfind] at hpos
    exact absurd (hpos.mpr (he ▸ hn)) (by simp)
  | some id =>
    have hmem : (⟨id, i⟩ : LruNode) ∈ pool.lruList := h.position.mp hfind
    simp only [List.mem_filter, decide_eq_true_eq]
    refine and_congr_right fun hn => not_congr ⟨fun he => ?_, fun he => ?_⟩
    · rw [List.inj_on_of_nodup_map h.nodeNodup hn hmem he]
    · rw [List.inj_on_of_nodup_map h.lruNodup hn hmem he]

theorem mem_unpinned_removeLru (h : Listed pool) {j : ℕ} :
    j ∈ (pool.removeLru i).unpinned ↔ j ∈ pool.unpinned ∧ j ≠ i := by
  simp only [unpinned, List.mem_map]
  constructor
  · rintro ⟨n, hn, rfl⟩
    obtain ⟨hmem, hne⟩ := h.mem_lruList_removeLru.mp hn
    exact ⟨⟨n, hmem, rfl⟩, hne⟩
  · rintro ⟨⟨n, hn, rfl⟩, hne⟩
    exact ⟨n, h.mem_lruList_removeLru.mpr ⟨hn, hne⟩, rfl⟩

/-- A frame taken out of the list. -/
theorem removeLru (h : Listed pool) : Listed (pool.removeLru i) where
  lruNodup := h.lruNodup.sublist (removeLru_sublist.map _)
  nodeLt hn := by
    rw [removeLru_nextNode]
    exact h.nodeLt (removeLru_sublist.subset hn)
  nodeNodup := h.nodeNodup.sublist (removeLru_sublist.map _)
  position {j id} := by
    rw [find?_lruMap_removeLru, h.mem_lruList_removeLru]
    by_cases hji : j = i
    · simp [hji]
    · simp [hji, h.position]

/-- A frame put at the front of the list. -/
theorem pushLru (h : Listed pool) (habsent : i ∉ pool.unpinned) : Listed (pool.pushLru i) where
  lruNodup := List.nodup_cons.mpr ⟨habsent, h.lruNodup⟩
  nodeLt {n} hn := by
    rcases List.mem_cons.mp hn with rfl | hn
    · exact Nat.lt_succ_self _
    · exact Nat.lt_succ_of_lt (h.nodeLt hn)
  nodeNodup := by
    refine List.nodup_cons.mpr ⟨fun hmem => ?_, h.nodeNodup⟩
    obtain ⟨n, hn, hid⟩ := List.mem_map.mp hmem
    exact absurd (h.nodeLt hn) (by rw [hid]; exact Nat.lt_irrefl _)
  position {j id} := by
    have hnode : (⟨id, i⟩ : LruNode) ∉ pool.lruList := fun hn => habsent (mem_unpinned hn)
    show (pool.lruMap.insert i pool.nextNode).find? j = some id ↔
      _ ∈ (⟨pool.nextNode, i⟩ : LruNode) :: pool.lruList
    rw [Dict.find?_insert, List.mem_cons]
    by_cases hji : j = i
    · subst hji
      simp [hnode, eq_comm]
    · simp [hji, h.position]

section Victim

variable {victim : LruNode}

/-- What is left of the list without its last node: the nodes of the other frames. -/
theorem mem_dropLast (h : Listed pool) (hlast : pool.lruList.getLast? = some victim)
    {n : LruNode} :
    n ∈ pool.lruList.dropLast ↔ n ∈ pool.lruList ∧ n.frameIdx ≠ victim.frameIdx := by
  obtain ⟨front, hsplit⟩ := List.getLast?_eq_some_iff.mp hlast
  have hnodup : (front.map LruNode.frameIdx ++ [victim.frameIdx]).Nodup := by
    have := h.lruNodup
    rwa [unpinned, hsplit, List.map_append] at this
  have hnot : victim.frameIdx ∉ front.map LruNode.frameIdx := by
    intro hin
    exact (List.nodup_append.mp hnodup).2.2 _ hin _ (List.mem_singleton_self _) rfl
  rw [hsplit, List.dropLast_concat, List.mem_append, List.mem_singleton]
  constructor
  · exact fun hn => ⟨Or.inl hn, fun he => hnot (he ▸ List.mem_map_of_mem hn)⟩
  · rintro ⟨hn | rfl, hne⟩
    · exact hn
    · exact absurd rfl hne

theorem mem_map_dropLast (h : Listed pool) (hlast : pool.lruList.getLast? = some victim) {j : ℕ} :
    j ∈ pool.lruList.dropLast.map LruNode.frameIdx ↔
      j ∈ pool.unpinned ∧ j ≠ victim.frameIdx := by
  simp only [unpinned, List.mem_map]
  constructor
  · rintro ⟨n, hn, rfl⟩
    obtain ⟨hmem, hne⟩ := (h.mem_dropLast hlast).mp hn
    exact ⟨⟨n, hmem, rfl⟩, hne⟩
  · rintro ⟨⟨n, hn, rfl⟩, hne⟩
    exact ⟨n, (h.mem_dropLast hlast).mpr ⟨hn, hne⟩, rfl⟩

/-- The least recently used frame taken out of the list. -/
theorem dropLast (h : Listed pool) (hlast : pool.lruList.getLast? = some victim) :
    Listed { pool with
      lruList := pool.lruList.dropLast
      lruMap := pool.lruMap.erase victim.frameIdx } where
  lruNodup := h.lruNodup.sublist ((List.dropLast_sublist _).map _)
  nodeLt hn := h.nodeLt ((h.mem_dropLast hlast).mp hn).1
  nodeNodup := h.nodeNodup.sublist ((List.dropLast_sublist _).map _)
  position {j id} := by
    rw [Dict.find?_erase, h.mem_dropLast hlast]
    split
    case isTrue hj => simp [hj]
    case isFalse hj => simp [hj, h.position]

end Victim

end Listed

/-! ## Every frame -/

/-- The bookkeeping of the pool, with the frame `out` on its way to another page. -/
structure Tracks (out : Option ℕ) (pool : BufferPool) : Prop where
  unique : pool.pageTable.Unique
  table : ∀ {key i}, pool.pageTable.find? key = some i →
    i < pool.poolSize ∧ some i ≠ out ∧ Carries (pool.frames i) key
  free : ∀ {i}, i ∈ pool.freeList →
    i < pool.poolSize ∧ some i ≠ out ∧ (pool.frames i).fileId = -1 ∧
      ∀ key, pool.pageTable.find? key ≠ some i
  freeNodup : pool.freeList.Nodup
  lru : ∀ {i}, i ∈ pool.unpinned ↔
    (∃ key, pool.pageTable.find? key = some i) ∧ (pool.frames i).pinCount = 0
  lruNodup : pool.unpinned.Nodup
  nodeLt : ∀ {n}, n ∈ pool.lruList → n.id < pool.nextNode
  nodeNodup : (pool.lruList.map LruNode.id).Nodup
  position : ∀ {i id}, pool.lruMap.find? i = some id ↔ (⟨id, i⟩ : LruNode) ∈ pool.lruList
  room : ∀ {i}, i < pool.poolSize → some i ≠ out →
    i ∈ pool.freeList ∨ ∃ key, pool.pageTable.find? key = some i

theorem tracks_new (poolSize : ℕ) : Tracks none (new poolSize) where
  unique := Dict.unique_empty
  table h := absurd h (by simp [new])
  free h := ⟨List.mem_range.mp h, by simp, rfl, by simp [new]⟩
  freeNodup := List.nodup_range
  lru := by simp [new, unpinned]
  lruNodup := (listed_new poolSize).lruNodup
  nodeLt := (listed_new poolSize).nodeLt
  nodeNodup := (listed_new poolSize).nodeNodup
  position := (listed_new poolSize).position
  room h _ := Or.inl (List.mem_range.mpr h)

theorem Carries.key_eq {frame : PageFrame} {key key' : PageKey} (h : Carries frame key)
    (h' : Carries frame key') : key = key' :=
  Prod.ext (h.fileId.symm.trans h'.fileId) (h.pageNum.symm.trans h'.pageNum)

namespace Tracks

theorem listed (h : Tracks out pool) : Listed pool :=
  ⟨h.lruNodup, h.nodeLt, h.nodeNodup, h.position⟩

/-- A frame holds one page. -/
theorem key_eq (h : Tracks out pool) {key key' : PageKey} (hk : pool.pageTable.find? key = some i)
    (hk' : pool.pageTable.find? key' = some i) : key = key' :=
  (h.table hk).2.2.key_eq (h.table hk').2.2

/-- The bookkeeping does not look at the bytes of a frame, nor at how often it is pinned. -/
theorem setFrame (h : Tracks out pool) (frame : PageFrame)
    (hfile : frame.fileId = (pool.frames i).fileId) (hnum : frame.pageNum = (pool.frames i).pageNum)
    (hid : frame.pageId = (pool.frames i).pageId)
    (hpin : frame.pinCount = 0 ↔ (pool.frames i).pinCount = 0) :
    Tracks out (pool.setFrame i frame) := by
  have hget : ∀ j, (pool.setFrame i frame).frames j = if j = i then frame else pool.frames j :=
    fun j => Function.update_apply ..
  refine { unique := h.unique, freeNodup := h.freeNodup, lruNodup := h.lruNodup, nodeLt := h.nodeLt,
           nodeNodup := h.nodeNodup, position := h.position, room := h.room,
           table := ?table, free := ?free, lru := ?lru }
  case table =>
    intro key j hj
    obtain ⟨hlt, hout, hc⟩ := h.table hj
    refine ⟨hlt, hout, ?_⟩
    rw [hget]
    split
    case isTrue hji =>
      subst hji
      exact ⟨hfile.trans hc.fileId, hnum.trans hc.pageNum, hid.trans hc.pageId, hc.file, hc.page⟩
    case isFalse => exact hc
  case free =>
    intro j hj
    obtain ⟨hlt, hout, hf, hk⟩ := h.free hj
    refine ⟨hlt, hout, ?_, hk⟩
    rw [hget]
    split
    case isTrue hji => subst hji; exact hfile.trans hf
    case isFalse => exact hf
  case lru =>
    intro j
    rw [hget]
    refine Iff.trans (h.lru (i := j)) (and_congr_right fun _ => ?_)
    split
    case isTrue hji => subst hji; exact hpin.symm
    case isFalse => exact Iff.rfl

theorem cacheHits (h : Tracks out pool) (n : ℕ) : Tracks out { pool with cacheHits := n } :=
  ⟨h.unique, h.table, h.free, h.freeNodup, h.lru, h.lruNodup, h.nodeLt, h.nodeNodup, h.position,
    h.room⟩

theorem cacheMisses (h : Tracks out pool) (n : ℕ) : Tracks out { pool with cacheMisses := n } :=
  ⟨h.unique, h.table, h.free, h.freeNodup, h.lru, h.lruNodup, h.nodeLt, h.nodeNodup, h.position,
    h.room⟩

/-- A cached page pinned: its frame leaves the list of unpinned frames. -/
theorem pin (h : Tracks out pool) (hk : pool.pageTable.find? key = some i) {frame : PageFrame}
    (hc : Carries frame key) (hpin : frame.pinCount ≠ 0) :
    Tracks out ((pool.setFrame i frame).removeLru i) := by
  rw [removeLru_setFrame]
  have hget : ∀ j, ((pool.removeLru i).setFrame i frame).frames j =
      if j = i then frame else pool.frames j := by
    intro j
    rw [BufferPool.setFrame, removeLru_frames]
    exact Function.update_apply ..
  have hlisted : Listed (pool.removeLru i) := h.listed.removeLru
  refine { unique := ?unique, table := ?table, free := ?free, freeNodup := ?freeNodup, lru := ?lru,
           lruNodup := hlisted.lruNodup, nodeLt := hlisted.nodeLt, nodeNodup := hlisted.nodeNodup,
           position := hlisted.position, room := ?room }
  case unique => simpa [BufferPool.setFrame] using h.unique
  case table =>
    intro key' j hj
    have hj' : pool.pageTable.find? key' = some j := by simpa [BufferPool.setFrame] using hj
    obtain ⟨hlt, hout, hc'⟩ := h.table hj'
    refine ⟨by simpa [BufferPool.setFrame] using hlt, hout, ?_⟩
    rw [hget]
    split
    case isTrue hji => subst hji; rwa [h.key_eq hj' hk]
    case isFalse => exact hc'
  case free =>
    intro j hj
    obtain ⟨hlt, hout, hf, hnk⟩ := h.free (by simpa [BufferPool.setFrame] using hj)
    refine ⟨by simpa [BufferPool.setFrame] using hlt, hout, ?_, ?_⟩
    · rw [hget, if_neg (fun hji : j = i => hnk key (hji ▸ hk))]
      exact hf
    · simpa [BufferPool.setFrame] using hnk
  case freeNodup => simpa [BufferPool.setFrame] using h.freeNodup
  case lru =>
    intro j
    show j ∈ (pool.removeLru i).unpinned ↔ _
    rw [h.listed.mem_unpinned_removeLru, h.lru, hget]
    by_cases hji : j = i
    · simp [hji, hpin]
    · simp [hji, BufferPool.setFrame]
  case room =>
    intro j hj hout
    simpa [BufferPool.setFrame] using h.room (by simpa [BufferPool.setFrame] using hj) hout

/-- A pinned page unpinned: its frame enters the list of unpinned frames at the front. -/
theorem unpin (h : Tracks out pool) (hk : pool.pageTable.find? key = some i) {frame : PageFrame}
    (hc : Carries frame key) (hpin : (pool.frames i).pinCount ≠ 0) (hpin' : frame.pinCount = 0) :
    Tracks out ((pool.setFrame i frame).pushLru i) := by
  have hget : ∀ j, ((pool.setFrame i frame).pushLru i).frames j =
      if j = i then frame else pool.frames j := fun j => Function.update_apply ..
  have habsent : i ∉ pool.unpinned := fun hmem => hpin (h.lru.mp hmem).2
  have hlisted : Listed (pool.pushLru i) := h.listed.pushLru habsent
  refine { unique := h.unique, table := ?table, free := ?free, freeNodup := h.freeNodup,
           lru := ?lru, lruNodup := hlisted.lruNodup, nodeLt := hlisted.nodeLt,
           nodeNodup := hlisted.nodeNodup, position := hlisted.position, room := h.room }
  case table =>
    intro key' j hj
    obtain ⟨hlt, hout, hc'⟩ := h.table hj
    refine ⟨hlt, hout, ?_⟩
    rw [hget]
    split
    case isTrue hji => subst hji; rwa [h.key_eq hj hk]
    case isFalse => exact hc'
  case free =>
    intro j hj
    obtain ⟨hlt, hout, hf, hnk⟩ := h.free hj
    refine ⟨hlt, hout, ?_, hnk⟩
    rw [hget, if_neg (fun hji : j = i => hnk key (hji ▸ hk))]
    exact hf
  case lru =>
    intro j
    show j ∈ i :: pool.unpinned ↔ _
    rw [List.mem_cons, h.lru, hget]
    by_cases hji : j = i
    · subst hji
      simp only [true_or, if_pos, hpin', and_true, true_iff]
      exact ⟨key, hk⟩
    · simp [hji, pushLru, BufferPool.setFrame]

/-- An unused frame taken. -/
theorem takeFree (h : Tracks none pool) {rest : List ℕ} (hfree : pool.freeList = i :: rest) :
    i < pool.poolSize ∧ Tracks (some i) { pool with freeList := rest } := by
  obtain ⟨hlt, -, hf, hnk⟩ := h.free (hfree ▸ List.mem_cons_self)
  have hnodup : (i :: rest).Nodup := hfree ▸ h.freeNodup
  have hsub : ∀ {j}, j ∈ rest → j ∈ pool.freeList := fun hj => hfree ▸ List.mem_cons_of_mem _ hj
  refine ⟨hlt, { unique := h.unique, table := ?table, free := ?free, freeNodup := hnodup.of_cons,
                 lru := h.lru, lruNodup := h.lruNodup, nodeLt := h.nodeLt,
                 nodeNodup := h.nodeNodup, position := h.position, room := ?room }⟩
  case table =>
    intro key j hj
    obtain ⟨hlt', -, hc⟩ := h.table hj
    refine ⟨hlt', ?_, hc⟩
    rintro ⟨⟩
    exact hnk key hj
  case free =>
    intro j hj
    obtain ⟨hlt', -, hf', hnk'⟩ := h.free (hsub hj)
    refine ⟨hlt', ?_, hf', hnk'⟩
    rintro ⟨⟩
    exact (List.nodup_cons.mp hnodup).1 hj
  case room =>
    intro j hj hout
    rcases h.room hj (by simp) with hmem | hmem
    · rw [hfree, List.mem_cons] at hmem
      exact Or.inl (hmem.resolve_left fun hji => hout (by rw [hji]))
    · exact Or.inr hmem

/-- The least recently used frame taken, and its page out of the page table. -/
theorem takeVictim (h : Tracks none pool) {victim : LruNode}
    (hlast : pool.lruList.getLast? = some victim) :
    ∃ key, pool.pageTable.find? key = some victim.frameIdx ∧
      (pool.frames victim.frameIdx).pinCount = 0 ∧
      Tracks (some victim.frameIdx) { pool with
        lruList := pool.lruList.dropLast
        lruMap := pool.lruMap.erase victim.frameIdx
        pageTable := pool.pageTable.erase key } := by
  obtain ⟨⟨key, hk⟩, hpin⟩ := h.lru.mp (mem_unpinned (List.mem_of_getLast? hlast))
  refine ⟨key, hk, hpin, ?_⟩
  have hlisted := h.listed.dropLast hlast
  have hother : ∀ {key' j}, (pool.pageTable.erase key).find? key' = some j ↔
      pool.pageTable.find? key' = some j ∧ j ≠ victim.frameIdx := by
    intro key' j
    rw [Dict.find?_erase]
    split
    case isTrue hkk =>
      subst hkk
      refine ⟨fun hn => absurd hn (by simp), ?_⟩
      rintro ⟨hj, hne⟩
      exact absurd (Option.some.inj (hj.symm.trans hk)) hne
    case isFalse hkk =>
      refine ⟨fun hj => ⟨hj, ?_⟩, And.left⟩
      rintro rfl
      exact hkk (h.key_eq hj hk)
  refine { unique := h.unique.erase key, table := ?table, free := ?free, freeNodup := h.freeNodup,
           lru := ?lru, lruNodup := hlisted.lruNodup, nodeLt := hlisted.nodeLt,
           nodeNodup := hlisted.nodeNodup, position := hlisted.position, room := ?room }
  case table =>
    intro key' j hj
    obtain ⟨hj', hne⟩ := hother.mp hj
    obtain ⟨hlt, -, hc⟩ := h.table hj'
    exact ⟨hlt, fun he => hne (Option.some.inj he), hc⟩
  case free =>
    intro j hj
    obtain ⟨hlt, -, hf, hnk⟩ := h.free hj
    refine ⟨hlt, fun he => hnk key (Option.some.inj he ▸ hk), hf, fun key' hj' => ?_⟩
    exact hnk key' (hother.mp hj').1
  case lru =>
    intro j
    show j ∈ pool.lruList.dropLast.map LruNode.frameIdx ↔
      (∃ key', (pool.pageTable.erase key).find? key' = some j) ∧ (pool.frames j).pinCount = 0
    rw [h.listed.mem_map_dropLast hlast, h.lru]
    simp only [hother]
    constructor
    · rintro ⟨⟨⟨key', hk'⟩, hp⟩, hne⟩
      exact ⟨⟨key', hk', hne⟩, hp⟩
    · rintro ⟨⟨key', hk', hne⟩, hp⟩
      exact ⟨⟨⟨key', hk'⟩, hp⟩, hne⟩
  case room =>
    intro j hj hout
    rcases h.room hj (by simp) with hin | ⟨key', hk'⟩
    · exact Or.inl hin
    · exact Or.inr ⟨key', hother.mpr ⟨hk', fun he => hout (by rw [he])⟩⟩

/-- The frame on its way given a page that was not cached. -/
theorem install (h : Tracks (some i) pool) (hlt : i < pool.poolSize)
    (hnone : pool.pageTable.find? key = none) {frame : PageFrame} (hc : Carries frame key)
    (hpin : frame.pinCount ≠ 0) :
    Tracks none { pool.setFrame i frame with pageTable := pool.pageTable.insert key i } := by
  have hget : ∀ j, (pool.setFrame i frame).frames j = if j = i then frame else pool.frames j :=
    fun j => Function.update_apply ..
  -- The frame on its way is in no entry, so no other page loses its frame.
  have hunmapped : ∀ key', pool.pageTable.find? key' ≠ some i := fun key' hk' =>
    (h.table hk').2.1 rfl
  refine { unique := h.unique.insert key i, table := ?table, free := ?free,
           freeNodup := h.freeNodup, lru := ?lru, lruNodup := h.lruNodup, nodeLt := h.nodeLt,
           nodeNodup := h.nodeNodup, position := h.position, room := ?room }
  case table =>
    intro key' j hj
    rcases Dict.eq_or_find?_of_find?_insert hj with ⟨rfl, rfl⟩ | hj
    · refine ⟨hlt, by simp, ?_⟩
      show Carries ((pool.setFrame j frame).frames j) key'
      rw [hget, if_pos rfl]
      exact hc
    · refine ⟨(h.table hj).1, by simp, ?_⟩
      show Carries ((pool.setFrame i frame).frames j) key'
      rw [hget, if_neg (fun hji : j = i => hunmapped key' (hji ▸ hj))]
      exact (h.table hj).2.2
  case free =>
    intro j hj
    obtain ⟨hlt', hout, hf, hnk⟩ := h.free hj
    have hne : j ≠ i := fun hji => hout (by rw [hji])
    refine ⟨hlt', by simp, ?_, fun key' => ?_⟩
    · show ((pool.setFrame i frame).frames j).fileId = -1
      rw [hget, if_neg hne]
      exact hf
    · show (pool.pageTable.insert key i).find? key' ≠ some j
      rw [Dict.find?_insert]
      split
      · exact fun he => hne (Option.some.inj he).symm
      · exact hnk key'
  case lru =>
    intro j
    show j ∈ pool.unpinned ↔ (∃ key', (pool.pageTable.insert key i).find? key' = some j) ∧
      ((pool.setFrame i frame).frames j).pinCount = 0
    rw [h.lru, hget]
    by_cases hji : j = i
    · subst hji
      rw [if_pos rfl]
      exact ⟨fun hm => absurd hm.1.choose_spec (hunmapped _), fun hm => absurd hm.2 hpin⟩
    · rw [if_neg hji]
      refine and_congr_left fun _ => exists_congr fun key' => ?_
      rw [Dict.find?_insert]
      split
      case isTrue hkk =>
        rw [hkk, hnone]
        simp [Ne.symm hji]
      case isFalse => exact Iff.rfl
  case room =>
    intro j hj _
    by_cases hji : j = i
    · exact Or.inr ⟨key, by rw [hji]; exact Dict.find?_insert_self ..⟩
    · rcases h.room hj (by simpa using hji) with hin | ⟨key', hk'⟩
      · exact Or.inl hin
      · refine Or.inr ⟨key', ?_⟩
        show (pool.pageTable.insert key i).find? key' = some j
        rw [Dict.find?_insert_of_ne _ _ (fun hkk => by rw [hkk, hnone] at hk'; cases hk')]
        exact hk'

end Tracks

/-- The pool when the frame of `victim`, which held the page of `key`, was taken for another page;
the misses are `n` then. -/
def giveUp (pool : BufferPool) (victim : LruNode) (key : PageKey) (n : ℕ) : BufferPool := { pool with
  cacheMisses := n
  lruList := pool.lruList.dropLast
  lruMap := pool.lruMap.erase victim.frameIdx
  pageTable := pool.pageTable.erase key }

end BufferPool

namespace Storage

open BufferPool Program

variable {s : Storage} {G : Fault → Prop} {f : ℤ} {p : ℕ} {forWrite : Bool}

/-- The rest of a fetch once a frame is there for the page. -/
def load (f : ℤ) (p : ℕ) (forWrite : Bool) (i : ℕ) : Program Storage Fault ℕ := do
  let data ← onDisk (DiskManager.readPage f p)
  onPool fun pool => pool.setFrame i ⟨data, p, f, p, forWrite, 1⟩
  onPool fun pool => { pool with pageTable := pool.pageTable.insert (makePageKey f p) i }
  return i

/-- The least recently used page given up: it was not pinned, and it is written back when its frame
is dirty. -/
theorem evict_victim (h : s.bufferPool.Tracks none) {victim : LruNode}
    (hlast : s.bufferPool.lruList.getLast? = some victim) (n : ℕ) :
    ∃ key, s.bufferPool.pageTable.find? key = some victim.frameIdx ∧
      (s.bufferPool.frames victim.frameIdx).pinCount = 0 ∧
      victim.frameIdx < s.bufferPool.poolSize ∧
      (s.bufferPool.giveUp victim key n).Tracks (some victim.frameIdx) ∧
      ∀ {Q : Unit → Storage → Prop}, wp G (evict (s.bufferPool.frames victim.frameIdx)) Q { s with
          bufferPool := { s.bufferPool with
            cacheMisses := n
            lruList := s.bufferPool.lruList.dropLast
            lruMap := s.bufferPool.lruMap.erase victim.frameIdx } } ↔
        if (s.bufferPool.frames victim.frameIdx).isDirty then
          wp G (DiskManager.writePage key.1 key.2 (s.bufferPool.frames victim.frameIdx).data)
            (fun _ d => Q () ⟨d, s.bufferPool.giveUp victim key n⟩) s.diskMgr
        else Q () { s with bufferPool := s.bufferPool.giveUp victim key n } := by
  obtain ⟨key, hk, hpin, htracks⟩ := h.takeVictim hlast
  obtain ⟨hlt, -, hc⟩ := h.table hk
  refine ⟨key, hk, hpin, hlt, htracks.cacheMisses n, fun {Q} => ?_⟩
  -- The frame names the page it holds, so `evict` writes it back and erases it under its key.
  have hkey : makePageKey (s.bufferPool.frames victim.frameIdx).fileId
      (s.bufferPool.frames victim.frameIdx).pageNum = key :=
    Prod.ext hc.fileId hc.pageNum
  have hused : 0 ≤ (s.bufferPool.frames victim.frameIdx).fileId ∧
      (s.bufferPool.frames victim.frameIdx).pageId ≠ INVALID_PAGE_ID :=
    ⟨hc.fileId ▸ hc.file, hc.pageId ▸ hc.page⟩
  unfold evict
  rw [if_pos hused, hkey]
  simp only [wp_bind, onPool, wp_modify]
  split
  case isTrue =>
    rw [onDisk, wp_zoom, hc.fileId, hc.pageNum]
    exact Iff.rfl
  case isFalse => exact Iff.rfl

/-- A fetch of a page that is not cached finds a frame, gives up the page in it, and loads the page
it was asked for. -/
theorem wp_fetch_find {Q : ℕ → Storage → Prop}
    (hnone : s.bufferPool.pageTable.find? (f, p) = none)
    (hfull : ¬ (s.bufferPool.freeList = [] ∧ s.bufferPool.lruList.getLast? = none))
    (hfree : ∀ {i rest}, s.bufferPool.freeList = i :: rest →
      wp G (evict (s.bufferPool.frames i)) (fun _ s' => wp G (load f p forWrite i) Q s')
        { s with bufferPool := { s.bufferPool with
          cacheMisses := s.bufferPool.cacheMisses + 1, freeList := rest } })
    (hlast : ∀ {victim}, s.bufferPool.lruList.getLast? = some victim →
      wp G (evict (s.bufferPool.frames victim.frameIdx))
        (fun _ s' => wp G (load f p forWrite victim.frameIdx) Q s')
        { s with bufferPool := { s.bufferPool with
          cacheMisses := s.bufferPool.cacheMisses + 1
          lruList := s.bufferPool.lruList.dropLast
          lruMap := s.bufferPool.lruMap.erase victim.frameIdx } }) :
    wp G (fetchPage f p forWrite) Q s := by
  have hnone' : s.bufferPool.pageTable.find? (makePageKey f p) = none := hnone
  simp only [fetchPage, wp_bind, wp_get, hnone', findVictimFrame, onPool, wp_modify]
  -- `findVictimFrame` takes a free frame first, and the last of the list otherwise.
  cases hlist : s.bufferPool.freeList with
  | cons i rest =>
    have hload := hfree hlist
    simp only [load, onPool, wp_bind, wp_modify, wp_pure] at hload
    simp only [wp_bind, wp_modify, wp_pure]
    exact hload
  | nil =>
    cases hvictim : s.bufferPool.lruList.getLast? with
    | none => exact absurd ⟨hlist, hvictim⟩ hfull
    | some victim =>
      have hload := hlast hvictim
      simp only [load, onPool, wp_bind, wp_modify, wp_pure] at hload
      simp only [wp_bind, wp_modify, wp_pure]
      rw [← hlist]
      exact hload

/-- A fetch of a page that is not cached takes an unused frame, or gives up the least recently used
page for it. -/
theorem wp_fetch_miss {Q : ℕ → Storage → Prop} (h : s.bufferPool.Tracks none)
    (hnone : s.bufferPool.pageTable.find? (f, p) = none)
    (hfull : ¬ (s.bufferPool.freeList = [] ∧ s.bufferPool.lruList.getLast? = none))
    (hfree : ∀ {i rest}, s.bufferPool.freeList = i :: rest → i < s.bufferPool.poolSize →
      Tracks (some i) { s.bufferPool with freeList := rest } →
      wp G (load f p forWrite i) Q { s with bufferPool := { s.bufferPool with
        cacheMisses := s.bufferPool.cacheMisses + 1, freeList := rest } })
    (hlast : ∀ {victim}, s.bufferPool.lruList.getLast? = some victim →
      wp G (evict (s.bufferPool.frames victim.frameIdx))
        (fun _ s' => wp G (load f p forWrite victim.frameIdx) Q s')
        { s with bufferPool := { s.bufferPool with
          cacheMisses := s.bufferPool.cacheMisses + 1
          lruList := s.bufferPool.lruList.dropLast
          lruMap := s.bufferPool.lruMap.erase victim.frameIdx } }) :
    wp G (fetchPage f p forWrite) Q s := by
  refine wp_fetch_find hnone hfull (fun {i rest} hlist => ?_) hlast
  obtain ⟨hlt, htracks⟩ := h.takeFree hlist
  have hunused : ¬ (0 ≤ (s.bufferPool.frames i).fileId ∧
      (s.bufferPool.frames i).pageId ≠ INVALID_PAGE_ID) := by
    rw [(h.free (hlist ▸ List.mem_cons_self)).2.2.1]
    simp
  rw [evict, if_neg hunused, wp_pure]
  exact hfree hlist hlt htracks

end Storage

end MiniDB
