import MiniDB.Storage.Bookkeeping

/-!
# Fetches that throw

A fetch takes a frame before it knows that the disk operations it needs will go through. When one of
them throws, the frame is in no list any more, and the page it held has left the page table. Only
the fetch that finds no frame throws before it changes anything but the statistics.

## Main definitions

* `Storage.usable`: the number of frames that are unused or can be taken from their page
* `Storage.Intact s s'`: the same pages are cached, with the same contents, dirty bits and pins, in
  the same order of use, and as many frames are usable

## Main results

* `fetchPage_error`: what a fetch that throws has done
* `fetchPage_intact_iff`: it leaves the pool intact exactly when no frame was usable
-/

namespace MiniDB

open Program

namespace Storage

open BufferPool Coherent

/-- The frames that are unused or can be taken from their page. -/
def usable (s : Storage) : ℕ := s.bufferPool.freeList.length + s.bufferPool.lruList.length

/-- What can be seen of a cached page: its contents, whether it is dirty, and its pins. -/
def cachedPage (s : Storage) (key : PageKey) : Option (Page × Bool × ℕ) :=
  (s.bufferPool.pageTable.find? key).map fun i =>
    ((s.bufferPool.frames i).data, (s.bufferPool.frames i).isDirty,
      (s.bufferPool.frames i).pinCount)

/-- The pool as it was: the cached pages, their order of use, and the number of usable frames. -/
structure Intact (s s' : Storage) : Prop where
  pages : ∀ key, s'.cachedPage key = s.cachedPage key
  order : s'.bufferPool.unpinned = s.bufferPool.unpinned
  usable : s'.usable = s.usable

variable {s s' : Storage} {f : ℤ} {p : ℕ} {w : Bool} {e : Fault}

theorem full_iff_usable : Full s ↔ s.usable = 0 := by
  unfold Full usable
  rw [List.getLast?_eq_none_iff, Nat.add_eq_zero_iff, List.length_eq_zero_iff,
    List.length_eq_zero_iff]

theorem preserves_onPool {I : Storage → Prop} {h : BufferPool → BufferPool}
    (hI : ∀ s : Storage, I s → I { s with bufferPool := h s.bufferPool }) :
    Preserves I (onPool h) :=
  Preserves.modify hI

theorem preserves_usable_evict (n : ℕ) (frame : PageFrame) :
    Preserves (fun s => s.usable = n) (evict frame) := by
  refine Preserves.ite (Preserves.bind (preserves_onPool fun _ hs => hs) fun _ => ?_)
    (Preserves.pure _)
  exact Preserves.ite (Preserves.zoom fun _ hs => hs) (Preserves.pure _)

/-- A frame found is one usable frame less. -/
theorem usable_of_findVictimFrame {i : ℕ} (h : findVictimFrame.run s = (.ok i, s')) :
    s'.usable + 1 = s.usable := by
  unfold findVictimFrame at h
  rw [run_get_bind] at h
  cases hfree : s.bufferPool.freeList with
  | cons idx rest =>
    simp only [hfree] at h
    obtain ⟨-, rfl⟩ := Prod.mk.inj h
    simp only [usable, hfree, List.length_cons]
    omega
  | nil =>
    cases hlast : s.bufferPool.lruList.getLast? with
    | none => simp only [hfree, hlast] at h; cases h
    | some victim =>
      simp only [hfree, hlast] at h
      obtain ⟨-, rfl⟩ := Prod.mk.inj h
      obtain ⟨front, hsplit⟩ := List.getLast?_eq_some_iff.mp hlast
      simp only [usable, hsplit, List.dropLast_concat, List.length_append, List.length_singleton]
      omega

theorem full_of_findVictimFrame (h : findVictimFrame.run s = (.error e, s')) : Full s := by
  unfold findVictimFrame at h
  rw [run_get_bind] at h
  cases hfree : s.bufferPool.freeList with
  | cons idx rest => simp only [hfree] at h; cases h
  | nil =>
    cases hlast : s.bufferPool.lruList.getLast? with
    | none => exact ⟨hfree, hlast⟩
    | some victim => simp only [hfree, hlast] at h; cases h

/-- What a fetch that throws has done: it found no frame and counted a miss, or it has taken a frame
that no list has any more. -/
theorem fetchPage_error (h : (fetchPage f p w).run s = (.error e, s')) :
    (Full s ∧ s' = { s with
      bufferPool := { s.bufferPool with cacheMisses := s.bufferPool.cacheMisses + 1 } }) ∨
    s'.usable + 1 = s.usable := by
  by_cases hfull : Full s
  · cases hk : s.bufferPool.pageTable.find? (f, p) with
    | none =>
      rw [run_fetchPage_full hk hfull w] at h
      exact Or.inl ⟨hfull, (Prod.mk.inj h).2.symm⟩
    | some i =>
      have hk' : s.bufferPool.pageTable.find? (makePageKey f p) = some i := hk
      unfold fetchPage at h
      rw [run_get_bind] at h
      simp only [hk'] at h
      cases h
  · -- A frame was taken before anything else could throw.
    right
    unfold fetchPage at h
    rw [run_get_bind] at h
    cases hk : s.bufferPool.pageTable.find? (makePageKey f p) with
    | some i => simp only [hk] at h; cases h
    | none =>
      simp only [hk] at h
      rcases run_bind_eq_error.mp h with h | ⟨_, s₁, hmiss, h⟩
      · cases h
      obtain ⟨-, rfl⟩ := Prod.mk.inj hmiss
      rcases run_bind_eq_error.mp h with h | ⟨i, s₂, hvictim, h⟩
      · exact absurd (full_of_findVictimFrame h) hfull
      have hrest : Preserves (fun t => t.usable = s₂.usable) (do
          evict (s.bufferPool.frames i)
          let data ← onDisk (DiskManager.readPage f p)
          onPool fun pool => pool.setFrame i ⟨data, p, f, p, w, 1⟩
          onPool fun pool => { pool with pageTable := pool.pageTable.insert (makePageKey f p) i }
          return i) := by
        refine Preserves.bind (preserves_usable_evict _ _) fun _ => ?_
        refine Preserves.bind (Preserves.zoom fun _ hs => hs) fun _ => ?_
        refine Preserves.bind (preserves_onPool fun _ hs => hs) fun _ => ?_
        exact Preserves.bind (preserves_onPool fun _ hs => hs) fun _ => Preserves.pure _
      have hkept := hrest s₂ rfl
      rw [h] at hkept
      rw [hkept]
      have htaken := usable_of_findVictimFrame hvictim
      exact htaken

/-- A fetch that throws leaves the pool intact exactly when no frame was usable before it. -/
theorem fetchPage_intact_iff (h : (fetchPage f p w).run s = (.error e, s')) :
    Intact s s' ↔ s.bufferPool.freeList = [] ∧ s.bufferPool.lruList = [] := by
  have hfull : Full s ↔ s.bufferPool.freeList = [] ∧ s.bufferPool.lruList = [] :=
    and_congr_right fun _ => List.getLast?_eq_none_iff
  rw [← hfull]
  rcases fetchPage_error h with ⟨hnone, rfl⟩ | hlost
  · exact iff_of_true ⟨fun _ => rfl, rfl, rfl⟩ hnone
  · refine iff_of_false (fun hintact => ?_) fun hnone => ?_
    · rw [hintact.usable] at hlost
      omega
    · rw [full_iff_usable.mp hnone] at hlost
      omega

/-- A pool of one frame over a disk with one open file, with a dirty page of the file in the
frame. -/
def oneDirty : Storage :=
  (Tally.run Tally.oneFile 1 [.fetchPage 1 0 true, .unpinPage 1 0 true]).storage

theorem fetchPage_intact_iff_dirty : ∃ s', (fetchPage 99 0 false).run oneDirty =
    (.error DiskManager.invalidFile, s') ∧ ¬ Intact oneDirty s' := by
  have hresult : (match ((fetchPage 99 0 false).run oneDirty).1 with
      | .ok _ => none
      | .error e => some e) = some DiskManager.invalidFile := by decide +kernel
  rcases hrun : (fetchPage 99 0 false).run oneDirty with ⟨e | i, s'⟩
  · rw [hrun] at hresult
    obtain rfl := Option.some.inj hresult
    refine ⟨s', rfl, fun hintact => ?_⟩
    exact absurd ((fetchPage_intact_iff hrun).mp hintact).2 (by decide +kernel)
  · rw [hrun] at hresult
    cases hresult

/-- A fetch from a file that is not open: the only frame of a new pool is gone, and the pool throws
at the next fetch although no page is pinned. -/
theorem fetchPage_loses_frame :
    ∃ s', (fetchPage 99 0 false).run ⟨Tally.oneFile, BufferPool.new 1⟩ =
        (.error DiskManager.invalidFile, s') ∧
      ¬ Intact ⟨Tally.oneFile, BufferPool.new 1⟩ s' ∧
      ∃ s'', (fetchPage 1 0 false).run s' = (.error allPinned, s'') := by
  refine ⟨_, rfl, fun hintact => ?_, _, rfl⟩
  have husable := hintact.usable
  exact absurd husable (by decide +kernel)

end Storage

end MiniDB
