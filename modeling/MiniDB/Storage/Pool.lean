import MiniDB.Storage.Coherence

/-!
# The buffer pool under any number of pins

A page is what its frame holds when it is cached and what the disk holds otherwise. A clean frame
agrees with the disk, unless a client has written to it under a pin that is still to be ended; such
a frame is pinned, so it is not given up before the end of the pin makes it dirty. A page that is
given up is therefore on the disk.

## Main definitions

* `DiskManager.path`: the path of an open file
* `Storage.pinsOf`: how often a page is pinned
* `Storage.Coherent m W out s`: the pages of the storage are `m`, and the pages `W` were written
  under a pin that is still open

## Main results

* `Coherent.fetchPage`, `Coherent.fetch_full`: a page fetched, and a pool without a frame for it
* `Coherent.setPageData`, `Coherent.unpinPage`, `Coherent.flushPage`, `Coherent.flushAllPages`
-/

namespace MiniDB

open Program

namespace DiskManager

/-- The path of an open file. -/
def path (d : DiskManager) (f : ℤ) : Option Str := (d.files.find? f).map FileHandle.fileName

/-- A page of an open file written; the page count follows. -/
def store (d : DiskManager) (f : ℤ) (h : FileHandle) (p : ℕ) (buffer : Page) : DiskManager :=
  if h.pageCount ≤ p then
    (d.put h.fileName p buffer).setHandle f { h with pageCount := (p + 1) % 2 ^ 32 }
  else d.put h.fileName p buffer

variable {d : DiskManager} {f : ℤ} {h : FileHandle} {p : ℕ} {buffer : Page} {G : Fault → Prop}

theorem wp_writePage_store {Q : Unit → DiskManager → Prop} (hf : d.files.find? f = some h) :
    wp G (writePage f p buffer) Q d ↔ Q () (d.store f h p buffer) := by
  simp only [writePage, wp_bind, wp_handle hf, wp_modify, store]
  split <;> exact Iff.rfl

theorem path_store (hf : d.files.find? f = some h) (g : ℤ) :
    (d.store f h p buffer).path g = d.path g := by
  unfold store
  split
  case isTrue =>
    simp only [path, setHandle, put_files, Dict.find?_insert]
    split
    case isTrue hg => rw [hg, hf]; rfl
    case isFalse => rfl
  case isFalse => rfl

/-- A page of the disk by the path of its file. -/
theorem page_eq_path (key : PageKey) : d.page key = match d.path key.1 with
    | some path => (d.content path).readAt (key.2 * PAGE_SIZE)
    | none => Block.zero := by
  unfold page path
  cases d.files.find? key.1 <;> rfl

theorem content_store (path : Str) : (d.store f h p buffer).content path =
    if path = h.fileName then (d.content path).writeAt (p * PAGE_SIZE) buffer
    else d.content path := by
  have hput : (d.put h.fileName p buffer).content path = if path = h.fileName then
      (d.content path).writeAt (p * PAGE_SIZE) buffer else d.content path := by
    rw [put, content_setContent]
    split
    case isTrue hp => rw [hp]
    case isFalse => rfl
  unfold store
  split <;> exact hput

theorem page_store_self (hf : d.files.find? f = some h) :
    (d.store f h p buffer).page (f, p) = buffer := by
  have hpath : (d.store f h p buffer).path f = some h.fileName := by
    rw [path_store hf, path, hf]
    rfl
  rw [page_eq_path, hpath]
  simp only [content_store, if_pos, File.readAt_writeAt_self]

/-- A write leaves the other pages, when no other file id has the same path. -/
theorem page_store_of_ne (hf : d.files.find? f = some h)
    (hapart : ∀ {g}, d.path g = some h.fileName → g = f) {key : PageKey} (hne : key ≠ (f, p)) :
    (d.store f h p buffer).page key = d.page key := by
  rw [page_eq_path, page_eq_path, path_store hf]
  cases hpath : d.path key.1 with
  | none => rfl
  | some path =>
    simp only [content_store]
    split
    case isTrue heq =>
      have hkey : key.1 = f := hapart (heq ▸ hpath)
      exact File.readAt_writeAt_of_ne _ _ fun hp => hne (Prod.ext hkey hp)
    case isFalse => rfl

end DiskManager

namespace Storage

open BufferPool

/-- How often a page is pinned. -/
def pinsOf (s : Storage) (key : PageKey) : ℕ :=
  match s.bufferPool.pageTable.find? key with
  | some i => (s.bufferPool.frames i).pinCount
  | none => 0

/-- The pages of the storage are `m`; the pages `W` were written under a pin that is still open. -/
structure Coherent (m : PageKey → Page) (W : PageKey → Prop) (out : Option ℕ) (s : Storage) :
    Prop where
  tracks : s.bufferPool.Tracks out
  nonneg : ∀ {f path}, s.diskMgr.path f = some path → 0 ≤ f
  apart : ∀ {f g path}, s.diskMgr.path f = some path → s.diskMgr.path g = some path → f = g
  pages : ∀ {key path}, s.diskMgr.path key.1 = some path → s.page key = m key
  cached : ∀ {key i}, s.bufferPool.pageTable.find? key = some i →
    ∃ path, s.diskMgr.path key.1 = some path
  clean : ∀ {key i}, s.bufferPool.pageTable.find? key = some i →
    (s.bufferPool.frames i).isDirty = false →
    W key ∨ (s.bufferPool.frames i).data = s.diskMgr.page key
  pinned : ∀ {key i}, W key → s.bufferPool.pageTable.find? key = some i →
    (s.bufferPool.frames i).pinCount ≠ 0

variable {m m' : PageKey → Page} {W W' : PageKey → Prop} {out out' : Option ℕ} {s : Storage}
  {key : PageKey} {i : ℕ} {f : ℤ} {p : ℕ}

theorem pinsOf_of_cached (h : s.bufferPool.pageTable.find? key = some i) :
    s.pinsOf key = (s.bufferPool.frames i).pinCount := by
  simp only [pinsOf, h]

theorem pinsOf_of_not_cached (h : s.bufferPool.pageTable.find? key = none) : s.pinsOf key = 0 := by
  simp only [pinsOf, h]

/-- The pins after a change of the frame of one page. -/
theorem pinsOf_setFrame (h : s.bufferPool.Tracks out)
    (hk : s.bufferPool.pageTable.find? key = some i) {frame : PageFrame} {s' : Storage}
    (htable : s'.bufferPool.pageTable = s.bufferPool.pageTable)
    (hframes : s'.bufferPool.frames = (s.bufferPool.setFrame i frame).frames) (key' : PageKey) :
    s'.pinsOf key' = if key' = key then frame.pinCount else s.pinsOf key' := by
  have hget : ∀ j, s'.bufferPool.frames j = if j = i then frame else s.bufferPool.frames j := by
    intro j
    rw [hframes]
    exact Function.update_apply ..
  by_cases heq : key' = key
  · have hk' : s'.bufferPool.pageTable.find? key' = some i := by rw [htable, heq, hk]
    rw [if_pos heq, pinsOf_of_cached hk', hget, if_pos rfl]
  · rw [if_neg heq]
    cases hj : s.bufferPool.pageTable.find? key' with
    | none => rw [pinsOf_of_not_cached hj, pinsOf_of_not_cached (htable ▸ hj)]
    | some j =>
      have hji : j ≠ i := fun hji => heq (h.key_eq hj (hji ▸ hk))
      rw [pinsOf_of_cached hj, pinsOf_of_cached (htable ▸ hj), hget, if_neg hji]

/-- The pins after the frame on its way was given a page. -/
theorem pinsOf_install (h : s.bufferPool.Tracks (some i)) {frame : PageFrame} {s' : Storage}
    (htable : s'.bufferPool.pageTable = s.bufferPool.pageTable.insert key i)
    (hframes : s'.bufferPool.frames = (s.bufferPool.setFrame i frame).frames) (key' : PageKey) :
    s'.pinsOf key' = if key' = key then frame.pinCount else s.pinsOf key' := by
  have hget : ∀ j, s'.bufferPool.frames j = if j = i then frame else s.bufferPool.frames j := by
    intro j
    rw [hframes]
    exact Function.update_apply ..
  have hfind : s'.bufferPool.pageTable.find? key' =
      if key' = key then some i else s.bufferPool.pageTable.find? key' := by
    rw [htable]
    exact Dict.find?_insert ..
  by_cases heq : key' = key
  · rw [if_pos heq] at hfind ⊢
    rw [pinsOf_of_cached hfind, hget, if_pos rfl]
  · rw [if_neg heq] at hfind ⊢
    cases hj : s.bufferPool.pageTable.find? key' with
    | none => rw [pinsOf_of_not_cached hj, pinsOf_of_not_cached (hfind.trans hj)]
    | some j =>
      have hji : j ≠ i := fun hji => (h.table hj).2.1 (by rw [hji])
      rw [pinsOf_of_cached hj, pinsOf_of_cached (hfind.trans hj), hget, if_neg hji]

/-- The pins after one pin of a page was ended. -/
theorem pinsOf_unpin (h : s.bufferPool.Tracks out)
    (hk : s.bufferPool.pageTable.find? key = some i) {frame : PageFrame} {s' : Storage}
    (htable : s'.bufferPool.pageTable = s.bufferPool.pageTable)
    (hframes : s'.bufferPool.frames = (s.bufferPool.setFrame i frame).frames)
    (hpin : frame.pinCount = (s.bufferPool.frames i).pinCount - 1) (key' : PageKey) :
    s'.pinsOf key' = s.pinsOf key' - if key' = key then 1 else 0 := by
  rw [pinsOf_setFrame h hk htable hframes]
  by_cases heq : key' = key
  · rw [if_pos heq, if_pos heq, heq, pinsOf_of_cached hk, hpin]
  · rw [if_neg heq, if_neg heq, Nat.sub_zero]

/-- A page that is not pinned leaves the page table without a change of the pins. -/
theorem pinsOf_giveUp (hk : s.bufferPool.pageTable.find? key = some i)
    (hpin : (s.bufferPool.frames i).pinCount = 0) {s' : Storage}
    (htable : s'.bufferPool.pageTable = s.bufferPool.pageTable.erase key)
    (hframes : s'.bufferPool.frames = s.bufferPool.frames) (key' : PageKey) :
    s'.pinsOf key' = s.pinsOf key' := by
  have hfind : s'.bufferPool.pageTable.find? key' =
      if key' = key then none else s.bufferPool.pageTable.find? key' := by
    rw [htable]
    exact Dict.find?_erase ..
  by_cases heq : key' = key
  · rw [if_pos heq] at hfind
    rw [pinsOf_of_not_cached hfind, heq, pinsOf_of_cached hk, hpin]
  · rw [if_neg heq] at hfind
    simp only [pinsOf, hfind, hframes]

/-- What a step of the pool leaves: the open files, and the frames of the pinned pages. -/
structure Keeps (s s' : Storage) : Prop where
  paths : ∀ g, s'.diskMgr.path g = s.diskMgr.path g
  size : s'.bufferPool.poolSize = s.bufferPool.poolSize
  frames : ∀ {key}, s.pinsOf key ≠ 0 →
    s'.bufferPool.pageTable.find? key = s.bufferPool.pageTable.find? key

/-- A page that is not pinned leaves the page table. -/
theorem Keeps.of_giveUp (hk : s.bufferPool.pageTable.find? key = some i)
    (hpin : (s.bufferPool.frames i).pinCount = 0) {s' : Storage}
    (hpaths : ∀ g, s'.diskMgr.path g = s.diskMgr.path g)
    (hsize : s'.bufferPool.poolSize = s.bufferPool.poolSize)
    (htable : s'.bufferPool.pageTable = s.bufferPool.pageTable.erase key) : Keeps s s' where
  paths := hpaths
  size := hsize
  frames := by
    intro key' hpins
    rw [htable]
    refine Dict.find?_erase_of_ne _ fun heq => hpins ?_
    rw [heq, pinsOf_of_cached hk, hpin]

theorem Keeps.trans {s s' s'' : Storage} (h : Keeps s s') (h' : Keeps s' s'')
    (hpins : ∀ key, s.pinsOf key ≠ 0 → s'.pinsOf key ≠ 0) : Keeps s s'' :=
  ⟨fun g => (h'.paths g).trans (h.paths g), h'.size.trans h.size,
    fun hk => (h'.frames (hpins _ hk)).trans (h.frames hk)⟩

/-- What a step leaves that neither pins nor unpins a page. -/
structure Still (s s' : Storage) : Prop where
  paths : ∀ g, s'.diskMgr.path g = s.diskMgr.path g
  size : s'.bufferPool.poolSize = s.bufferPool.poolSize
  table : s'.bufferPool.pageTable = s.bufferPool.pageTable
  pins : ∀ i, (s'.bufferPool.frames i).pinCount = (s.bufferPool.frames i).pinCount

theorem Still.refl (s : Storage) : Still s s := ⟨fun _ => rfl, rfl, rfl, fun _ => rfl⟩

theorem Still.trans {s s' s'' : Storage} (h : Still s s') (h' : Still s' s'') : Still s s'' :=
  ⟨fun g => (h'.paths g).trans (h.paths g), h'.size.trans h.size, h'.table.trans h.table,
    fun i => (h'.pins i).trans (h.pins i)⟩

theorem Still.keeps {s s' : Storage} (h : Still s s') : Keeps s s' :=
  ⟨h.paths, h.size, fun _ => congrArg (Dict.find? · _) h.table⟩

theorem Still.pinsOf {s s' : Storage} (h : Still s s') (key : PageKey) :
    s'.pinsOf key = s.pinsOf key := by
  simp only [Storage.pinsOf, h.table, h.pins]

/-- The storage before a page is fetched. -/
theorem coherent_new {d : DiskManager} (poolSize : ℕ)
    (hnonneg : ∀ {f path}, d.path f = some path → 0 ≤ f)
    (hapart : ∀ {f g path}, d.path f = some path → d.path g = some path → f = g) :
    Coherent d.page (fun _ => False) none ⟨d, BufferPool.new poolSize⟩ where
  tracks := tracks_new poolSize
  nonneg := hnonneg
  apart := hapart
  pages _ := rfl
  cached h := by cases h
  clean h := by cases h
  pinned h := h.elim

namespace Coherent

theorem handle (h : Coherent m W out s) (hk : s.bufferPool.pageTable.find? key = some i) :
    ∃ fh, s.diskMgr.files.find? key.1 = some fh := by
  obtain ⟨path, hpath⟩ := h.cached hk
  obtain ⟨fh, hfh, -⟩ := Option.map_eq_some_iff.mp hpath
  exact ⟨fh, hfh⟩

theorem data_eq (h : Coherent m W out s) (hk : s.bufferPool.pageTable.find? key = some i) :
    (s.bufferPool.frames i).data = m key := by
  obtain ⟨path, hpath⟩ := h.cached hk
  rw [← h.pages hpath, page_of_cached hk]

theorem disk_eq (h : Coherent m W out s) {path : Str} (hpath : s.diskMgr.path key.1 = some path)
    (hk : s.bufferPool.pageTable.find? key = none) : s.diskMgr.page key = m key := by
  rw [← h.pages hpath, page_of_not_cached hk]

/-- A change of the pool that leaves the page table alone. -/
theorem reframe (h : Coherent m W out s) {pool : BufferPool} (htracks : pool.Tracks out')
    (htable : pool.pageTable = s.bufferPool.pageTable)
    (hdata : ∀ {key j}, s.bufferPool.pageTable.find? key = some j → (pool.frames j).data = m' key)
    (hrest : ∀ {key}, s.bufferPool.pageTable.find? key = none → m' key = m key)
    (hclean : ∀ {key j}, s.bufferPool.pageTable.find? key = some j →
      (pool.frames j).isDirty = false → W' key ∨ (pool.frames j).data = s.diskMgr.page key)
    (hpinned : ∀ {key j}, W' key → s.bufferPool.pageTable.find? key = some j →
      (pool.frames j).pinCount ≠ 0) : Coherent m' W' out' { s with bufferPool := pool } where
  tracks := htracks
  nonneg := h.nonneg
  apart := h.apart
  pages := by
    intro key path hpath
    cases hk : s.bufferPool.pageTable.find? key with
    | none =>
      have hk' : pool.pageTable.find? key = none := by rw [htable, hk]
      rw [page_of_not_cached hk', hrest hk]
      exact h.disk_eq hpath hk
    | some j =>
      have hk' : pool.pageTable.find? key = some j := by rw [htable, hk]
      rw [page_of_cached hk']
      exact hdata hk
  cached hk := h.cached (htable ▸ hk)
  clean hk := hclean (htable ▸ hk)
  pinned hw hk := hpinned hw (htable ▸ hk)

/-- A frame written back: the disk then has its bytes. -/
theorem store (h : Coherent m W out s) (hk : s.bufferPool.pageTable.find? key = some i)
    {fh : FileHandle} (hfh : s.diskMgr.files.find? key.1 = some fh) :
    Coherent m W out { s with
      diskMgr := s.diskMgr.store key.1 fh key.2 (s.bufferPool.frames i).data } := by
  have hpath : s.diskMgr.path key.1 = some fh.fileName := by rw [DiskManager.path, hfh]; rfl
  -- No other id has the path, so no page of another file is written over.
  have hapart : ∀ {g}, s.diskMgr.path g = some fh.fileName → g = key.1 :=
    fun hg => h.apart hg hpath
  have hself : (s.diskMgr.store key.1 fh key.2 (s.bufferPool.frames i).data).page key =
      (s.bufferPool.frames i).data := DiskManager.page_store_self hfh
  have hother : ∀ {key'}, key' ≠ key →
      (s.diskMgr.store key.1 fh key.2 (s.bufferPool.frames i).data).page key' =
        s.diskMgr.page key' :=
    fun hne => DiskManager.page_store_of_ne hfh hapart hne
  exact {
    tracks := h.tracks
    nonneg := fun hf => h.nonneg (DiskManager.path_store hfh _ ▸ hf)
    apart := fun hf hg =>
      h.apart (DiskManager.path_store hfh _ ▸ hf) (DiskManager.path_store hfh _ ▸ hg)
    pages := by
      intro key' path hf
      have hf' : s.diskMgr.path key'.1 = some path := DiskManager.path_store hfh _ ▸ hf
      rw [← h.pages hf']
      cases hk' : s.bufferPool.pageTable.find? key' with
      | some j => simp only [page, hk']
      | none =>
        simp only [page, hk']
        refine hother fun heq => ?_
        rw [heq, hk] at hk'
        cases hk'
    cached := by
      intro key' j hk'
      obtain ⟨path, hp⟩ := h.cached hk'
      exact ⟨path, (DiskManager.path_store hfh _).trans hp⟩
    clean := by
      intro key' j hk' hdirty
      by_cases heq : key' = key
      · subst heq
        obtain rfl := Option.some.inj (hk.symm.trans hk')
        exact Or.inr hself.symm
      · refine (h.clean hk' hdirty).imp_right fun hd => ?_
        rw [hd]
        exact (hother heq).symm
    pinned := h.pinned }

/-- The page of an unpinned frame given up when the disk has its bytes. -/
theorem giveUp (h : Coherent m W none s) (hk : s.bufferPool.pageTable.find? key = some i)
    (hdata : (s.bufferPool.frames i).data = s.diskMgr.page key) {pool : BufferPool}
    (htracks : pool.Tracks (some i)) (hframes : pool.frames = s.bufferPool.frames)
    (htable : pool.pageTable = s.bufferPool.pageTable.erase key) :
    Coherent m W (some i) { s with bufferPool := pool } := by
  have hold : ∀ {key' j}, pool.pageTable.find? key' = some j →
      s.bufferPool.pageTable.find? key' = some j := by
    intro key' j hj
    exact Dict.find?_of_find?_erase (htable ▸ hj)
  exact {
    tracks := htracks
    nonneg := h.nonneg
    apart := h.apart
    pages := by
      intro key' path hpath
      rw [← h.pages hpath]
      by_cases heq : key' = key
      · have hnone : pool.pageTable.find? key = none := by rw [htable, Dict.find?_erase, if_pos rfl]
        rw [heq, page_of_cached hk, page_of_not_cached hnone, hdata]
      · have hsame : pool.pageTable.find? key' = s.bufferPool.pageTable.find? key' := by
          rw [htable, Dict.find?_erase, if_neg heq]
        simp only [page, hsame, hframes]
    cached := fun hj => h.cached (hold hj)
    clean := by
      intro key' j hj hdirty
      simp only [hframes] at hdirty ⊢
      exact h.clean (hold hj) hdirty
    pinned := by
      intro key' j hw hj
      simp only [hframes]
      exact h.pinned hw (hold hj) }

/-- The frame on its way given a page that was not cached, read from the disk. -/
theorem install (h : Coherent m W (some i) s) (hlt : i < s.bufferPool.poolSize) {path : Str}
    (hpath : s.diskMgr.path f = some path) (hp : p ≠ INVALID_PAGE_ID)
    (hnone : s.bufferPool.pageTable.find? (f, p) = none) (forWrite : Bool) :
    Coherent m W none { s with bufferPool :=
      { s.bufferPool.setFrame i ⟨s.diskMgr.page (f, p), p, f, p, forWrite, 1⟩ with
        pageTable := s.bufferPool.pageTable.insert (f, p) i } } := by
  let frame : PageFrame := ⟨s.diskMgr.page (f, p), p, f, p, forWrite, 1⟩
  have hget : ∀ j, (s.bufferPool.setFrame i frame).frames j =
      if j = i then frame else s.bufferPool.frames j := fun j => Function.update_apply ..
  have hother : ∀ {key' j}, s.bufferPool.pageTable.find? key' = some j → j ≠ i :=
    fun hj hji => (h.tracks.table hj).2.1 (by rw [hji])
  have hcar : Carries frame (f, p) := ⟨rfl, rfl, rfl, h.nonneg hpath, hp⟩
  have hcases : ∀ {key' j}, (s.bufferPool.pageTable.insert (f, p) i).find? key' = some j →
      (key' = (f, p) ∧ j = i ∧ (s.bufferPool.setFrame i frame).frames j = frame) ∨
      (s.bufferPool.pageTable.find? key' = some j ∧
        (s.bufferPool.setFrame i frame).frames j = s.bufferPool.frames j) := by
    intro key' j hj
    rcases Dict.eq_or_find?_of_find?_insert hj with ⟨heq, rfl⟩ | hj
    · exact Or.inl ⟨heq, rfl, by rw [hget, if_pos rfl]⟩
    · exact Or.inr ⟨hj, by rw [hget, if_neg (hother hj)]⟩
  exact {
    tracks := h.tracks.install hlt hnone hcar Nat.one_ne_zero
    nonneg := h.nonneg
    apart := h.apart
    pages := by
      intro key' path' hpath'
      by_cases heq : key' = (f, p)
      · have hk : (s.bufferPool.pageTable.insert (f, p) i).find? key' = some i := by
          rw [Dict.find?_insert, if_pos heq]
        rw [page_of_cached hk]
        show ((s.bufferPool.setFrame i frame).frames i).data = m key'
        rw [hget, if_pos rfl, heq]
        exact h.disk_eq hpath hnone
      · have hk : (s.bufferPool.pageTable.insert (f, p) i).find? key' =
            s.bufferPool.pageTable.find? key' := by rw [Dict.find?_insert, if_neg heq]
        rw [← h.pages hpath']
        cases hj : s.bufferPool.pageTable.find? key' with
        | none => rw [page_of_not_cached (hk.trans hj), page_of_not_cached hj]
        | some j =>
          rw [page_of_cached (hk.trans hj), page_of_cached hj]
          show ((s.bufferPool.setFrame i frame).frames j).data = _
          rw [hget, if_neg (hother hj)]
    cached := by
      intro key' j hj
      rcases hcases hj with ⟨heq, -, -⟩ | ⟨hj', -⟩
      · exact ⟨path, by rw [heq]; exact hpath⟩
      · exact h.cached hj'
    clean := by
      intro key' j hj hdirty
      rcases hcases hj with ⟨heq, -, hframe⟩ | ⟨hj', hframe⟩
      · refine Or.inr ?_
        show ((s.bufferPool.setFrame i frame).frames j).data = _
        rw [hframe, heq]
      · have hdirty' : (s.bufferPool.frames j).isDirty = false := hframe ▸ hdirty
        refine (h.clean hj' hdirty').imp_right fun hd => ?_
        show ((s.bufferPool.setFrame i frame).frames j).data = _
        rw [hframe, hd]
    pinned := by
      intro key' j hw hj
      show ((s.bufferPool.setFrame i frame).frames j).pinCount ≠ 0
      rcases hcases hj with ⟨-, -, hframe⟩ | ⟨hj', hframe⟩
      · rw [hframe]; exact Nat.one_ne_zero
      · rw [hframe]; exact h.pinned hw hj' }

/-! ## Fetching a page -/

/-- A page fetched: it has a frame, and one more pin. -/
structure Gained (key : PageKey) (i : ℕ) (s s' : Storage) : Prop where
  keeps : Keeps s s'
  table : s'.bufferPool.pageTable.find? key = some i
  pins : ∀ key', s'.pinsOf key' = s.pinsOf key' + if key' = key then 1 else 0

/-- A page that was cached is pinned once more. -/
theorem Gained.of_pin (h : s.bufferPool.Tracks out)
    (hk : s.bufferPool.pageTable.find? key = some i) {frame : PageFrame} {pool : BufferPool}
    (hsize : pool.poolSize = s.bufferPool.poolSize)
    (htable : pool.pageTable = s.bufferPool.pageTable)
    (hframes : pool.frames = (s.bufferPool.setFrame i frame).frames)
    (hpin : frame.pinCount = (s.bufferPool.frames i).pinCount + 1) :
    Gained key i s { s with bufferPool := pool } where
  keeps := ⟨fun _ => rfl, hsize, fun _ => congrArg (Dict.find? · _) htable⟩
  table := (congrArg (Dict.find? · _) htable).trans hk
  pins key' := by
    rw [pinsOf_setFrame h hk htable hframes]
    by_cases heq : key' = key
    · rw [if_pos heq, if_pos heq, heq, pinsOf_of_cached hk, hpin]
    · rw [if_neg heq, if_neg heq, Nat.add_zero]

/-- A page that was not cached is given the frame on its way. -/
theorem Gained.of_install (h : s.bufferPool.Tracks (some i))
    (hnone : s.bufferPool.pageTable.find? key = none) {frame : PageFrame} {pool : BufferPool}
    (hsize : pool.poolSize = s.bufferPool.poolSize)
    (htable : pool.pageTable = s.bufferPool.pageTable.insert key i)
    (hframes : pool.frames = (s.bufferPool.setFrame i frame).frames) (hpin : frame.pinCount = 1) :
    Gained key i s { s with bufferPool := pool } := by
  refine ⟨⟨fun _ => rfl, hsize, fun {key'} hpins => ?frames⟩, ?table, fun key' => ?pins⟩
  case frames =>
    show pool.pageTable.find? key' = _
    rw [htable]
    refine Dict.find?_insert_of_ne _ _ fun heq => hpins ?_
    rw [heq]
    exact pinsOf_of_not_cached hnone
  case table =>
    show pool.pageTable.find? key = _
    rw [htable, Dict.find?_insert_self]
  case pins =>
    rw [pinsOf_install h htable hframes]
    by_cases heq : key' = key
    · rw [if_pos heq, if_pos heq, heq, pinsOf_of_not_cached hnone, hpin]
    · rw [if_neg heq, if_neg heq, Nat.add_zero]

/-- A step before the fetch that leaves the pins. -/
theorem Gained.trans {s₁ s' : Storage} (h : Gained key i s₁ s') (hkeeps : Keeps s s₁)
    (hpins : ∀ key', s₁.pinsOf key' = s.pinsOf key') : Gained key i s s' where
  keeps := hkeeps.trans h.keeps fun key' hk => hpins key' ▸ hk
  table := h.table
  pins key' := by rw [h.pins, hpins]

theorem fetch_hit (h : Coherent m W none s) (hk : s.bufferPool.pageTable.find? (f, p) = some i)
    (forWrite : Bool) : wp (fun _ => False) (Storage.fetchPage f p forWrite)
      (fun j s' => Coherent m W none s' ∧ Gained (f, p) j s s') s := by
  have hk' : s.bufferPool.pageTable.find? (makePageKey f p) = some i := hk
  simp only [Storage.fetchPage, wp_bind, wp_get, hk', onPool, wp_modify, wp_pure]
  obtain ⟨-, -, hc⟩ := h.tracks.table hk
  let frame : PageFrame := { s.bufferPool.frames i with
    pinCount := (s.bufferPool.frames i).pinCount + 1
    isDirty := (s.bufferPool.frames i).isDirty || forWrite }
  let pool : BufferPool := { s.bufferPool with cacheHits := s.bufferPool.cacheHits + 1 }
  have hget : ∀ j, ((pool.setFrame i frame).removeLru i).frames j =
      if j = i then frame else s.bufferPool.frames j := by
    intro j
    rw [removeLru_frames]
    exact Function.update_apply ..
  have hcar : Carries frame (f, p) := ⟨hc.fileId, hc.pageNum, hc.pageId, hc.file, hc.page⟩
  have hpool : pool.Tracks none := h.tracks.cacheHits _
  have htracks : ((pool.setFrame i frame).removeLru i).Tracks none :=
    hpool.pin hk hcar (Nat.succ_ne_zero _)
  have htable : ((pool.setFrame i frame).removeLru i).pageTable = s.bufferPool.pageTable :=
    removeLru_pageTable
  refine ⟨h.reframe htracks htable ?data (fun _ => rfl) ?clean ?pinned,
    .of_pin h.tracks hk removeLru_poolSize htable removeLru_frames rfl⟩
  case data =>
    intro key' j hj
    rw [hget, ← h.data_eq hj]
    split
    case isTrue hji => rw [hji]
    case isFalse => rfl
  case clean =>
    intro key' j hj hdirty
    rw [hget] at hdirty ⊢
    split at hdirty
    case isTrue hji =>
      subst hji
      rw [if_pos rfl]
      exact h.clean hj (Bool.or_eq_false_iff.mp hdirty).1
    case isFalse hji =>
      rw [if_neg hji]
      exact h.clean hj hdirty
  case pinned =>
    intro key' j hw hj
    rw [hget]
    split
    case isTrue => exact Nat.succ_ne_zero _
    case isFalse => exact h.pinned hw hj

/-- The rest of a fetch once a frame is there for the page. -/
theorem load (h : Coherent m W (some i) s) (hlt : i < s.bufferPool.poolSize) {path : Str}
    (hpath : s.diskMgr.path f = some path) (hp : p ≠ INVALID_PAGE_ID)
    (hnone : s.bufferPool.pageTable.find? (f, p) = none) (forWrite : Bool) :
    wp (fun _ => False) (Storage.load f p forWrite i)
      (fun j s' => Coherent m W none s' ∧ Gained (f, p) j s s') s := by
  obtain ⟨fh, hfh, -⟩ := Option.map_eq_some_iff.mp hpath
  rw [wp_load hfh]
  exact ⟨h.install hlt hpath hp hnone forWrite, .of_install h.tracks hnone rfl rfl rfl rfl⟩

/-- The least recently used frame given up: its page was not pinned, and the disk has it then. -/
theorem evictVictim (h : Coherent m W none s) {victim : LruNode} {n : ℕ}
    (hlast : s.bufferPool.lruList.getLast? = some victim) :
    wp (fun _ => False) (evict (s.bufferPool.frames victim.frameIdx))
      (fun _ s' => Coherent m W (some victim.frameIdx) s' ∧ Keeps s s' ∧
        victim.frameIdx < s'.bufferPool.poolSize ∧
        (∀ key, s.bufferPool.pageTable.find? key = none →
          s'.bufferPool.pageTable.find? key = none) ∧
        ∀ key, s'.pinsOf key = s.pinsOf key)
      { s with bufferPool := { s.bufferPool with
        cacheMisses := n
        lruList := s.bufferPool.lruList.dropLast
        lruMap := s.bufferPool.lruMap.erase victim.frameIdx } } := by
  obtain ⟨key, hk, hpin, hlt, htracks, hevict⟩ := evict_victim h.tracks hlast n
  -- A page written under a pin is pinned, so the victim is not one of them.
  have hnotW : ¬ W key := fun hw => h.pinned hw hk hpin
  have hnone : ∀ key', s.bufferPool.pageTable.find? key' = none →
      (s.bufferPool.pageTable.erase key).find? key' = none := by
    intro key' hnone
    rw [Dict.find?_erase, hnone, ite_self]
  refine hevict.mpr ?_
  cases hdirty : (s.bufferPool.frames victim.frameIdx).isDirty with
  | false =>
    rw [if_neg (by simp)]
    have hdata := (h.clean hk hdirty).resolve_left hnotW
    exact ⟨h.giveUp hk hdata htracks rfl rfl, .of_giveUp hk hpin (fun _ => rfl) rfl rfl, hlt, hnone,
      pinsOf_giveUp hk hpin rfl rfl⟩
  | true =>
    obtain ⟨fh, hfh⟩ := h.handle hk
    have hdata : (s.diskMgr.store key.1 fh key.2 (s.bufferPool.frames victim.frameIdx).data).page
        key = (s.bufferPool.frames victim.frameIdx).data := DiskManager.page_store_self hfh
    rw [if_pos rfl, DiskManager.wp_writePage_store hfh]
    exact ⟨(h.store hk hfh).giveUp hk hdata.symm htracks rfl rfl,
      .of_giveUp hk hpin (DiskManager.path_store hfh) rfl rfl, hlt, hnone,
      pinsOf_giveUp hk hpin rfl rfl⟩

/-- A pool that has no frame for a page that is not cached. -/
def Full (s : Storage) : Prop := s.bufferPool.freeList = [] ∧ s.bufferPool.lruList.getLast? = none

/-- A fetch that finds no frame counts the miss and throws. -/
theorem run_fetchPage_full (hnone : s.bufferPool.pageTable.find? (f, p) = none) (hfull : Full s)
    (forWrite : Bool) : (Storage.fetchPage f p forWrite).run s = (.error allPinned, { s with
      bufferPool := { s.bufferPool with cacheMisses := s.bufferPool.cacheMisses + 1 } }) := by
  have hnone' : s.bufferPool.pageTable.find? (makePageKey f p) = none := hnone
  let s' : Storage := { s with
    bufferPool := { s.bufferPool with cacheMisses := s.bufferPool.cacheMisses + 1 } }
  have hvictim : findVictimFrame.run s' = (.error allPinned, s') := by
    unfold findVictimFrame
    rw [run_get_bind]
    simp only [s', hfull.1, hfull.2]
    rfl
  unfold Storage.fetchPage
  rw [run_get_bind]
  simp only [hnone', onPool]
  rw [run_modify_bind, run_bind_error hvictim]

theorem fetch_miss (h : Coherent m W none s) {path : Str} (hpath : s.diskMgr.path f = some path)
    (hp : p ≠ INVALID_PAGE_ID) (hnone : s.bufferPool.pageTable.find? (f, p) = none)
    (hfull : ¬ Full s) (forWrite : Bool) :
    wp (fun _ => False) (Storage.fetchPage f p forWrite)
      (fun j s' => Coherent m W none s' ∧ Gained (f, p) j s s') s := by
  refine wp_fetch_miss h.tracks hnone hfull (fun hfree hlt htracks => ?_) fun hlast => ?_
  · have h₁ := h.reframe (htracks.cacheMisses (s.bufferPool.cacheMisses + 1)) rfl h.data_eq
      (fun _ => rfl) h.clean h.pinned
    refine wp_mono (h₁.load hlt hpath hp hnone forWrite) ?_
    rintro j s' ⟨hs', hkeeps, htable, hpins⟩
    exact ⟨hs', ⟨hkeeps.paths, hkeeps.size, hkeeps.frames⟩, htable, hpins⟩
  · refine wp_mono (h.evictVictim hlast) ?_
    rintro - s₁ ⟨h₁, hkeeps, hlt, hgone, hpins⟩
    have hpath₁ : s₁.diskMgr.path f = some path := (hkeeps.paths f).trans hpath
    refine wp_mono (h₁.load hlt hpath₁ hp (hgone _ hnone) forWrite) ?_
    rintro j s' ⟨hs', hgained⟩
    exact ⟨hs', hgained.trans hkeeps hpins⟩

/-- A fetch that finds no frame leaves the storage as it is. -/
theorem fetch_full (h : Coherent m W none s)
    (hnone : s.bufferPool.pageTable.find? (f, p) = none) (hfull : Full s) (forWrite : Bool) :
    ∃ s', (Storage.fetchPage f p forWrite).run s = (.error allPinned, s') ∧
      Coherent m W none s' ∧ Keeps s s' ∧ ∀ key, s'.pinsOf key = s.pinsOf key := by
  refine ⟨_, run_fetchPage_full hnone hfull forWrite, ?_, ⟨fun _ => rfl, rfl, fun _ => rfl⟩,
    fun _ => rfl⟩
  exact h.reframe (h.tracks.cacheMisses _) rfl h.data_eq (fun _ => rfl) h.clean h.pinned

/-! ## Pinned pages -/

/-- The bytes of a pinned page changed by a client. -/
theorem setPageData (h : Coherent m W none s) (hk : s.bufferPool.pageTable.find? key = some i)
    (hpin : (s.bufferPool.frames i).pinCount ≠ 0) (data : Page) :
    wp (fun _ => False) (Storage.setPageData i data)
      (fun _ s' => Coherent (Function.update m key data) (fun key' => W key' ∨ key' = key) none s' ∧
        Still s s') s := by
  let frame : PageFrame := { s.bufferPool.frames i with data := data }
  have hget : ∀ j, (s.bufferPool.setFrame i frame).frames j =
      if j = i then frame else s.bufferPool.frames j := fun j => Function.update_apply ..
  have hpins : ∀ j, ((s.bufferPool.setFrame i frame).frames j).pinCount =
      (s.bufferPool.frames j).pinCount := by
    intro j
    rw [hget]
    split
    case isTrue hji => rw [hji]
    case isFalse => rfl
  simp only [Storage.setPageData, onPool, wp_modify]
  refine ⟨h.reframe (h.tracks.setFrame frame rfl rfl rfl Iff.rfl) rfl ?data ?rest ?clean ?pinned,
    fun _ => rfl, rfl, rfl, hpins⟩
  case data =>
    intro key' j hj
    rw [hget, Function.update_apply]
    by_cases heq : key' = key
    · obtain rfl : j = i := Option.some.inj (hj.symm.trans (heq ▸ hk))
      rw [if_pos rfl, if_pos heq]
    · have hji : j ≠ i := fun hji => heq (h.tracks.key_eq hj (hji ▸ hk))
      rw [if_neg hji, if_neg heq]
      exact h.data_eq hj
  case rest =>
    intro key' hnone
    refine Function.update_of_ne ?_ ..
    rintro rfl
    rw [hk] at hnone
    cases hnone
  case clean =>
    intro key' j hj hdirty
    by_cases heq : key' = key
    · exact Or.inl (Or.inr heq)
    · have hji : j ≠ i := fun hji => heq (h.tracks.key_eq hj (hji ▸ hk))
      rw [hget, if_neg hji] at hdirty ⊢
      exact (h.clean hj hdirty).imp_left Or.inl
  case pinned =>
    rintro key' j (hw | rfl) hj
    · rw [hpins]; exact h.pinned hw hj
    · rw [hpins, Option.some.inj (hj.symm.trans hk)]; exact hpin

/-- A pin ended. The pages `W'` are still written under an open pin; the page itself may leave them
when it is reported dirty. -/
theorem unpinPage (h : Coherent m W none s) (hpin : s.pinsOf (f, p) ≠ 0) (isDirty : Bool)
    (hle : ∀ key, W' key → W key)
    (hleft : ∀ key, W key → W' key ∨ key = (f, p) ∧ isDirty = true)
    (hopen : W' (f, p) → s.pinsOf (f, p) ≠ 1) :
    wp (fun _ => False) (Storage.unpinPage f p isDirty)
      (fun _ s' => Coherent m W' none s' ∧ Keeps s s' ∧
        ∀ key, s'.pinsOf key = s.pinsOf key - if key = (f, p) then 1 else 0) s := by
  cases hk : s.bufferPool.pageTable.find? (f, p) with
  | none => exact absurd (pinsOf_of_not_cached hk) hpin
  | some i =>
  rw [pinsOf_of_cached hk] at hpin hopen
  have hk' : s.bufferPool.pageTable.find? (makePageKey f p) = some i := hk
  obtain ⟨-, -, hc⟩ := h.tracks.table hk
  let frame : PageFrame := { s.bufferPool.frames i with
    pinCount := (s.bufferPool.frames i).pinCount - 1
    isDirty := (s.bufferPool.frames i).isDirty || isDirty }
  have hcar : Carries frame (f, p) := ⟨hc.fileId, hc.pageNum, hc.pageId, hc.file, hc.page⟩
  have hget : ∀ j, (s.bufferPool.setFrame i frame).frames j =
      if j = i then frame else s.bufferPool.frames j := fun j => Function.update_apply ..
  have hnext : ∀ {pool : BufferPool}, pool.Tracks none →
      pool.pageTable = s.bufferPool.pageTable →
      pool.poolSize = s.bufferPool.poolSize →
      pool.frames = (s.bufferPool.setFrame i frame).frames →
      Coherent m W' none { s with bufferPool := pool } ∧ Keeps s { s with bufferPool := pool } ∧
        ∀ key, Storage.pinsOf { s with bufferPool := pool } key =
          s.pinsOf key - if key = (f, p) then 1 else 0 := by
    intro pool htracks htable hsize hframes
    refine ⟨h.reframe htracks htable ?data (fun _ => rfl) ?clean ?pinned,
      ⟨fun _ => rfl, hsize, fun _ => congrArg (Dict.find? · _) htable⟩,
      pinsOf_unpin h.tracks hk htable hframes rfl⟩
    case data =>
      intro key j hj
      rw [hframes, hget, ← h.data_eq hj]
      split
      case isTrue hji => rw [hji]
      case isFalse => rfl
    case clean =>
      intro key j hj hdirty
      rw [hframes, hget] at hdirty ⊢
      split at hdirty
      case isTrue hji =>
        subst hji
        rw [if_pos rfl]
        obtain ⟨hclean, hfalse⟩ := Bool.or_eq_false_iff.mp hdirty
        rcases h.clean hj hclean with hw | hd
        · refine Or.inl ((hleft key hw).resolve_right ?_)
          rintro ⟨-, htrue⟩
          rw [hfalse] at htrue
          cases htrue
        · exact Or.inr hd
      case isFalse hji =>
        rw [if_neg hji]
        rcases h.clean hj hdirty with hw | hd
        · refine Or.inl ((hleft key hw).resolve_right ?_)
          rintro ⟨rfl, -⟩
          exact hji (Option.some.inj (hj.symm.trans hk))
        · exact Or.inr hd
    case pinned =>
      intro key j hw hj
      rw [hframes, hget]
      split
      case isTrue hji =>
        subst hji
        have hopen' := hopen (h.tracks.key_eq hj hk ▸ hw)
        show (s.bufferPool.frames j).pinCount - 1 ≠ 0
        omega
      case isFalse => exact h.pinned (hle key hw) hj
  simp only [Storage.unpinPage, wp_bind, wp_get, hk', if_neg hpin, onPool, wp_modify]
  by_cases hzero : (s.bufferPool.frames i).pinCount - 1 = 0
  · rw [if_pos hzero]
    exact hnext (h.tracks.unpin hk hcar hpin hzero) rfl rfl rfl
  · rw [if_neg hzero]
    have hpin' : frame.pinCount = 0 ↔ (s.bufferPool.frames i).pinCount = 0 :=
      iff_of_false hzero hpin
    exact hnext (h.tracks.setFrame frame rfl rfl rfl hpin') rfl rfl rfl

/-! ## Writing pages back -/

/-- A cached page written back and its frame clean. -/
theorem writeBack (h : Coherent m W none s) (hk : s.bufferPool.pageTable.find? key = some i)
    {fh : FileHandle} (hfh : s.diskMgr.files.find? key.1 = some fh) :
    let s' : Storage := ⟨s.diskMgr.store key.1 fh key.2 (s.bufferPool.frames i).data,
      s.bufferPool.setFrame i { s.bufferPool.frames i with isDirty := false }⟩
    Coherent m W none s' ∧ Still s s' := by
  intro s'
  let frame : PageFrame := { s.bufferPool.frames i with isDirty := false }
  have hget : ∀ j, (s.bufferPool.setFrame i frame).frames j =
      if j = i then frame else s.bufferPool.frames j := fun j => Function.update_apply ..
  have hsame : ∀ j, ((s.bufferPool.setFrame i frame).frames j).data = (s.bufferPool.frames j).data ∧
      ((s.bufferPool.setFrame i frame).frames j).pinCount = (s.bufferPool.frames j).pinCount := by
    intro j
    rw [hget]
    split
    case isTrue hji => rw [hji]; exact ⟨rfl, rfl⟩
    case isFalse => exact ⟨rfl, rfl⟩
  have hdata : (s.diskMgr.store key.1 fh key.2 (s.bufferPool.frames i).data).page key =
      (s.bufferPool.frames i).data := DiskManager.page_store_self hfh
  -- First the disk, then the dirty bit: once the bytes are on the disk the frame may be clean.
  have h₁ := h.store hk hfh
  refine ⟨h₁.reframe (h.tracks.setFrame frame rfl rfl rfl Iff.rfl) rfl ?data (fun _ => rfl) ?clean
    ?pinned, DiskManager.path_store hfh, rfl, rfl, fun j => (hsame j).2⟩
  case data =>
    intro key' j hj
    rw [(hsame j).1]
    exact h.data_eq hj
  case clean =>
    intro key' j hj hdirty
    rw [(hsame j).1]
    by_cases hji : j = i
    · subst hji
      obtain rfl : key' = key := h.tracks.key_eq hj hk
      exact Or.inr hdata.symm
    · rw [hget, if_neg hji] at hdirty
      exact h₁.clean hj hdirty
  case pinned =>
    intro key' j hw hj
    rw [(hsame j).2]
    exact h.pinned hw hj

theorem flushPage (h : Coherent m W none s) (f : ℤ) (p : ℕ) :
    wp (fun _ => False) (Storage.flushPage f p)
      (fun _ s' => Coherent m W none s' ∧ Still s s') s := by
  simp only [Storage.flushPage, wp_bind, wp_get]
  cases hk : s.bufferPool.pageTable.find? (makePageKey f p) with
  | none => exact ⟨h, Still.refl s⟩
  | some i =>
    simp only
    split
    case isTrue =>
      obtain ⟨fh, hfh⟩ := h.handle hk
      simp only [wp_bind, onDisk, wp_zoom, onPool, wp_modify]
      exact (DiskManager.wp_writePage_store hfh).mpr (h.writeBack hk hfh)
    case isFalse => exact ⟨h, Still.refl s⟩

theorem flushFrame (h : Coherent m W none s) (hk : s.bufferPool.pageTable.find? key = some i) :
    wp (fun _ => False) (Storage.flushFrame i)
      (fun _ s' => Coherent m W none s' ∧ Still s s' ∧
        (s'.bufferPool.frames i).isDirty = false ∧
        ∀ j, (s.bufferPool.frames j).isDirty = false →
          (s'.bufferPool.frames j).isDirty = false) s := by
  obtain ⟨-, -, hc⟩ := h.tracks.table hk
  simp only [Storage.flushFrame, wp_bind, wp_get]
  split
  case isTrue =>
    obtain ⟨fh, hfh⟩ := h.handle hk
    have hwrite : ∀ {Q : Unit → DiskManager → Prop}, wp (fun _ => False)
        (DiskManager.writePage (s.bufferPool.frames i).fileId (s.bufferPool.frames i).pageNum
          (s.bufferPool.frames i).data) Q s.diskMgr ↔
        Q () (s.diskMgr.store key.1 fh key.2 (s.bufferPool.frames i).data) := by
      intro Q
      rw [hc.fileId, hc.pageNum]
      exact DiskManager.wp_writePage_store hfh
    simp only [wp_bind, onDisk, wp_zoom, onPool, wp_modify, hwrite]
    obtain ⟨h', hstill⟩ := h.writeBack hk hfh
    refine ⟨h', hstill, by simp [setFrame], fun j hj => ?_⟩
    simp only [setFrame, Function.update_apply]
    split
    case isTrue => rfl
    case isFalse => exact hj
  case isFalse hnot =>
    refine ⟨h, Still.refl s, ?_, fun _ hj => hj⟩
    have hfile : 0 ≤ (s.bufferPool.frames i).fileId := hc.fileId ▸ hc.file
    simpa [hfile] using hnot

/-- After all pages were written back every frame is clean. -/
theorem flushAllPages (h : Coherent m W none s) :
    wp (fun _ => False) Storage.flushAllPages
      (fun _ s' => Coherent m W none s' ∧ Still s s' ∧
        ∀ {key j}, s'.bufferPool.pageTable.find? key = some j →
          (s'.bufferPool.frames j).isDirty = false) s := by
  simp only [Storage.flushAllPages, wp_bind, wp_get]
  refine wp_mono (wp_foldlM (fun done _ s' => Coherent m W none s' ∧ Still s s' ∧
    ∀ e ∈ done, (s'.bufferPool.frames e.2).isDirty = false) _ ?step
    ⟨h, Still.refl s, by simp⟩) ?post
  case step =>
    rintro done ⟨key, i⟩ rest - s₁ hsplit ⟨h₁, hstill, hdone⟩
    have hk : s.bufferPool.pageTable.find? key = some i :=
      (Dict.mem_iff h.tracks.unique).mp (by rw [hsplit]; simp)
    have hk₁ : s₁.bufferPool.pageTable.find? key = some i := hstill.table ▸ hk
    refine wp_mono (h₁.flushFrame hk₁) ?_
    rintro - s₂ ⟨h₂, hstill₂, hclean, hkept⟩
    refine ⟨h₂, hstill.trans hstill₂, fun e he => ?_⟩
    rcases List.mem_append.mp he with he | he
    · exact hkept _ (hdone e he)
    · rw [List.mem_singleton.mp he]; exact hclean
  case post =>
    rintro - s' ⟨h', hstill, hclean⟩
    refine ⟨h', hstill, fun {key j} hj => hclean (key, j) ?_⟩
    exact (Dict.mem_iff h.tracks.unique).mpr (hstill.table ▸ hj)

/-- When no frame is dirty and no page is being written, the disk has the pages. -/
theorem disk_of_clean (h : Coherent m (fun _ => False) none s)
    (hclean : ∀ {key j}, s.bufferPool.pageTable.find? key = some j →
      (s.bufferPool.frames j).isDirty = false) {path : Str}
    (hpath : s.diskMgr.path key.1 = some path) : s.diskMgr.page key = m key := by
  cases hk : s.bufferPool.pageTable.find? key with
  | none => exact h.disk_eq hpath hk
  | some i =>
    rcases h.clean hk (hclean hk) with hw | hd
    · exact hw.elim
    · rw [← hd]; exact h.data_eq hk

end Coherent

end Storage

end MiniDB
