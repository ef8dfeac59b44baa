import MiniDB.Storage.Coherence

/-!
# Files that grow, appear and reach the disk

What the calls of the disk manager do to the files in use, and what a flush leaves on the disk.

## Main results

* `Holds.allocateNewPage`: a file in use grows by a page of zeros
* `Holds.createFile`, `Holds.openFile`: a file comes into use under a new id
* `Holds.flushAllPages`: no page changes, and the disk has every page
-/

namespace MiniDB.Storage

open Program BufferPool

variable {F : Files} {pin out : Option ℕ} {s : Storage} {f : ℤ} {t : TableFile} {p i : ℕ} {d : Page}

/-- The fault of a file of `n` pages that cannot grow any more. -/
def AtLimit (n : ℕ) (e : Fault) : Prop := e = .io ∧ INVALID_PAGE_ID ≤ n

namespace Holds

/-- The storage before a file is opened. -/
theorem holds_new (disk : Str → Option File) {poolSize : ℕ} (hpool : 0 < poolSize) :
    Holds (fun _ => none) none none ⟨DiskManager.new disk, BufferPool.new poolSize⟩ := by
  constructor
  case tracks => exact BufferPool.tracks_new poolSize
  case pins => intro key i hi; cases hi
  case opened => intro f t ht; cases ht
  case apart => intro f g t u ht; cases ht
  case pages => intro f t p d ht; cases ht
  case cached => intro key i hi; cases hi
  case known => intro key i hi; cases hi
  case fresh => intro f _; rfl
  case pos => exact Int.one_pos
  case room => exact hpool

/-! ## Files that grow and appear -/

/-- A file added to those in use, or grown, by a change of the disk: the pages already there stay
as they were, and the pages that are new are not cached. -/
theorem extend (h : Holds F pin out s) (d' : DiskManager) {u : TableFile}
    (hopen : Opened d' f u) (hpath : ∀ {g t}, g ≠ f → F g = some t → t.path ≠ u.path)
    (hnext : s.diskMgr.nextFileId ≤ d'.nextFileId)
    (hother : ∀ {g t}, g ≠ f → F g = some t → Opened d' g t)
    (hfresh : ∀ {g}, d'.nextFileId ≤ g → d'.files.find? g = none)
    (hpage : ∀ {g t q}, g ≠ f → F g = some t → d'.page (g, q) = s.diskMgr.page (g, q))
    (hold : ∀ {q i}, s.bufferPool.pageTable.find? (f, q) = some i → ∃ t, F f = some t ∧
      q < t.pages.length ∧ t.pages.length ≤ u.pages.length ∧ u.pages[q]? = t.pages[q]? ∧
        d'.page (f, q) = s.diskMgr.page (f, q))
    (hnew : ∀ {q d}, u.pages[q]? = some d → s.bufferPool.pageTable.find? (f, q) = none →
      d'.page (f, q) = d) :
    Holds (Function.update F f (some u)) pin out { s with diskMgr := d' } where
  tracks := h.tracks
  pins := h.pins
  opened := by
    intro g t hg
    rw [Function.update_apply] at hg
    split at hg
    case isTrue hgf => rw [hgf, ← Option.some.inj hg]; exact hopen
    case isFalse hgf => exact hother hgf hg
  apart := by
    intro g g' t t' hg hg' hp
    rw [Function.update_apply] at hg hg'
    split at hg <;> split at hg'
    case isTrue.isTrue hgf hgf' => rw [hgf, hgf']
    case isTrue.isFalse hgf hgf' =>
      exact absurd hp.symm (Option.some.inj hg ▸ hpath hgf' hg')
    case isFalse.isTrue hgf hgf' =>
      exact absurd hp (Option.some.inj hg' ▸ hpath hgf hg)
    case isFalse.isFalse => exact h.apart hg hg' hp
  known hk := Int.lt_of_lt_of_le (h.known hk) hnext
  fresh := hfresh
  pos := Int.lt_of_lt_of_le h.pos hnext
  room := h.room
  pages := by
    intro g t q d hg hq
    rw [Function.update_apply] at hg
    split at hg
    case isTrue hgf =>
      subst hgf
      obtain rfl := Option.some.inj hg
      cases hk : s.bufferPool.pageTable.find? (g, q) with
      | none =>
        rw [page_of_not_cached (s := { s with diskMgr := d' }) hk]
        exact hnew hq hk
      | some j =>
        obtain ⟨t, hF, -, -, hsame, -⟩ := hold hk
        rw [page_of_cached (s := { s with diskMgr := d' }) hk, ← page_of_cached hk]
        exact h.pages hF (hsame ▸ hq)
    case isFalse hgf =>
      rw [← h.pages hg hq]
      cases hk : s.bufferPool.pageTable.find? (g, q) with
      | none =>
        rw [page_of_not_cached (s := { s with diskMgr := d' }) hk, page_of_not_cached hk]
        exact hpage hgf hg
      | some j => rw [page_of_cached (s := { s with diskMgr := d' }) hk, page_of_cached hk]
  cached := by
    intro key j hk
    rw [Function.update_apply]
    split
    case isTrue hkf =>
      obtain ⟨g, q⟩ := key
      obtain rfl : g = f := hkf
      obtain ⟨t, hF, hq, hle, -, hsame⟩ := hold hk
      refine Or.inl ⟨u, rfl, Nat.lt_of_lt_of_le hq hle, fun hfalse => ?_⟩
      rcases h.cached hk with ⟨-, -, -, hclean⟩ | ⟨hnone, -⟩
      · exact (hclean hfalse).trans hsame.symm
      · rw [show F (g, q).1 = F g from rfl, hF] at hnone; cases hnone
    case isFalse hkf =>
      rcases h.cached hk with ⟨t, hF, hq, hclean⟩ | hstale
      · exact Or.inl ⟨t, hF, hq, fun hfalse => (hclean hfalse).trans (hpage hkf hF).symm⟩
      · exact Or.inr hstale

/-- `allocateNewPage`: a page of zeros at the end of the file, unless it cannot grow any more. -/
theorem allocateNewPage (h : Holds F pin out s) (hF : F f = some t) :
    wp (AtLimit t.pages.length) (onDisk (DiskManager.allocateNewPage f))
      (fun n s' => n = t.pages.length ∧
        Holds (Function.update F f (some ⟨t.path, t.pages ++ [Block.zero]⟩)) pin out s') s := by
  have ho : Opened s.diskMgr f t := h.opened hF
  simp only [onDisk, wp_zoom, DiskManager.allocateNewPage, wp_bind, DiskManager.wp_handle ho.handle]
  split
  case isFalse hlt => exact ⟨rfl, Nat.not_lt.mp hlt⟩
  case isTrue hlt =>
    simp only [wp_bind, wp_modify, wp_pure, true_and]
    -- The handle counts the page before it is written.
    let d₀ : DiskManager := s.diskMgr.setHandle f ⟨t.path, t.pages.length + 1⟩
    have hfiles : ∀ g, g ≠ f → d₀.files.find? g = s.diskMgr.files.find? g :=
      fun g hg => Dict.find?_insert_of_ne _ _ hg
    have hself : d₀.files.find? f = some ⟨t.path, t.pages.length + 1⟩ := Dict.find?_insert_self ..
    have hcontent : ∀ path, d₀.content path = s.diskMgr.content path := fun _ => rfl
    have hpage₀ : ∀ {g q}, g ≠ f → d₀.page (g, q) = s.diskMgr.page (g, q) := by
      intro g q hg
      simp only [DiskManager.page, hfiles g hg, hcontent]
    have hpagef : ∀ q, d₀.page (f, q) = s.diskMgr.page (f, q) := by
      intro q
      simp only [DiskManager.page, hself, ho.handle, hcontent]
    have hpath : ∀ {g u}, g ≠ f → F g = some u → u.path ≠ t.path :=
      fun hg hu he => hg (h.apart hu hF he)
    have hsize : ((d₀.put t.path t.pages.length Block.zero).content t.path).size =
        (t.pages.length + 1) * PAGE_SIZE := by
      rw [DiskManager.put, DiskManager.content_setContent, if_pos rfl]
      simp only [File.writeAt, hcontent, ho.size]
      simp only [PAGE_SIZE]
      omega
    refine h.extend (d₀.put t.path t.pages.length Block.zero)
      (u := ⟨t.path, t.pages ++ [Block.zero]⟩) ?_ hpath (Int.le_refl _) ?_ ?_ ?_ ?_ ?_
    · exact ⟨by simpa using hself, DiskManager.isSome_disk_put _ _ _ _ ho.onDisk,
        by simpa using hsize, by simpa using Nat.succ_le_of_lt hlt, ho.nonneg⟩
    · intro g u hg hu
      have hou := h.opened hu
      refine ⟨(hfiles g hg).trans hou.handle, DiskManager.isSome_disk_put _ _ _ _ hou.onDisk, ?_,
        hou.small, hou.nonneg⟩
      rw [DiskManager.put, DiskManager.content_setContent, if_neg (hpath hg hu), hcontent]
      exact hou.size
    · intro g hg
      have hgf : g ≠ f := fun he => absurd (h.lt_next hF) (Int.not_lt.mpr (he ▸ hg))
      exact (hfiles g hgf).trans (h.fresh hg)
    · intro g u q hg hu
      rw [DiskManager.page_put_of_ne _ _ _ _ ((hfiles g hg).trans (h.opened hu).handle)
        fun he => absurd he (hpath hg hu), hpage₀ hg]
    · intro q j hk
      have hq : q < t.pages.length := by
        rcases h.cached hk with ⟨u, hu, hq, -⟩ | ⟨hnone, -⟩
        · have hut : u = t := Option.some.inj (hu.symm.trans hF)
          exact hut ▸ hq
        · rw [show F (f, q).1 = F f from rfl, hF] at hnone; cases hnone
      refine ⟨t, hF, hq, by simp, List.getElem?_append_left hq, ?_⟩
      rw [DiskManager.page_put_of_ne _ _ _ _ hself fun _ => Nat.ne_of_lt hq, hpagef]
    · intro q d hq hk
      by_cases hlast : q = t.pages.length
      · subst hlast
        have hd : Block.zero = d := by simpa using hq
        rw [← hd]
        exact DiskManager.page_put_self _ _ _ _ hself
      · have hlt' : q < t.pages.length := by
          have hlen := (List.getElem?_eq_some_iff.mp hq).1
          simp only [List.length_append, List.length_singleton] at hlen
          omega
        rw [List.getElem?_append_left hlt'] at hq
        rw [DiskManager.page_put_of_ne _ _ _ _ hself fun _ => hlast, hpagef, ← h.pages hF hq,
          page_of_not_cached hk]

/-- A file opened under a new id: what holds of the disk after its handle is there. -/
theorem register (h : Holds F pin out s) (d' : DiskManager) {u : TableFile}
    (hfiles : d'.files = s.diskMgr.files.insert s.diskMgr.nextFileId ⟨u.path, u.pages.length⟩)
    (hnext : d'.nextFileId = s.diskMgr.nextFileId + 1)
    (hcontent : ∀ path, path ≠ u.path → d'.disk path = s.diskMgr.disk path)
    (hdisk : (d'.disk u.path).isSome) (hsize : (d'.content u.path).size = u.pages.length * PAGE_SIZE)
    (hsmall : u.pages.length ≤ INVALID_PAGE_ID)
    (hpages : ∀ {q d}, u.pages[q]? = some d → (d'.content u.path).readAt (q * PAGE_SIZE) = d)
    (hpath : ∀ {g t}, F g = some t → t.path ≠ u.path) :
    Holds (Function.update F s.diskMgr.nextFileId (some u)) pin out { s with diskMgr := d' } := by
  have hother : ∀ g, g ≠ s.diskMgr.nextFileId →
      d'.files.find? g = s.diskMgr.files.find? g := by
    intro g hg
    rw [hfiles, Dict.find?_insert_of_ne _ _ hg]
  have hself : d'.files.find? s.diskMgr.nextFileId = some ⟨u.path, u.pages.length⟩ := by
    rw [hfiles, Dict.find?_insert_self]
  have hsame : ∀ {g t}, F g = some t → d'.content t.path = s.diskMgr.content t.path := by
    intro g t hg
    rw [DiskManager.content, hcontent _ (hpath hg), DiskManager.content]
  -- The id is new: no page is cached under it, and no other file has its handle or its path.
  refine h.extend d' ⟨hself, hdisk, hsize, hsmall, Int.le_of_lt h.pos⟩ (fun _ hg => hpath hg)
    (by rw [hnext]; omega) ?_ ?_ ?_ ?_ ?_
  · intro g t hg ht
    have ho := h.opened ht
    exact ⟨(hother g hg).trans ho.handle, by rw [hcontent _ (hpath ht)]; exact ho.onDisk,
      by rw [hsame ht]; exact ho.size, ho.small, ho.nonneg⟩
  · intro g hg
    rw [hnext] at hg
    rw [hother g (by omega)]
    exact h.fresh (by omega)
  · intro g t q hg ht
    have ho := (h.opened ht).handle
    simp only [DiskManager.page, ho, (hother g hg).trans ho, hsame ht]
  · intro q i hk
    exact absurd (h.known hk) (Int.lt_irrefl _)
  · intro q d hq _
    simp only [DiskManager.page, hself]
    exact hpages hq

/-- `createFile` on a path that no file in use has. -/
theorem createFile (h : Holds F pin out s) {fileName : Str}
    (hpath : ∀ {g t}, F g = some t → t.path ≠ DiskManager.fullPath fileName) :
    wp (fun _ => False) (onDisk (DiskManager.createFile fileName))
      (fun f s' => f = s.diskMgr.nextFileId ∧
        Holds (Function.update F f (some ⟨DiskManager.fullPath fileName, []⟩)) pin out s') s := by
  simp only [onDisk, wp_zoom, DiskManager.createFile, wp_bind, wp_get, wp_set, wp_pure]
  refine ⟨rfl, h.register _ rfl rfl ?_ ?_ ?_ (Nat.zero_le _) (fun hq => absurd hq (by simp))
    hpath⟩
  · exact fun path hne => Function.update_of_ne hne ..
  · simp [DiskManager.setContent, DiskManager.setHandle]
  · simp [DiskManager.content, DiskManager.setContent, DiskManager.setHandle, File.empty]

/-- The pages of a file on the disk. -/
def filePages (file : File) : List Page :=
  (List.range (file.size % 2 ^ 32 / PAGE_SIZE)).map fun p => file.readAt (p * PAGE_SIZE)

/-- `openFile` on a file of whole pages below 4 GiB that no id in use has open. -/
theorem openFile (h : Holds F pin out s) {fileName : Str} {file : File}
    (hfile : s.diskMgr.disk (DiskManager.fullPath fileName) = some file)
    (hsize : PAGE_SIZE ∣ file.size) (hsmall : file.size < 2 ^ 32)
    (hpath : ∀ {g t}, F g = some t → t.path ≠ DiskManager.fullPath fileName) :
    wp (fun _ => False) (onDisk (DiskManager.openFile fileName))
      (fun f s' => f = s.diskMgr.nextFileId ∧ s'.diskMgr.disk = s.diskMgr.disk ∧
        Holds (Function.update F f (some ⟨DiskManager.fullPath fileName, filePages file⟩)) pin out
          s') s := by
  have hlen : (filePages file).length = file.size % 2 ^ 32 / PAGE_SIZE := by simp [filePages]
  simp only [onDisk, wp_zoom, DiskManager.openFile, wp_bind, wp_get, hfile, wp_set, wp_pure]
  refine ⟨rfl, rfl, h.register _ ?_ rfl (fun _ _ => rfl) ?_ ?_ ?_ ?_ hpath⟩
  · rw [hlen]; rfl
  · show (s.diskMgr.disk _).isSome
    rw [hfile]
    rfl
  · show (Option.getD (s.diskMgr.disk _) _).size = _
    rw [hfile, hlen, Nat.mod_eq_of_lt hsmall, Nat.div_mul_cancel hsize]
    rfl
  · rw [hlen, Nat.mod_eq_of_lt hsmall]
    simp only [PAGE_SIZE, INVALID_PAGE_ID]
    omega
  · intro q d hq
    show (Option.getD (s.diskMgr.disk _) _).readAt _ = d
    rw [hfile]
    simp only [filePages, List.getElem?_map, Option.map_eq_some_iff] at hq
    obtain ⟨q', hq', rfl⟩ := hq
    obtain ⟨-, rfl⟩ := List.getElem?_eq_some_iff.mp hq'
    simp

/-! ## Flushing -/

/-- A frame that agrees with the disk marked clean. -/
theorem clean (h : Holds F pin out s) {key : PageKey}
    (hk : s.bufferPool.pageTable.find? key = some i)
    (hdisk : F key.1 ≠ none → (s.bufferPool.frames i).data = s.diskMgr.page key) :
    Holds F pin out { s with
      bufferPool := s.bufferPool.setFrame i { s.bufferPool.frames i with isDirty := false } } := by
  let s' : Storage := { s with
    bufferPool := s.bufferPool.setFrame i { s.bufferPool.frames i with isDirty := false } }
  have hget : ∀ j, s'.bufferPool.frames j =
      if j = i then { s.bufferPool.frames i with isDirty := false } else s.bufferPool.frames j :=
    fun j => Function.update_apply ..
  have hdata : ∀ j, (s'.bufferPool.frames j).data = (s.bufferPool.frames j).data := by
    intro j
    rw [hget]
    split
    case isTrue hji => rw [hji]
    case isFalse => rfl
  exact {
    tracks := h.tracks.setFrame _ rfl rfl rfl Iff.rfl
    pins := by
      intro key' j hj
      show (s'.bufferPool.frames j).pinCount = _
      rw [hget]
      split
      case isTrue hji => subst hji; exact h.pins hj
      case isFalse => exact h.pins hj
    opened := h.opened
    apart := h.apart
    known := h.known
    fresh := h.fresh
    pos := h.pos
    room := h.room
    pages := by
      intro g t q d hg hq
      rw [← h.pages hg hq]
      have htable : s'.bufferPool.pageTable.find? (g, q) =
          s.bufferPool.pageTable.find? (g, q) := rfl
      show s'.page (g, q) = s.page (g, q)
      cases hj : s.bufferPool.pageTable.find? (g, q) with
      | none => rw [page_of_not_cached hj, page_of_not_cached (htable.trans hj)]
      | some j => rw [page_of_cached hj, page_of_cached (htable.trans hj), hdata]
    cached := by
      intro key' j hj
      show (∃ t, F key'.1 = some t ∧ key'.2 < t.pages.length ∧
        ((s'.bufferPool.frames j).isDirty = false →
          (s'.bufferPool.frames j).data = s.diskMgr.page key')) ∨
        (F key'.1 = none ∧ (s'.bufferPool.frames j).isDirty = false)
      rw [hdata, hget]
      by_cases hji : j = i
      · subst hji
        obtain rfl : key' = key := h.tracks.key_eq hj hk
        rw [if_pos rfl]
        rcases h.cached hj with ⟨t, hF, hq, -⟩ | ⟨hnone, -⟩
        · exact Or.inl ⟨t, hF, hq, fun _ => hdisk (by rw [hF]; simp)⟩
        · exact Or.inr ⟨hnone, rfl⟩
      · rw [if_neg hji]
        exact h.cached hj }

/-- Every cached page is clean. -/
def Clean (s : Storage) : Prop := ∀ {key i}, s.bufferPool.pageTable.find? key = some i →
  (s.bufferPool.frames i).isDirty = false

/-- The step of `flushAllPages`. -/
theorem flushFrame (h : Holds F pin out s) {key : PageKey}
    (hk : s.bufferPool.pageTable.find? key = some i) :
    wp (fun _ => False) (Storage.flushFrame i)
      (fun _ s' => Holds F pin out s' ∧ s'.bufferPool.pageTable = s.bufferPool.pageTable ∧
        (s'.bufferPool.frames i).isDirty = false ∧
        ∀ j, (s.bufferPool.frames j).isDirty = false →
          (s'.bufferPool.frames j).isDirty = false) s := by
  obtain ⟨-, -, hc⟩ := h.tracks.table hk
  have hnonneg : 0 ≤ (s.bufferPool.frames i).fileId := hc.fileId ▸ hc.file
  simp only [Storage.flushFrame, wp_bind, wp_get]
  cases hdirty : (s.bufferPool.frames i).isDirty with
  | false =>
    rw [if_neg (by simp)]
    exact ⟨h, rfl, hdirty, fun _ => id⟩
  | true =>
    rcases h.cached hk with ⟨t, hF, hp, -⟩ | ⟨-, hclean⟩
    · rw [if_pos ⟨rfl, hnonneg⟩]
      simp only [wp_bind, onDisk, wp_zoom, hc.fileId, hc.pageNum,
        DiskManager.wp_writePage (h.opened hF).handle hp, onPool, wp_modify]
      have hput := h.put hk hF
      have hflushed := hput.clean hk fun _ =>
        (DiskManager.page_put_self _ _ _ _ (h.opened hF).handle).symm
      refine ⟨by simpa only [hc.fileId, hc.pageNum] using hflushed, rfl, ?_, ?_⟩
      · simp [BufferPool.setFrame]
      · intro j hj
        by_cases hji : j = i
        · simp [BufferPool.setFrame, hji]
        · simpa [BufferPool.setFrame, Function.update_of_ne hji] using hj
    · rw [hdirty] at hclean; cases hclean

/-- `flushAllPages` changes no page, and leaves every cached page clean. -/
theorem flushAllPages (h : Holds F pin out s) :
    wp (fun _ => False) Storage.flushAllPages
      (fun _ s' => Holds F pin out s' ∧ Clean s') s := by
  simp only [Storage.flushAllPages, wp_bind, wp_get]
  refine wp_mono (wp_foldlM (fun done _ s' => Holds F pin out s' ∧
      s'.bufferPool.pageTable = s.bufferPool.pageTable ∧
      ∀ entry ∈ done, (s'.bufferPool.frames entry.2).isDirty = false) _ ?_ ⟨h, rfl, by simp⟩) ?_
  · rintro done ⟨key, i⟩ rest - s₁ hentries ⟨h₁, htable, hdone⟩
    have hk : s₁.bufferPool.pageTable.find? key = some i := by
      rw [htable, ← Dict.mem_iff h.tracks.unique, hentries]
      simp
    refine wp_mono (h₁.flushFrame hk) ?_
    rintro - s₂ ⟨h₂, htable₂, hi, hkeep⟩
    refine ⟨h₂, htable₂.trans htable, fun entry hentry => ?_⟩
    rcases List.mem_append.mp hentry with hmem | hmem
    · exact hkeep _ (hdone entry hmem)
    · rw [List.mem_singleton.mp hmem]
      exact hi
  · rintro - s₁ ⟨h₁, htable, hdone⟩
    refine ⟨h₁, fun {key i} hk => hdone (key, i) ?_⟩
    rw [htable] at hk
    exact (Dict.mem_iff h.tracks.unique).mpr hk

end Holds

end MiniDB.Storage
