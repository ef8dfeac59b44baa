import MiniDB.Storage.Reopen

/-!
# Heap files after a crash

`allocateNewPage` puts a page of zeros on the disk at once, while `initPage` writes its header to
the buffer pool only. After a crash a page of a heap file is thus one of its versions, or zeros. The
header of a page of zeros says that it has no slots and that its free space starts at its first
byte: it reads as an empty page, but an insertion that picks it copies the tuple over the header.
First fit stops at such a page, whatever the size of the tuple is, unless a page before it has room.

## Main definitions

* `HeapCall.Version`: the bytes of a page after some of the calls of a run
* `HeapCall.AfterCrash`: a heap file that a crash may leave
* `Survives`: an insertion that can be read back and leaves the other tuples alone

## Main results

* `Storage.Holds.survives`: an insertion that does not pick a page of zeros survives
* `HeapCall.insertion_survives_iff`: the files on which all insertions do
-/

namespace MiniDB

open Program

/-- An insertion into the file `f` returns, every tuple then reads as it was inserted, and a scan
finds the new tuple besides those that it would have found before. -/
def Survives (f : ℤ) (s : Storage) (data : Str) : Prop :=
  ∃ before s₀ rid s₁ after s₂,
    (PageManager.scanTable HeapCall.keep f []).run s = (.ok before, s₀) ∧
    (PageManager.insertTuple f data data.length).run s = (.ok rid, s₁) ∧
    (PageManager.scanTable HeapCall.keep f []).run s₁ = (.ok after, s₂) ∧
    after.Perm ((rid, data) :: before) ∧
    ∀ e ∈ (rid, data) :: before, ∃ s₃, (PageManager.readTuple f e.1).run s₁ = (.ok e.2, s₃)

namespace Storage.Holds

variable {F : Files} {s : Storage} {f : ℤ} {t : TableFile} {h : Heap} {data : Str}

/-- Reading a tuple of pages that read as a heap. -/
theorem read_live (hs : Holds F none none s) (hF : F f = some t)
    (hl : List.Forall₂ ReadsAs t.pages h) {rid : RID} (hlive : h.tuple? rid = some data) :
    ∃ s', (PageManager.readTuple f rid).run s = (.ok data, s') := by
  obtain ⟨pg, hpg, htuple⟩ := Option.bind_eq_some_iff.mp hlive
  have hlt : rid.pageId < t.pages.length := by
    rw [hl.length_eq]
    exact (List.getElem?_eq_some_iff.mp hpg).1
  have hpage := List.getElem?_eq_getElem hlt
  have hbytes := (Pages.rel_getElem? hl hpage hpg).slotBytes rid.slotNum
  rw [htuple] at hbytes
  obtain ⟨bytes, s', hrun, rfl, -⟩ := wp_total.mp (hs.readTuple hF hpage hbytes)
  exact ⟨s', hrun⟩

/-- An insertion that does not pick a page of zeros survives. -/
theorem survives (hs : Holds F none none s) (hF : F f = some t)
    (hl : List.Forall₂ ReadsAs t.pages h) (hsmall : t.pages.length < INVALID_PAGE_ID)
    (hdata : Storable data)
    (hpick : t.pages[Pages.firstFit t.pages data.length]? ≠ some Block.zero) :
    Survives f s data := by
  rw [Pages.firstFit_eq hl hdata.2] at hpick
  have hslot : ∀ page pg, t.pages[h.firstFit data.length]? = some page →
      h[h.firstFit data.length]? = some pg → Slotted page pg := by
    intro page pg hpage hpg
    rcases Pages.rel_getElem? hl hpage hpg with hslot | ⟨rfl, -⟩
    · exact hslot
    · exact absurd hpage hpick
  obtain ⟨pages, hins, hl'⟩ := Pages.insert_eq Slotted.readsAs (fun hr => hr) hl hdata.2 hslot
  obtain ⟨s₀, hbefore⟩ := HeapCall.scan_keep hs hF hl
  have hwp := wp_weaken (hs.insertTuple hF hins)
    fun _ he => (Nat.not_le.mpr hsmall he.2 : False)
  obtain ⟨rid, s₁, hrun, rfl, h₁⟩ := wp_total.mp hwp
  have hF₁ : Function.update F f (some ⟨t.path, pages⟩) f = some ⟨t.path, pages⟩ :=
    Function.update_self ..
  obtain ⟨s₂, hafter⟩ := HeapCall.scan_keep h₁ hF₁ hl'
  have hperm := Heap.live_insert (h := h) hdata.ne_nil
  refine ⟨_, s₀, _, s₁, _, s₂, hbefore, hrun, hafter, hperm, ?_⟩
  intro e he
  exact h₁.read_live hF₁ hl' (Heap.mem_live.mp (hperm.mem_iff.mpr he))

end Storage.Holds

/-! ## Insertions into a page of zeros -/

/-- The largest tuple, of zeros. -/
def zeros : Str := List.replicate MAX_TUPLE 0

theorem length_zeros : zeros.length = MAX_TUPLE := List.length_replicate

theorem storable_zeros : Storable zeros := by
  unfold Storable
  rw [length_zeros]
  decide

/-- The largest tuple of zeros copied over the header of a page of zeros: the length of its slot is
overwritten. -/
theorem placeTuple_zeros : ∃ page, PageManager.placeTuple Block.zero 0 zeros = .ok page ∧
    page.numSlots = 0 ∧ PageManager.slotBytes (page.setNumSlots 1) 0 = .ok [] := by
  have hlen : zeros.length = 3576 := length_zeros
  let page₁ : Page := Block.setField 2 Block.zero 8 0
  let page₂ : Page := Block.setField 2 page₁ 264 3576
  have hptr : page₂.freeSpacePtr = 0 := by
    rw [Page.freeSpacePtr, Block.field_setField_of_disjoint _ _ _ (by omega),
      Block.field_setField_of_disjoint _ _ _ (by omega), Block.field_zero]
  -- The copy writes zeros over the two fields that were set.
  have hcopy : page₂.write 0 zeros = Block.zero := by
    apply Block.ext
    intro i hi
    rw [Block.byte_write _ _ _ hi, Block.byte_zero]
    split
    case isTrue =>
      rw [zeros, List.getD_eq_getElem?_getD, List.getElem?_replicate]
      split <;> rfl
    case isFalse hout =>
      have houtside : ∀ (page : Page) (off v : ℕ), off + 2 ≤ 3576 →
          Block.byte (Block.setField 2 page off v) i = page.byte i := by
        intro page off v hoff
        refine Block.byte_write_of_lt page _ ?_
        rw [Bytes.length_encode]
        omega
      exact (houtside page₁ 264 3576 (by omega)).trans
        ((houtside Block.zero 8 0 (by omega)).trans (Block.byte_zero i))
  refine ⟨Page.setFreeSpacePtr Block.zero 3576, ?_, ?_, ?_⟩
  · have h₁ : Page.setSlotDirectory Block.zero 0 (Page.freeSpacePtr Block.zero) = .ok page₁ := by
      rw [freeSpacePtr_zero]
      exact if_pos (by decide)
    have h₂ : Page.setSlotLengths page₁ 0 zeros.length = .ok page₂ := by
      rw [hlen]
      exact if_pos (by decide)
    have h₃ : Page.copyIn page₂ page₂.freeSpacePtr zeros = .ok Block.zero := by
      rw [hptr, Page.copyIn, if_pos (by rw [hlen]; decide), hcopy]
    rw [PageManager.placeTuple, h₁, Machine.ok_bind, h₂, Machine.ok_bind, h₃, Machine.ok_bind,
      freeSpacePtr_zero, hlen]
    rfl
  · rw [Page.numSlots, Page.setFreeSpacePtr, Block.field_setField_of_disjoint _ _ _ (by omega),
      Block.field_zero]
  · have hslots : (Page.setNumSlots (Page.setFreeSpacePtr Block.zero 3576) 1).numSlots = 1 :=
      Block.field_setField_self _ _ (by decide) (by decide)
    have hlength : (Page.setNumSlots (Page.setFreeSpacePtr Block.zero 3576) 1).slotLengths 0 =
        .ok 0 := by
      rw [Page.slotLengths, if_pos (by decide), Page.setNumSlots,
        Block.field_setField_of_disjoint _ _ _ (by omega), Page.setFreeSpacePtr,
        Block.field_setField_of_disjoint _ _ _ (by omega), Block.field_zero]
    rw [PageManager.slotBytes, hslots, if_neg (by decide), hlength]
    rfl

namespace Storage.Holds

variable {F : Files} {s : Storage} {f : ℤ} {t : TableFile}

/-- An insertion of the largest tuple of zeros does not survive in a page of zeros. -/
theorem not_survives (hs : Holds F none none s) (hF : F f = some t)
    (hsmall : t.pages.length < INVALID_PAGE_ID)
    (hpick : t.pages[Pages.firstFit t.pages MAX_TUPLE]? = some Block.zero) :
    ¬ Survives f s zeros := by
  obtain ⟨hlt, -⟩ := List.getElem?_eq_some_iff.mp hpick
  obtain ⟨page, hplace, hnum, hbytes⟩ := placeTuple_zeros
  have hslot : Pages.slotFor Block.zero = .ok 0 := by
    rw [Pages.slotFor, numSlots_zero]
    rfl
  have hins : Pages.insert t.pages zeros = .ok (t.pages.set (Pages.firstFit t.pages MAX_TUPLE)
      (page.setNumSlots 1), ⟨Pages.firstFit t.pages MAX_TUPLE, 0⟩) := by
    rw [Pages.insert, length_zeros, Pages.withRoom, if_pos hlt, hpick]
    simp only [Pages.insertAt, hslot, Machine.ok_bind, hplace, Machine.pure_eq_ok]
    rw [if_neg (by decide), if_pos (by rw [hnum])]
  have hwp := wp_weaken (hs.insertTuple hF hins)
    fun _ he => (Nat.not_le.mpr hsmall he.2 : False)
  obtain ⟨rid, s₁, hrun, rfl, h₁⟩ := wp_total.mp hwp
  -- The slot that the insertion returns reads as an empty one.
  have hpage : (t.pages.set (Pages.firstFit t.pages MAX_TUPLE) (page.setNumSlots 1))[RID.pageId
      ⟨Pages.firstFit t.pages MAX_TUPLE, 0⟩]? = some (page.setNumSlots 1) :=
    List.getElem?_set_self hlt
  obtain ⟨bytes, s₂, hread, rfl, -⟩ := wp_total.mp (h₁.readTuple (Function.update_self ..) hpage
    hbytes)
  rintro ⟨before, s₀, rid', s₁', after, s₂', -, hrun', -, -, hall⟩
  obtain ⟨hrid, rfl⟩ := Prod.mk.inj (hrun.symm.trans hrun')
  obtain ⟨s₃, hread'⟩ := hall (rid', zeros) List.mem_cons_self
  rw [← Except.ok.inj hrid, hread] at hread'
  obtain ⟨hsame, -⟩ := Prod.mk.inj hread'
  exact absurd (Except.ok.inj hsame).symm storable_zeros.ne_nil

end Storage.Holds

/-! ## Crashes -/

namespace HeapCall

/-- The bytes of the page `p` after some of the calls. The pool writes a page back between two
changes of it only, so these are the versions that can be on the disk. -/
def Version (f : ℤ) (s : Storage) (calls : List HeapCall) (p : ℕ) (page : Page) : Prop :=
  ∃ before s' rids, before <+: calls ∧ run f s before = .ok (s', rids) ∧
    p < s'.diskMgr.getFilePageCount f ∧ page = s'.page (f, p)

/-- A file that a crash may leave when the calls were made and the next one had begun: that one may
have allocated a page, and every page is one of its versions or, if it was never written back,
zeros. -/
structure AfterCrash (f : ℤ) (s : Storage) (calls : List HeapCall) (file : File) : Prop where
  whole : PAGE_SIZE ∣ file.size
  length : ∃ s' rids, run f s calls = .ok (s', rids) ∧
    file.size / PAGE_SIZE ≤ s'.diskMgr.getFilePageCount f + 1
  page : ∀ p, p < file.size / PAGE_SIZE → file.readAt (p * PAGE_SIZE) = Block.zero ∨
    Version f s calls p (file.readAt (p * PAGE_SIZE))

variable {f : ℤ} {s : Storage} {calls : List HeapCall} {file : File}

/-- A version of a page lays out a page of a heap. -/
theorem Version.slotted {p : ℕ} {page : Page} (hv : Version f s calls p page)
    (hheap : IsHeap f s ()) (hcalls : Machine.Meets (Fits f) (step f) s calls) :
    ∃ pg, Slotted page pg := by
  obtain ⟨before, s', rids, ⟨after, rfl⟩, hrun, hp, rfl⟩ := hv
  have hbefore : Machine.Meets (Fits f) (step f) s before := by
    intro as₁ call as₂ heq
    exact hcalls as₁ call (as₂ ++ after) (by rw [heq]; simp)
  rcases Machine.run_simulates (step_keeps_heap f) before s () hheap hbefore with
    ⟨e, -, he⟩ | ⟨s'', rids', ⟨⟩, hrun', -, H, hf, hs, hH⟩
  · rw [show Machine.run _ _ _ = _ from hrun] at he
    cases he
  · obtain ⟨rfl, -⟩ := Prod.mk.inj (Except.ok.inj (hrun'.symm.trans hrun))
    rw [hs.getFilePageCount hH] at hp
    obtain ⟨F, hF, hrel⟩ := hs
    obtain ⟨t, ht, hl⟩ := Stores.rel_some hrel hH
    obtain ⟨page, hpage, hslot⟩ := Stores.page_of_heap hl (List.getElem?_eq_getElem hp)
    exact ⟨_, hF.pages ht hpage ▸ hslot⟩

/-- The pages that a crash leaves read as a heap. -/
theorem AfterCrash.readsAs (hcrash : AfterCrash f s calls file) (hsmall : file.size < 2 ^ 32)
    (hheap : IsHeap f s ()) (hcalls : Machine.Meets (Fits f) (step f) s calls) :
    ∃ h, List.Forall₂ ReadsAs (Storage.Holds.filePages file) h := by
  have hpages : ∀ page ∈ Storage.Holds.filePages file, ∃ pg, ReadsAs page pg := by
    intro page hmem
    obtain ⟨p, hp, rfl⟩ := List.mem_map.mp hmem
    rw [List.mem_range, Nat.mod_eq_of_lt hsmall] at hp
    rcases hcrash.page p hp with hzero | hv
    · exact ⟨_, Or.inr ⟨hzero, rfl⟩⟩
    · obtain ⟨pg, hslot⟩ := hv.slotted hheap hcalls
      exact ⟨pg, hslot.readsAs⟩
  generalize Storage.Holds.filePages file = pages at hpages
  induction pages with
  | nil => exact ⟨[], .nil⟩
  | cons page pages ih =>
    obtain ⟨pg, hr⟩ := hpages page List.mem_cons_self
    obtain ⟨h, hl⟩ := ih fun page hmem => hpages page (List.mem_cons_of_mem _ hmem)
    exact ⟨pg :: h, .cons hr hl⟩

end HeapCall

/-- Every page of zeros comes after an initialised page that is not in use yet. -/
def ZerosLast (pages : List Page) : Prop := ∀ p, pages[p]? = some Block.zero →
  ∃ (q : ℕ) (page : Page), q < p ∧ pages[q]? = some page ∧ page.freeSpacePtr = HEADER_SIZE

namespace Pages

variable {pages : List Page} {h : Heap}

/-- A page that is not in use yet has room for every tuple. -/
theorem firstFit_ne_zero (hlast : ZerosLast pages) {n : ℕ} (hn : n ≤ MAX_TUPLE) :
    pages[firstFit pages n]? ≠ some Block.zero := by
  intro hzero
  obtain ⟨q, page, hq, hpage, hptr⟩ := hlast _ hzero
  have hfree : page.freeSpace = MAX_TUPLE := by
    rw [Page.freeSpace, hptr]
    rfl
  obtain ⟨hlt, rfl⟩ := List.getElem?_eq_some_iff.mp hpage
  have hnot := List.not_of_lt_findIdx hq
  simp only [hfree, decide_eq_false_iff_not] at hnot
  exact hnot hn

/-- The largest tuple fits pages of zeros and pages that are not in use only. -/
theorem zerosLast_of_firstFit (hl : List.Forall₂ ReadsAs pages h)
    (hpick : pages[firstFit pages MAX_TUPLE]? ≠ some Block.zero) : ZerosLast pages := by
  intro p hzero
  have hfits : MAX_TUPLE ≤ Page.freeSpace Block.zero := by
    rw [Page.freeSpace, freeSpacePtr_zero]
    decide
  obtain ⟨hlt, hpage⟩ := List.getElem?_eq_some_iff.mp hzero
  -- First fit goes no further than a page of zeros, which seems to have room for all.
  have hle : firstFit pages MAX_TUPLE ≤ p := by
    by_contra hgt
    have hnot := List.not_of_lt_findIdx (Nat.not_le.mp hgt)
    simp only [hpage, decide_eq_false_iff_not] at hnot
    exact hnot hfits
  have hne : firstFit pages MAX_TUPLE ≠ p := fun heq => hpick (heq ▸ hzero)
  have hget := List.getElem?_eq_getElem (Nat.lt_of_le_of_lt hle hlt)
  have hget' := List.getElem?_eq_getElem (hl.length_eq ▸ Nat.lt_of_le_of_lt hle hlt)
  refine ⟨_, _, Nat.lt_of_le_of_ne hle hne, hget, ?_⟩
  rcases rel_getElem? hl hget hget' with hs | ⟨heq, -⟩
  · have hfound := List.findIdx_of_getElem?_eq_some
      (p := fun page : Page => decide (MAX_TUPLE ≤ page.freeSpace)) hget
    have hroom := of_decide_eq_true hfound
    have hge := hs.header_le
    have hmax : MAX_TUPLE = PAGE_SIZE - HEADER_SIZE := rfl
    have hpage : HEADER_SIZE < PAGE_SIZE := by decide
    rw [hs.freeSpace, HeapPage.free] at hroom
    rw [hs.freeSpacePtr]
    omega
  · exact absurd (hget.trans (congrArg some heq)) hpick

end Pages

namespace HeapCall

/-- Heap files after a crash, from the creation of a table on: an insertion survives when the page
that first fit picks is not a page of zeros, and all insertions survive exactly when every page of
zeros comes after an initialised page that is not in use yet. -/
theorem insertion_survives_iff (disk : Str → Option File) {poolSize : ℕ} (hpool : 0 < poolSize)
    (tableName : Str) {f : ℤ} {s : Storage} (hcreate : (PageManager.createTable tableName).run
      ⟨DiskManager.new disk, BufferPool.new poolSize⟩ = (.ok f, s))
    (calls : List HeapCall) (hcalls : Machine.Meets (Fits f) (step f) s calls) {file : File}
    (hcrash : AfterCrash f s calls file) (hsmall : file.size < 2 ^ 32)
    (disk' : Str → Option File) (hdisk : disk' (tableFile tableName) = some file) {poolSize' : ℕ}
    (hpool' : 0 < poolSize') :
    ∃ g s', (PageManager.openTable tableName).run
        ⟨DiskManager.new disk', BufferPool.new poolSize'⟩ = (.ok g, s') ∧
      (∀ data, Storable data → (Storage.Holds.filePages file)[Pages.firstFit
        (Storage.Holds.filePages file) data.length]? ≠ some Block.zero → Survives g s' data) ∧
      ((∀ data, Storable data → Survives g s' data) ↔ ZerosLast (Storage.Holds.filePages file)) := by
  obtain ⟨H₀, h₀, hs₀, hH₀, -⟩ := stores_of_create hpool hcreate
  obtain ⟨h, hl⟩ := hcrash.readsAs hsmall ⟨H₀, h₀, hs₀, hH₀⟩ hcalls
  obtain ⟨g, s', hopen, rfl, -, hs⟩ := wp_total.mp
    ((Storage.Holds.holds_new disk' hpool').openFile hdisk hcrash.whole hsmall nofun)
  have hg := Function.update_self (DiskManager.new disk').nextFileId
    (some (TableFile.mk (DiskManager.fullPath (tableName ++ lit ".db"))
      (Storage.Holds.filePages file))) fun _ => none
  -- There is room for one more page, so an insertion does not fail for want of a page.
  have hlen : (Storage.Holds.filePages file).length < INVALID_PAGE_ID := by
    rw [Storage.Holds.filePages, List.length_map, List.length_range]
    simp only [PAGE_SIZE, INVALID_PAGE_ID]
    omega
  refine ⟨_, s', hopen, fun data => hs.survives hg hl hlen, ?_, ?_⟩
  · intro hall
    refine Pages.zerosLast_of_firstFit hl fun hpick => ?_
    exact hs.not_survives hg hlen hpick (hall zeros storable_zeros)
  · intro hlast data hdata
    exact hs.survives hg hl hlen hdata (Pages.firstFit_ne_zero hlast hdata.2)

/-- A crash after a tuple of a whole page and a tuple on a second page: of the first page the file
has the version without tuples, of the second one zeros. -/
theorem insertion_survives_iff_stale :
    let file := File.ofPages [PageManager.initPage 0, Block.zero]
    AfterCrash 1 sampleStorage [.insert (List.replicate 3576 7), .insert [1]] file ∧
    ∃ g s', (PageManager.openTable (lit "t")).run
        ⟨DiskManager.new fun _ => some file, BufferPool.new 1⟩ = (.ok g, s') ∧
      ∀ data, Storable data → Survives g s' data := by
  intro file
  have hstale : file.readAt (0 * PAGE_SIZE) = PageManager.initPage 0 := File.readAt_ofPages rfl
  have hzero : file.readAt (1 * PAGE_SIZE) = Block.zero := File.readAt_ofPages rfl
  have hsmall : file.size < 2 ^ 32 := by decide
  have hcount : file.size / PAGE_SIZE = 2 := Nat.mul_div_cancel 2 (by decide)
  have hpages : Storage.Holds.filePages file = [PageManager.initPage 0, Block.zero] := by
    rw [Storage.Holds.filePages, Nat.mod_eq_of_lt hsmall, hcount]
    exact congrArg₂ (fun page₀ page₁ => [page₀, page₁]) hstale hzero
  have hcrash : AfterCrash 1 sampleStorage
      [.insert (List.replicate 3576 7), .insert [1]] file := by
    constructor
    case whole => exact ⟨2, rfl⟩
    case length =>
      obtain ⟨⟨s', rids⟩, hrun, hgrown⟩ : ∃ r, run 1 sampleStorage
            [.insert (List.replicate 3576 7), .insert [1]] = .ok r ∧
          r.1.diskMgr.getFilePageCount 1 = 2 := Machine.map_eq_ok.mp (by decide +kernel)
      refine ⟨s', rids, hrun, ?_⟩
      rw [hcount, show s'.diskMgr.getFilePageCount 1 = 2 from hgrown]
      decide
    case page =>
      intro p hp
      obtain rfl | rfl : p = 0 ∨ p = 1 := by omega
      · exact Or.inr ⟨[], sampleStorage, [], List.nil_prefix, rfl, by decide +kernel, hstale⟩
      · exact Or.inl hzero
  obtain ⟨g, s', hopen, -, hiff⟩ := insertion_survives_iff (fun _ => none) Nat.one_pos (lit "t")
    sample_created [.insert (List.replicate 3576 7), .insert [1]]
    (.cons (Nat.le_of_eq List.length_replicate) fun _ _ _ =>
      .cons (by show _ ≤ _; decide) fun _ _ _ => .nil)
    hcrash hsmall (fun _ => some file) rfl Nat.one_pos
  refine ⟨hcrash, g, s', hopen, hiff.mpr ?_⟩
  rw [hpages]
  have hptr := (slotted_initPage 0).freeSpacePtr
  intro p hp
  refine ⟨0, _, Nat.pos_of_ne_zero ?_, rfl, hptr⟩
  rintro rfl
  rw [show PageManager.initPage 0 = Block.zero from Option.some.inj hp, freeSpacePtr_zero] at hptr
  exact absurd hptr (by decide)

/-- The storage of a process that opens the table after a crash right after its creation. -/
def crashedStorage : Storage := ((PageManager.openTable (lit "t")).run
  ⟨DiskManager.new sampleStorage.diskMgr.disk, BufferPool.new 1⟩).2

/-- A crash right after a table was created: its page is on the disk as zeros. The row `(1, 'a')`
that is inserted then reads as nine zeros. -/
theorem insertion_lost_after_crash : ∃ file g s' rid s₁ s₂,
    sampleStorage.diskMgr.disk (tableFile (lit "t")) = some file ∧
    AfterCrash 1 sampleStorage [] file ∧
    (PageManager.openTable (lit "t")).run
      ⟨DiskManager.new sampleStorage.diskMgr.disk, BufferPool.new 1⟩ = (.ok g, s') ∧
    Storable [1, 1, 0, 0, 0, 2, 1, 0, 97] ∧
    (PageManager.insertTuple g [1, 1, 0, 0, 0, 2, 1, 0, 97] 9).run s' = (.ok rid, s₁) ∧
    (PageManager.readTuple g rid).run s₁ = (.ok [0, 0, 0, 0, 0, 0, 0, 0, 0], s₂) ∧
    ¬ Survives g s' [1, 1, 0, 0, 0, 2, 1, 0, 97] := by
  have hfile : sampleStorage.diskMgr.disk (tableFile (lit "t")) =
      some (File.empty.writeAt (0 * PAGE_SIZE) Block.zero) := rfl
  have hcrash : AfterCrash 1 sampleStorage [] (File.empty.writeAt (0 * PAGE_SIZE) Block.zero) := by
    refine ⟨⟨1, rfl⟩, ⟨sampleStorage, [], rfl, by decide +kernel⟩, fun p hp => Or.inl ?_⟩
    obtain rfl : p = 0 := Nat.lt_one_iff.mp hp
    exact File.readAt_writeAt_self ..
  have hopen : ((PageManager.openTable (lit "t")).run
      ⟨DiskManager.new sampleStorage.diskMgr.disk, BufferPool.new 1⟩).1 = .ok 1 := rfl
  have hins : ((PageManager.insertTuple 1 [1, 1, 0, 0, 0, 2, 1, 0, 97] 9).run
      crashedStorage).1.toOption = some ⟨0, 0⟩ := by decide +kernel
  have hread : ((PageManager.readTuple 1 ⟨0, 0⟩).run ((PageManager.insertTuple 1
      [1, 1, 0, 0, 0, 2, 1, 0, 97] 9).run crashedStorage).2).1.toOption =
      some [0, 0, 0, 0, 0, 0, 0, 0, 0] := by decide +kernel
  have hins' := run_of_result (Machine.toOption_eq_some.mp hins)
  have hread' := run_of_result (Machine.toOption_eq_some.mp hread)
  refine ⟨_, 1, crashedStorage, ⟨0, 0⟩, _, _, hfile, hcrash, run_of_result hopen, by decide, hins',
    hread', ?_⟩
  rintro ⟨before, s₀, rid, s₁, after, s₂, -, hrun, -, -, hall⟩
  obtain ⟨hrid, rfl⟩ := Prod.mk.inj (hins'.symm.trans hrun)
  obtain ⟨s₃, hsame⟩ := hall (rid, [1, 1, 0, 0, 0, 2, 1, 0, 97]) List.mem_cons_self
  rw [← Except.ok.inj hrid, hread'] at hsame
  exact absurd (Except.ok.inj (Prod.mk.inj hsame).1) (by decide)

end HeapCall

end MiniDB
