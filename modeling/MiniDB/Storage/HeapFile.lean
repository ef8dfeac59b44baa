import MiniDB.Storage.RawPages
import MiniDB.Storage.SlottedPage

/-!
# Heap files

The calls of the page manager on heap files as lists of heap pages. Each call leaves every page
unpinned and changes the one file it is about; a call that would need another page of a file that
has no room for one is a failed disk operation.

## Main definitions

* `Heap.insert`, `Heap.delete`, `Heap.live`: the operations on a heap, and its live tuples
* `Stores H s`: the storage holds the heap files `H`, and no page is pinned

## Main results

* `Stores.createTable`, `Stores.insertTuple`, `Stores.deleteTuple`: the calls that change a heap
* `Stores.readTuple`, `Stores.scanTable`: the calls that read it
-/

namespace MiniDB

open Program

/-- A heap: its pages. -/
abbrev Heap := List HeapPage

namespace Heap

/-- The first page with room for a tuple of `n` bytes. -/
def firstFit (h : Heap) (n : ℕ) : ℕ := h.findIdx fun pg => n ≤ pg.free

/-- A tuple on a page of its own at the end. -/
def append (h : Heap) (bytes : Str) : Heap × RID :=
  (h ++ [HeapPage.empty.put bytes], ⟨h.length, 0⟩)

/-- A tuple in the next slot of the first page with room for it, or on a new page when no page has
room or the slots of that page are all in use. -/
def insert (h : Heap) (bytes : Str) : Heap × RID :=
  match h[h.firstFit bytes.length]? with
  | some pg =>
    if pg.nextSlot < MAX_SLOTS_PER_PAGE then
      (h.set (h.firstFit bytes.length) (pg.put bytes), ⟨h.firstFit bytes.length, pg.nextSlot⟩)
    else h.append bytes
  | none => h.append bytes

theorem le_free_of_firstFit {h : Heap} {n : ℕ} {pg : HeapPage}
    (hget : h[h.firstFit n]? = some pg) : n ≤ pg.free := by
  obtain ⟨hlt, rfl⟩ := List.getElem?_eq_some_iff.mp hget
  have hfound : decide (n ≤ (h[h.firstFit n]).free) = true := List.findIdx_getElem (w := hlt)
  simpa using hfound

/-- The slot of a record identifier emptied. -/
def delete (h : Heap) (rid : RID) : Heap := h.modify rid.pageId (·.clear rid.slotNum)

/-- The tuple of a record identifier. -/
def tuple? (h : Heap) (rid : RID) : Option Str := h[rid.pageId]?.bind (·.tuple? rid.slotNum)

/-- The live tuples of pages numbered from `p` on. -/
def liveFrom : ℕ → Heap → List (RID × Str)
  | _, [] => []
  | p, pg :: pgs => pg.live p ++ liveFrom (p + 1) pgs

/-- The live tuples, in the order of their record identifiers. -/
def live (h : Heap) : List (RID × Str) := liveFrom 0 h

end Heap

/-- The largest tuple a page has room for. -/
def MAX_TUPLE : ℕ := PAGE_SIZE - HEADER_SIZE

/-- A tuple that a page has room for, and that an empty slot cannot be mistaken for. -/
def Storable (bytes : Str) : Prop := 1 ≤ bytes.length ∧ bytes.length ≤ MAX_TUPLE

instance (bytes : Str) : Decidable (Storable bytes) := inferInstanceAs (Decidable (_ ∧ _))

theorem Storable.ne_nil {bytes : Str} (h : Storable bytes) : bytes ≠ [] :=
  List.length_pos_iff.mp h.1

/-- A heap file: its path and its pages. -/
structure HeapFile where
  path : Str
  pages : Heap

/-- The heap files in use, by their ids. -/
abbrev Heaps := ℤ → Option HeapFile

/-! ## The pages of a heap -/

namespace Pages

variable {R : Page → HeapPage → Prop} {pages : List Page} {h : Heap} {bytes : Str}

theorem rel_getElem? (hl : List.Forall₂ R pages h) {p : ℕ} {page : Page} {pg : HeapPage}
    (hpage : pages[p]? = some page) (hpg : h[p]? = some pg) : R page pg := by
  obtain ⟨hlt, rfl⟩ := List.getElem?_eq_some_iff.mp hpage
  obtain ⟨hlt', rfl⟩ := List.getElem?_eq_some_iff.mp hpg
  exact hl.get hlt hlt'

theorem rel_concat (hl : List.Forall₂ R pages h) {page : Page} {pg : HeapPage} (hr : R page pg) :
    List.Forall₂ R (pages ++ [page]) (h ++ [pg]) :=
  List.rel_append hl (.cons hr .nil)

theorem rel_set (hl : List.Forall₂ R pages h) (p : ℕ) {page : Page} {pg : HeapPage}
    (hr : R page pg) : List.Forall₂ R (pages.set p page) (h.set p pg) := by
  induction hl generalizing p with
  | nil => exact .nil
  | cons hhead htail ih =>
    cases p with
    | zero => exact .cons hr htail
    | succ p => exact .cons hhead (ih p)

/-- An insertion picks the page that the heap picks. -/
theorem firstFit_eq (hl : List.Forall₂ ReadsAs pages h) {n : ℕ} (hn : n ≤ MAX_TUPLE) :
    firstFit pages n = h.firstFit n := by
  induction hl with
  | nil => rfl
  | cons hr _ ih =>
    have hiff := hr.fits_iff hn
    unfold firstFit Heap.firstFit at ih ⊢
    rw [List.findIdx_cons, List.findIdx_cons, ih, decide_eq_decide.mpr hiff]

/-- A tuple on a page of its own. -/
theorem append_eq (hR : ∀ {page pg}, Slotted page pg → R page pg) (hl : List.Forall₂ R pages h)
    (hb : bytes.length ≤ MAX_TUPLE) : ∃ pages', append pages bytes = .ok (pages', (h.append bytes).2) ∧
      List.Forall₂ R pages' (h.append bytes).1 := by
  have hlen : pages.length = h.length := hl.length_eq
  obtain ⟨page, hplace, hnum, hslot⟩ := (slotted_initPage pages.length).placeTuple (by decide) hb
  have hzero : page.numSlots = 0 := hnum.trans (slotted_initPage _).numSlots
  have hplace' : PageManager.placeTuple (PageManager.initPage pages.length) 0 bytes = .ok page :=
    hplace
  rw [if_pos (by rw [hzero]; exact Nat.zero_le _)] at hslot
  refine ⟨pages ++ [page.setNumSlots 1], ?_, rel_concat hl (hR hslot)⟩
  rw [append, hplace', Heap.append, ← hlen]
  rfl

/-- A tuple on a page that lays out a page of the heap. -/
theorem insertAt_eq (hR : ∀ {page pg}, Slotted page pg → R page pg) (hl : List.Forall₂ R pages h)
    {p : ℕ} {page : Page} {pg : HeapPage} (hs : Slotted page pg) (hfit : bytes.length ≤ pg.free)
    (hroom : pg.nextSlot < MAX_SLOTS_PER_PAGE) :
    ∃ pages', insertAt pages p page bytes = .ok (pages', ⟨p, pg.nextSlot⟩) ∧
      List.Forall₂ R pages' (h.set p (pg.put bytes)) := by
  obtain ⟨o, ho, hnext⟩ := hs.findEmptySlot
  obtain ⟨page', hplace, -, hslot'⟩ := hs.placeTuple hroom hfit
  refine ⟨_, ?_, rel_set hl p (hR hslot')⟩
  rw [insertAt, slotFor, ho]
  simp only [Machine.ok_bind, Machine.pure_eq_ok, hnext, if_neg (Nat.not_le.mpr hroom), hplace]

/-- An insertion into pages that read as a heap, when the page it picks is not a page of zeros. -/
theorem insert_eq (hR : ∀ {page pg}, Slotted page pg → R page pg)
    (hread : ∀ {page pg}, R page pg → ReadsAs page pg) (hl : List.Forall₂ R pages h)
    (hb : bytes.length ≤ MAX_TUPLE)
    (hpick : ∀ page pg, pages[h.firstFit bytes.length]? = some page →
      h[h.firstFit bytes.length]? = some pg → Slotted page pg) :
    ∃ pages', insert pages bytes = .ok (pages', (h.insert bytes).2) ∧
      List.Forall₂ R pages' (h.insert bytes).1 := by
  have hlen : pages.length = h.length := hl.length_eq
  have hsame : firstFit pages bytes.length = h.firstFit bytes.length :=
    firstFit_eq (hl.imp fun _ _ => hread) hb
  unfold insert withRoom
  rw [hsame]
  by_cases hlt : h.firstFit bytes.length < h.length
  · -- A page has room; its slots decide whether the tuple goes there.
    have hget := List.getElem?_eq_getElem hlt
    have hlt' : h.firstFit bytes.length < pages.length := hlen ▸ hlt
    have hget' := List.getElem?_eq_getElem hlt'
    have hs := hpick _ _ hget' hget
    rw [if_pos hlt', hget']
    unfold Heap.insert
    rw [hget]
    by_cases hroom : (h[h.firstFit bytes.length]).nextSlot < MAX_SLOTS_PER_PAGE
    · simp only [if_pos hroom]
      exact insertAt_eq hR hl hs (Heap.le_free_of_firstFit hget) hroom
    · -- All its slots are taken; a page is added although there was room.
      simp only [if_neg hroom]
      obtain ⟨pages', happ, hl'⟩ := append_eq hR hl hb
      obtain ⟨o, ho, hnext⟩ := hs.findEmptySlot
      refine ⟨pages', ?_, hl'⟩
      rw [insertAt, slotFor, ho]
      simp only [Machine.ok_bind, Machine.pure_eq_ok, hnext, if_pos (Nat.not_lt.mp hroom), happ]
  · -- No page has room; the tuple is the first of a page just added.
    have hfull : h.firstFit bytes.length = h.length :=
      Nat.le_antisymm List.findIdx_le_length (Nat.not_lt.mp hlt)
    have hempty := rel_concat hl (hR (slotted_initPage pages.length))
    rw [if_neg (by rw [hlen]; exact hlt), hfull, ← hlen, List.getElem?_concat_length]
    obtain ⟨pages', hins, hl'⟩ := insertAt_eq hR hempty (slotted_initPage pages.length) hb
      (by decide)
    refine ⟨pages', ?_, ?_⟩
    · rw [Heap.insert, hfull, List.getElem?_eq_none (Nat.le_refl _), Heap.append, ← hlen]
      exact hins
    · rw [Heap.insert, hfull, List.getElem?_eq_none (Nat.le_refl _), Heap.append]
      have hset : (h ++ [HeapPage.empty]).set pages.length (HeapPage.empty.put bytes) =
          h ++ [HeapPage.empty.put bytes] := by rw [hlen]; simp
      exact hset ▸ hl'

/-- A scan hands every live tuple of the heap to the callback. -/
theorem scan_eq {β : Type} {callback : β → RID → Str → ℕ → Except Fault (β × Bool)}
    {g : β → RID × Str → β} (hl : List.Forall₂ ReadsAs pages h) (p : ℕ) (b : β)
    (hcall : ∀ b rid bytes rest, (rid, bytes) ∈ Heap.liveFrom p h →
      callback b rid (bytes ++ rest) bytes.length = .ok (g b (rid, bytes), true)) :
    scan callback p pages b = .ok ((Heap.liveFrom p h).foldl g b) := by
  induction hl generalizing p b with
  | nil => rfl
  | cons hr _ ih =>
    have hslots := hr.scanSlots p b fun b rid bytes rest hmem =>
      hcall b rid bytes rest (List.mem_append_left _ hmem)
    rw [scan, hslots, Machine.ok_bind, Heap.liveFrom, List.foldl_append]
    exact ih (p + 1) _ fun b rid bytes rest hmem =>
      hcall b rid bytes rest (List.mem_append_right _ hmem)

end Pages

/-- The pages of a file lay out the heap. -/
def Lays (t : TableFile) (h : HeapFile) : Prop :=
  t.path = h.path ∧ List.Forall₂ Slotted t.pages h.pages

/-- The storage holds the heap files, and no page is pinned. -/
def Stores (H : Heaps) (s : Storage) : Prop :=
  ∃ F, Storage.Holds F none none s ∧ ∀ f, Option.Rel Lays (F f) (H f)

namespace Stores

open Storage

variable {F : Files} {H : Heaps} {s : Storage} {f : ℤ} {t : TableFile} {h : HeapFile}
  {p : ℕ} {page : Page} {pg : HeapPage} {rid : RID} {bytes : Str}

/-- The storage before a file is opened. -/
theorem stores_new (disk : Str → Option File) {poolSize : ℕ} (hpool : 0 < poolSize) :
    Stores (fun _ => none) ⟨DiskManager.new disk, BufferPool.new poolSize⟩ :=
  ⟨_, Holds.holds_new disk hpool, fun _ => .none⟩

theorem rel_some (hrel : ∀ f, Option.Rel Lays (F f) (H f)) (hH : H f = some h) :
    ∃ t, F f = some t ∧ Lays t h := by
  have hr := hrel f
  rw [hH] at hr
  cases hF : F f with
  | none => rw [hF] at hr; cases hr
  | some t => rw [hF] at hr; cases hr with | some hl => exact ⟨t, rfl, hl⟩

theorem rel_update (hrel : ∀ f, Option.Rel Lays (F f) (H f)) (hl : Lays t h) :
    ∀ g, Option.Rel Lays (Function.update F f (some t) g) (Function.update H f (some h) g) := by
  intro g
  simp only [Function.update_apply]
  split
  · exact .some hl
  · exact hrel g

/-- A page of the file behind a page of the heap. -/
theorem page_of_heap (hl : Lays t h) (hp : h.pages[p]? = some pg) :
    ∃ page, t.pages[p]? = some page ∧ Slotted page pg := by
  obtain ⟨hlt, rfl⟩ := List.getElem?_eq_some_iff.mp hp
  have hlt' : p < t.pages.length := hl.2.length_eq ▸ hlt
  exact ⟨t.pages[p], List.getElem?_eq_getElem hlt', hl.2.get hlt' hlt⟩

/-- The pages of a file lay out the heap, the page `p` aside. -/
structure LaysBut (p : ℕ) (t : TableFile) (h : HeapFile) : Prop where
  path : t.path = h.path
  length : t.pages.length = h.pages.length
  other : ∀ {q page pg}, q ≠ p → t.pages[q]? = some page → h.pages[q]? = some pg → Slotted page pg

theorem laysBut (hl : Lays t h) (p : ℕ) : LaysBut p t h where
  path := hl.1
  length := hl.2.length_eq
  other := by
    intro q page pg _ hq hq'
    obtain ⟨page', hpage', hs⟩ := page_of_heap hl hq'
    exact Option.some.inj (hq.symm.trans hpage') ▸ hs

theorem LaysBut.set (hl : LaysBut p t h) (hpage : t.pages[p]? = some page)
    (hs : Slotted page pg) : Lays t ⟨h.path, h.pages.set p pg⟩ := by
  refine ⟨hl.path, List.forall₂_iff_get.mpr ⟨by simp [hl.length], fun i h₁ h₂ => ?_⟩⟩
  simp only [List.get_eq_getElem, List.getElem_set]
  by_cases hi : p = i
  · subst hi
    rw [if_pos rfl, Option.some.inj ((List.getElem?_eq_getElem h₁).symm.trans hpage)]
    exact hs
  · rw [if_neg hi]
    simp only [List.length_set] at h₂
    exact hl.other (Ne.symm hi) (List.getElem?_eq_getElem h₁) (List.getElem?_eq_getElem h₂)

/-- The storage holds the heap files, but for the page `p` of the file `f`, which is pinned in the
frame `i` with the bytes `page`. -/
structure Access (H : Heaps) (f : ℤ) (h : HeapFile) (p i : ℕ) (page : Page) (w : Bool)
    (s : Storage) : Prop where
  intro ::
  holds : ∃ F t, Holds F (some i) none s ∧ F f = some t ∧ LaysBut p t h ∧
    t.pages[p]? = some page ∧ ∀ g, g ≠ f → Option.Rel Lays (F g) (H g)
  fetched : Fetched f p i page w s

/-- A page of a heap fetched. -/
theorem fetchPage (hs : Stores H s) (hH : H f = some h) (hp : h.pages[p]? = some pg) (w : Bool) :
    wp (fun _ => False) (Storage.fetchPage f p w)
      (fun i s' => ∃ page, Slotted page pg ∧ Access H f h p i page w s') s := by
  obtain ⟨F, hF, hrel⟩ := hs
  obtain ⟨t, ht, hl⟩ := rel_some hrel hH
  obtain ⟨page, hpage, hslot⟩ := page_of_heap hl hp
  refine wp_mono (hF.fetchPage ht hpage w) ?_
  rintro i s' ⟨h', hi⟩
  exact ⟨page, hslot, ⟨F, t, h', ht, laysBut hl p, hpage, fun g _ => hrel g⟩, hi⟩

namespace Access

variable {i : ℕ} {w : Bool}

theorem data (ha : Access H f h p i page w s) : (s.bufferPool.frames i).data = page :=
  ha.fetched.data

/-- The bytes of the pinned page changed. -/
theorem setPageData (ha : Access H f h p i page true s) (page' : Page) :
    wp (fun _ => False) (Storage.setPageData i page')
      (fun _ s' => Access H f h p i page' true s') s := by
  obtain ⟨F, t, hF, ht, hl, hpage, hrel⟩ := ha.holds
  refine wp_mono (hF.setPageData ht ha.fetched page') ?_
  rintro - s' ⟨h', hi⟩
  refine ⟨⟨_, _, h', Function.update_self .., ?_, ?_, ?_⟩, hi⟩
  · refine ⟨hl.path, by simp [hl.length], fun {q page pg} hq hq₁ hq₂ => ?_⟩
    rw [List.getElem?_set_ne (Ne.symm hq)] at hq₁
    exact hl.other hq hq₁ hq₂
  · simp [(List.getElem?_eq_some_iff.mp hpage).1]
  · intro g hg
    rw [Function.update_of_ne hg]
    exact hrel g hg

/-- The pinned page unpinned, with bytes that lay out a heap page. -/
theorem unpinPage (ha : Access H f h p i page w s) (hs : Slotted page pg) (isDirty : Bool) :
    wp (fun _ => False) (Storage.unpinPage f p isDirty)
      (fun _ s' => Stores (Function.update H f (some ⟨h.path, h.pages.set p pg⟩)) s') s := by
  obtain ⟨F, t, hF, ht, hl, hpage, hrel⟩ := ha.holds
  refine wp_mono (hF.unpinPage ht ha.fetched isDirty) ?_
  intro _ s' h'
  refine ⟨F, h', fun g => ?_⟩
  rw [Function.update_apply]
  split
  case isTrue hg =>
    rw [hg, ht]
    exact .some (hl.set hpage hs)
  case isFalse hg => exact hrel g hg

end Access

/-! ## The calls -/

/-- The page count of a heap file. -/
theorem getFilePageCount (hs : Stores H s) (hH : H f = some h) :
    s.diskMgr.getFilePageCount f = h.pages.length := by
  obtain ⟨F, hF, hrel⟩ := hs
  obtain ⟨t, ht, hl⟩ := rel_some hrel hH
  rw [hF.getFilePageCount ht]
  exact hl.2.length_eq

/-- `insertTuple`, unless the file cannot grow any more. -/
theorem insertTuple_limit (hs : Stores H s) (hH : H f = some h) (hb : bytes.length ≤ MAX_TUPLE) :
    wp (AtLimit h.pages.length) (PageManager.insertTuple f bytes bytes.length)
      (fun rid s' => rid = (h.pages.insert bytes).2 ∧
        Stores (Function.update H f (some ⟨h.path, (h.pages.insert bytes).1⟩)) s') s := by
  obtain ⟨F, hF, hrel⟩ := hs
  obtain ⟨t, ht, hpath, hl⟩ := rel_some hrel hH
  obtain ⟨pages, hins, hl'⟩ := Pages.insert_eq (fun hs => hs) (fun hs => hs.readsAs) hl hb
    fun _ _ => Pages.rel_getElem? hl
  refine wp_mono (wp_weaken (hF.insertTuple ht hins) fun _ he => hl.length_eq ▸ he) ?_
  rintro rid s' ⟨rfl, h'⟩
  exact ⟨rfl, _, h', rel_update hrel ⟨hpath, hl'⟩⟩

/-- `insertTuple`. -/
theorem insertTuple (hs : Stores H s) (hH : H f = some h) (hb : bytes.length ≤ MAX_TUPLE) :
    wp (· = .io) (PageManager.insertTuple f bytes bytes.length)
      (fun rid s' => rid = (h.pages.insert bytes).2 ∧
        Stores (Function.update H f (some ⟨h.path, (h.pages.insert bytes).1⟩)) s') s :=
  wp_weaken (hs.insertTuple_limit hH hb) fun _ => And.left

/-- `deleteTuple` on a page of the heap. -/
theorem deleteTuple (hs : Stores H s) (hH : H f = some h) (hp : rid.pageId < h.pages.length) :
    wp (fun _ => False) (PageManager.deleteTuple f rid)
      (fun _ s' => Stores (Function.update H f (some ⟨h.path, h.pages.delete rid⟩)) s') s := by
  have hget : h.pages[rid.pageId]? = some h.pages[rid.pageId] := List.getElem?_eq_getElem hp
  simp only [PageManager.deleteTuple, wp_bind]
  refine wp_mono (hs.fetchPage hH hget true) ?_
  rintro i s₁ ⟨page, hslot, ha⟩
  obtain ⟨page', hclear, hslot'⟩ := hslot.clearSlot rid.slotNum
  rw [wp_pageData, ha.data, hclear, wp_lift_ok]
  refine wp_mono (ha.setPageData page') ?_
  intro _ s₂ ha₂
  refine wp_mono (ha₂.unpinPage hslot' true) ?_
  intro _ s₃ hs₃
  have hset : h.pages.delete rid = h.pages.set rid.pageId (h.pages[rid.pageId].clear rid.slotNum) := by
    rw [Heap.delete, List.modify_eq_set_getElem? , hget]
    rfl
  rwa [hset]

/-- `readTuple` on a page of the heap. -/
theorem readTuple (hs : Stores H s) (hH : H f = some h) (hp : rid.pageId < h.pages.length) :
    wp (fun _ => False) (PageManager.readTuple f rid)
      (fun bytes s' => bytes = (h.pages.tuple? rid).getD [] ∧ Stores H s') s := by
  obtain ⟨F, hF, hrel⟩ := hs
  obtain ⟨t, ht, hl⟩ := rel_some hrel hH
  have hget : h.pages[rid.pageId]? = some h.pages[rid.pageId] := List.getElem?_eq_getElem hp
  obtain ⟨page, hpage, hslot⟩ := page_of_heap hl hget
  refine wp_mono (hF.readTuple ht hpage (hslot.slotBytes rid.slotNum)) ?_
  rintro bytes s' ⟨rfl, h'⟩
  refine ⟨?_, F, h', hrel⟩
  rw [Heap.tuple?, hget]
  rfl

/-- `readTuple` on a page behind the last one: no slot of it has a tuple. -/
theorem readTuple_beyond (hs : Stores H s) (hH : H f = some h) (hp : h.pages.length ≤ rid.pageId) :
    wp (fun _ => False) (PageManager.readTuple f rid)
      (fun bytes _ => bytes = (h.pages.tuple? rid).getD []) s := by
  obtain ⟨F, hF, hrel⟩ := hs
  obtain ⟨t, ht, hl⟩ := rel_some hrel hH
  have hzero : PageManager.slotBytes Block.zero rid.slotNum = .ok [] := by
    rw [PageManager.slotBytes, numSlots_zero, if_pos (Nat.zero_le _)]
    rfl
  refine wp_mono (hF.readTuple_beyond ht (by rw [hl.2.length_eq]; exact hp) hzero) ?_
  rintro bytes s' rfl
  rw [Heap.tuple?, List.getElem?_eq_none hp]
  rfl

/-- `createTable` on a path that no heap file in use has. -/
theorem createTable (hs : Stores H s) (tableName : Str)
    (hpath : ∀ {g h}, H g = some h → h.path ≠ DiskManager.fullPath (tableName ++ lit ".db")) :
    wp (· = .io) (PageManager.createTable tableName)
      (fun f s' => H f = none ∧ Stores (Function.update H f
        (some ⟨DiskManager.fullPath (tableName ++ lit ".db"), [HeapPage.empty]⟩)) s') s := by
  obtain ⟨F, hF, hrel⟩ := hs
  have hfree : ∀ {g t}, F g = some t → t.path ≠ DiskManager.fullPath (tableName ++ lit ".db") := by
    intro g t ht
    have hr := hrel g
    rw [ht] at hr
    cases hg : H g with
    | none => rw [hg] at hr; cases hr
    | some h =>
      rw [hg] at hr
      cases hr with | some hl => rw [hl.1]; exact hpath hg
  refine wp_mono (hF.createTable hfree) ?_
  rintro f s₁ ⟨hnone, h₁⟩
  refine ⟨?_, _, h₁, rel_update hrel ⟨rfl, .cons (slotted_initPage 0) .nil⟩⟩
  have hr := hrel f
  rw [hnone] at hr
  cases hg : H f with
  | none => rfl
  | some h => rw [hg] at hr; cases hr

section Scan

variable {β : Type} {callback : β → RID → Str → ℕ → Except Fault (β × Bool)}
  {g : β → RID × Str → β}

/-- `scanTable` hands every live tuple to the callback, in the order of the record identifiers. -/
theorem scanTable (hs : Stores H s) (hH : H f = some h) (b : β)
    (hcall : ∀ b rid bytes rest, (rid, bytes) ∈ h.pages.live →
      callback b rid (bytes ++ rest) bytes.length = .ok (g b (rid, bytes), true)) :
    wp (fun _ => False) (PageManager.scanTable callback f b)
      (fun b' s' => b' = h.pages.live.foldl g b ∧ Stores H s') s := by
  obtain ⟨F, hF, hrel⟩ := hs
  obtain ⟨t, ht, hl⟩ := rel_some hrel hH
  have hscan := Pages.scan_eq (hl.2.imp fun _ _ => Slotted.readsAs) 0 b hcall
  refine wp_mono (hF.scanTable ht hscan) ?_
  rintro b' s' ⟨rfl, h'⟩
  exact ⟨rfl, F, h', hrel⟩

end Scan

end Stores

end MiniDB
