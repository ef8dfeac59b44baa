import MiniDB.Storage.HeapRuns

/-!
# The allocation of pages

An insertion looks for the first page with enough free bytes and only then at the slots of that
page. When they are all in use it allocates a page, without a look at the pages behind, so that a
page with enough bytes and without a slot in front makes every insertion allocate.

## Main definitions

* `Page.FreeSlot`: a page has a slot for another tuple
* `HeapCall.Room f n s p`: the page `p` has room for a tuple of `n` bytes, and a slot
* `HeapCall.Blocked f n s`: the first page with the bytes has no slot, and another page has both

## Main results

* `HeapCall.insert_allocates_iff`: when an insertion allocates only for want of room
-/

namespace MiniDB

open Program

/-- The page has a slot for another tuple: an empty entry of the directory, or one more. -/
def Page.FreeSlot (page : Page) : Prop :=
  page.numSlots < MAX_SLOTS_PER_PAGE ∨
    ∃ i < page.numSlots, page.slotDirectory i = .ok 0 ∧ page.slotLengths i = .ok 0

/-- The slots of a page are all in use when there is no next one. -/
theorem Slotted.freeSlot_iff {page : Page} {h : HeapPage} (hs : Slotted page h) :
    page.FreeSlot ↔ h.nextSlot < MAX_SLOTS_PER_PAGE := by
  unfold Page.FreeSlot
  rw [hs.numSlots]
  constructor
  · rintro (hlt | ⟨i, hi, hdir, hlen⟩)
    · exact Nat.lt_of_le_of_lt HeapPage.nextSlot_le hlt
    · have hmax := hs.lt_maxSlots hi
      rw [Page.slotDirectory, if_pos hmax] at hdir
      have hslot := hs.slot (List.getElem?_eq_getElem hi)
      cases ho : h.slots[i] with
      | none =>
        have hnone : (h.slots[i]).isNone = true := by rw [ho]; rfl
        exact Nat.lt_of_lt_of_le
          (List.findIdx_lt_length_of_exists ⟨_, List.getElem_mem hi, hnone⟩) hs.slots_le
      | some bytes =>
        rw [ho] at hslot
        have hge := hslot.2.1
        rw [Except.ok.inj hdir] at hge
        exact absurd hge (by decide)
  · intro hlt
    by_cases hnew : h.nextSlot < h.slots.length
    · refine Or.inr ⟨h.nextSlot, hnew, ?_⟩
      have hnone : (h.slots[h.nextSlot]).isNone = true := List.findIdx_getElem (w := hnew)
      have hslot := hs.slot (List.getElem?_eq_getElem hnew)
      rw [Option.isNone_iff_eq_none.mp hnone] at hslot
      rw [Page.slotDirectory, Page.slotLengths, if_pos hlt, if_pos hlt, hslot.1, hslot.2]
      exact ⟨rfl, rfl⟩
    · have heq : h.nextSlot = h.slots.length :=
        Nat.le_antisymm HeapPage.nextSlot_le (Nat.not_lt.mp hnew)
      exact Or.inl (heq ▸ hlt)

/-! ## Pages of a heap -/

namespace Heap

variable {h : Heap} {bytes : Str} {n : ℕ}

/-- A heap grows by an insertion when the first page with the bytes, if there is one, has no
slot. -/
theorem insert_grows_iff : h.length < (h.insert bytes).1.length ↔
    ∀ pg, h[h.firstFit bytes.length]? = some pg → MAX_SLOTS_PER_PAGE ≤ pg.nextSlot := by
  unfold insert
  split
  case h_1 pg hpg =>
    simp only [hpg, Option.some.injEq, forall_eq']
    split
    case isTrue hlt => simp [hlt]
    case isFalse hge => simp [append, Nat.not_lt.mp hge]
  case h_2 hnone => simp [append, hnone]

/-- The first page with the bytes has no slot, and another page has both. -/
def Blocked (h : Heap) (n : ℕ) : Prop :=
  (∃ pg, h[h.firstFit n]? = some pg ∧ MAX_SLOTS_PER_PAGE ≤ pg.nextSlot) ∧
    ∃ (q : ℕ) (pg : HeapPage), h[q]? = some pg ∧ n ≤ pg.free ∧ pg.nextSlot < MAX_SLOTS_PER_PAGE

/-- If some page has the bytes, there is a first one. -/
theorem exists_firstFit {q : ℕ} {pg : HeapPage} (hq : h[q]? = some pg) (hfree : n ≤ pg.free) :
    ∃ pg', h[h.firstFit n]? = some pg' := by
  have hlt : h.firstFit n < h.length :=
    List.findIdx_lt_length_of_exists ⟨pg, List.mem_of_getElem? hq, decide_eq_true hfree⟩
  exact ⟨_, List.getElem?_eq_getElem hlt⟩

/-- An insertion adds a page only for want of room, unless the way to it is blocked. -/
theorem insert_grows_for_want_iff : (h.length < (h.insert bytes).1.length →
      ∀ (q : ℕ) (pg : HeapPage), h[q]? = some pg →
        ¬ (bytes.length ≤ pg.free ∧ pg.nextSlot < MAX_SLOTS_PER_PAGE)) ↔
    ¬ h.Blocked bytes.length := by
  rw [insert_grows_iff]
  constructor
  · rintro hwant ⟨⟨pg, hpg, hfull⟩, q, pg', hq, hroom⟩
    refine hwant (fun pg₁ hpg₁ => ?_) q pg' hq hroom
    exact Option.some.inj (hpg.symm.trans hpg₁) ▸ hfull
  · intro hclear hgrow q pg' hq hroom
    obtain ⟨pg, hpg⟩ := exists_firstFit hq hroom.1
    exact hclear ⟨⟨pg, hpg, hgrow pg hpg⟩, q, pg', hq, hroom⟩

end Heap

/-! ## Pages of the storage -/

namespace HeapCall

/-- The page `p` of the file has `n` free bytes and a slot. -/
def Room (f : ℤ) (n : ℕ) (s : Storage) (p : ℕ) : Prop :=
  n ≤ (s.page (f, p)).freeSpace ∧ (s.page (f, p)).FreeSlot

/-- The first page of the file with `n` free bytes has no slot, and another page has both. -/
def Blocked (f : ℤ) (n : ℕ) (s : Storage) : Prop :=
  (∃ p < s.diskMgr.getFilePageCount f, (∀ q < p, (s.page (f, q)).freeSpace < n) ∧
    n ≤ (s.page (f, p)).freeSpace ∧ ¬ (s.page (f, p)).FreeSlot) ∧
  ∃ q < s.diskMgr.getFilePageCount f, Room f n s q

section Pages

variable {H : Heaps} {h : HeapFile} {f : ℤ} {s : Storage} {p n : ℕ} {pg : HeapPage}

/-- The page of the storage behind a page of the heap. -/
theorem slotted_page (hs : Stores H s) (hH : H f = some h) (hp : h.pages[p]? = some pg) :
    Slotted (s.page (f, p)) pg := by
  obtain ⟨F, hF, hrel⟩ := hs
  obtain ⟨t, ht, hl⟩ := Stores.rel_some hrel hH
  obtain ⟨page, hpage, hslot⟩ := Stores.page_of_heap hl hp
  rw [hF.pages ht hpage]
  exact hslot

theorem room_iff (hs : Stores H s) (hH : H f = some h) (hp : h.pages[p]? = some pg) :
    Room f n s p ↔ n ≤ pg.free ∧ pg.nextSlot < MAX_SLOTS_PER_PAGE := by
  have hslot := slotted_page hs hH hp
  rw [Room, hslot.freeSpace, hslot.freeSlot_iff]

/-- A page with room in the storage is one of the heap. -/
theorem exists_room_iff (hs : Stores H s) (hH : H f = some h) :
    (∃ q < s.diskMgr.getFilePageCount f, Room f n s q) ↔ ∃ (q : ℕ) (pg : HeapPage),
      h.pages[q]? = some pg ∧ n ≤ pg.free ∧ pg.nextSlot < MAX_SLOTS_PER_PAGE := by
  rw [hs.getFilePageCount hH]
  constructor
  · rintro ⟨q, hq, hroom⟩
    have hget := List.getElem?_eq_getElem hq
    exact ⟨q, _, hget, (room_iff hs hH hget).mp hroom⟩
  · rintro ⟨q, pg, hget, hroom⟩
    exact ⟨q, (List.getElem?_eq_some_iff.mp hget).1, (room_iff hs hH hget).mpr hroom⟩

theorem blocked_iff (hs : Stores H s) (hH : H f = some h) :
    Blocked f n s ↔ h.pages.Blocked n := by
  refine and_congr ?_ (exists_room_iff hs hH)
  rw [hs.getFilePageCount hH]
  constructor
  · rintro ⟨p, hp, hbefore, hfree, hfull⟩
    have hslot := slotted_page hs hH (List.getElem?_eq_getElem hp)
    rw [hslot.freeSpace] at hfree
    rw [hslot.freeSlot_iff] at hfull
    have hfirst : h.pages.firstFit n = p := by
      refine (List.findIdx_eq hp).mpr ⟨decide_eq_true hfree, fun q hq => decide_eq_false ?_⟩
      have hslot' := slotted_page hs hH (List.getElem?_eq_getElem (Nat.lt_trans hq hp))
      rw [← hslot'.freeSpace]
      exact Nat.not_le.mpr (hbefore q hq)
    exact ⟨_, hfirst ▸ List.getElem?_eq_getElem hp, Nat.not_lt.mp hfull⟩
  · rintro ⟨pg, hpg, hfull⟩
    have hslot := slotted_page hs hH hpg
    obtain ⟨hp, -⟩ := List.getElem?_eq_some_iff.mp hpg
    refine ⟨h.pages.firstFit n, hp, fun q hq => ?_, ?_, ?_⟩
    · have hslot' := slotted_page hs hH (List.getElem?_eq_getElem (Nat.lt_trans hq hp))
      have hnot := List.not_of_lt_findIdx hq
      rw [hslot'.freeSpace]
      simpa using hnot
    · rw [hslot.freeSpace]
      exact Heap.le_free_of_firstFit hpg
    · rw [hslot.freeSlot_iff]
      exact Nat.not_lt.mpr hfull

end Pages

/-- In every run of calls on a heap file, from its creation on, with tuples that a page has room
for, an insertion allocates a page only if no page of the file has both the bytes and a slot, if and
only if it is not the case that the first page with the bytes has no slot while another page has
both. -/
theorem insert_allocates_iff (disk : Str → Option File) {poolSize : ℕ} (hpool : 0 < poolSize)
    (tableName : Str) {f : ℤ} {s : Storage} (hcreate : (PageManager.createTable tableName).run
      ⟨DiskManager.new disk, BufferPool.new poolSize⟩ = (.ok f, s))
    (calls : List HeapCall) (hcalls : Machine.Meets (Fits f) (step f) s calls)
    {s' : Storage} {rids : List (Option RID)} (hrun : run f s calls = .ok (s', rids))
    (data : Str) (hdata : data.length ≤ MAX_TUPLE) {rid : RID} {s'' : Storage}
    (hins : (PageManager.insertTuple f data data.length).run s' = (.ok rid, s'')) :
    (s'.diskMgr.getFilePageCount f < s''.diskMgr.getFilePageCount f →
      ∀ p < s'.diskMgr.getFilePageCount f, ¬ Room f data.length s' p) ↔
    ¬ Blocked f data.length s' := by
  obtain ⟨H, h, hs, hH, -⟩ := stores_of_create hpool hcreate
  rcases Machine.run_simulates (step_keeps_heap f) calls s () ⟨H, h, hs, hH⟩ hcalls with
    ⟨e, -, he⟩ | ⟨s₁, rids₁, ⟨⟩, hrun₁, -, H', h', hs', hH'⟩
  · exact absurd (he.symm.trans hrun) (by simp)
  obtain ⟨rfl, rfl⟩ := Prod.mk.inj (Except.ok.inj (hrun₁.symm.trans hrun))
  obtain ⟨-, hs''⟩ := wp_of_ok (hs'.insertTuple hH' hdata) hins
  rw [blocked_iff hs' hH', ← Heap.insert_grows_for_want_iff,
    hs''.getFilePageCount (Function.update_self ..), hs'.getFilePageCount hH']
  refine imp_congr_right fun _ => ⟨fun hnone q pg hq hroom => ?_, fun hnone p hp hroom => ?_⟩
  · exact hnone q (List.getElem?_eq_some_iff.mp hq).1 ((room_iff hs' hH' hq).mpr hroom)
  · exact hnone p _ (List.getElem?_eq_getElem hp)
      ((room_iff hs' hH' (List.getElem?_eq_getElem hp)).mp hroom)

/-- A second tuple on the first page: no page is allocated, and the way is not blocked. -/
theorem insert_allocates_iff_second_tuple : ∃ s' rids s'',
    run 1 sampleStorage [.insert [1]] = .ok (s', rids) ∧
    (PageManager.insertTuple 1 [2] 1).run s' = (.ok ⟨0, 1⟩, s'') ∧ ¬ Blocked 1 1 s' := by
  obtain ⟨⟨s', rids⟩, hrun, hview⟩ : ∃ r, run 1 sampleStorage [.insert [1]] = .ok r ∧
      (((PageManager.insertTuple 1 [2] 1).run r.1).1.toOption,
        r.1.diskMgr.getFilePageCount 1,
        ((PageManager.insertTuple 1 [2] 1).run r.1).2.diskMgr.getFilePageCount 1) =
      (some ⟨0, 1⟩, 1, 1) := Machine.map_eq_ok.mp (by decide +kernel)
  obtain ⟨hresult, hbefore, hafter⟩ : _ ∧ _ ∧ _ := by simpa only [Prod.mk.injEq] using hview
  have hins := run_of_result (Machine.toOption_eq_some.mp hresult)
  refine ⟨s', rids, _, hrun, hins, ?_⟩
  refine (insert_allocates_iff (fun _ => none) Nat.one_pos (lit "t") sample_created [.insert [1]]
    (.cons (by show _ ≤ _; decide) fun _ _ _ => .nil) hrun [2] (by decide) hins).mp ?_
  intro hgrow
  rw [hbefore, hafter] at hgrow
  exact absurd hgrow (Nat.lt_irrefl 1)

/-! ## A file that keeps growing -/

/-- The heap after insertions. -/
def insertAll (h : Heap) (datas : List Str) : Heap :=
  datas.foldl (fun g data => (Heap.insert g data).1) h

/-- An insertion into a heap file that is far from its limit returns. -/
theorem insert_returns {H : Heaps} {h : HeapFile} {f : ℤ} {s : Storage} (hs : Stores H s)
    (hH : H f = some h) {data : Str} (hdata : data.length ≤ MAX_TUPLE)
    (hlen : h.pages.length < INVALID_PAGE_ID) :
    ∃ rid s', (PageManager.insertTuple f data data.length).run s = (.ok rid, s') ∧
      Stores (Function.update H f (some ⟨h.path, (h.pages.insert data).1⟩)) s' := by
  rcases wp_iff.mp (hs.insertTuple_limit hH hdata) with ⟨e, s', -, -, hlimit⟩ |
    ⟨rid, s', hins, -, hs'⟩
  · omega
  · exact ⟨rid, s', hins, hs'⟩

/-- Insertions into a heap file that is far from its limit. -/
theorem run_inserts {f : ℤ} : ∀ (datas : List Str) {H : Heaps} {h : HeapFile} {s : Storage},
    Stores H s → H f = some h → (∀ data ∈ datas, data.length ≤ MAX_TUPLE) →
    h.pages.length + datas.length < INVALID_PAGE_ID →
    ∃ s' rids H', run f s (datas.map .insert) = .ok (s', rids) ∧ Stores H' s' ∧
      H' f = some ⟨h.path, insertAll h.pages datas⟩
  | [], H, h, s, hs, hH, _, _ => ⟨s, [], H, rfl, hs, hH⟩
  | data :: datas, H, h, s, hs, hH, hfit, hlen => by
    rw [List.length_cons] at hlen
    obtain ⟨rid, s₁, hins, hs₁⟩ :=
      insert_returns hs hH (hfit data List.mem_cons_self) (by omega)
    have hstep : step f s (.insert data) = .ok (s₁, some rid) :=
      toStep_of_run ((run_bind_ok hins).trans rfl)
    have hgrown : (h.pages.insert data).1.length + datas.length < INVALID_PAGE_ID := by
      have hcases := Heap.length_insert h.pages data
      omega
    obtain ⟨s', rids, H', hrun, hs', hH'⟩ := run_inserts datas hs₁ (Function.update_self ..)
      (fun d hd => hfit d (List.mem_cons_of_mem _ hd)) hgrown
    refine ⟨s', some rid :: rids, H', ?_, hs', hH'⟩
    unfold run at hrun ⊢
    rw [List.map_cons, Machine.run_cons_ok hstep, hrun]
    rfl

/-- After 129 tuples of one byte the first page has bytes and no slot left, and the second has both;
the next tuple goes to a third. -/
theorem insert_allocates_needlessly : ∃ s' rids rid s'',
    run 1 sampleStorage ((List.replicate 129 [0]).map .insert) = .ok (s', rids) ∧
    (PageManager.insertTuple 1 [0] 1).run s' = (.ok rid, s'') ∧
    s'.diskMgr.getFilePageCount 1 = 2 ∧ s''.diskMgr.getFilePageCount 1 = 3 ∧ Room 1 1 s' 1 := by
  obtain ⟨H, h, hs, hH, hpages⟩ := stores_of_create Nat.one_pos sample_created
  obtain ⟨s', rids, H', hrun, hs', hH'⟩ := run_inserts (List.replicate 129 [0]) hs hH
    (fun data hdata => by rw [List.eq_of_mem_replicate hdata]; decide)
    (by rw [hpages, List.length_replicate]; decide)
  rw [hpages] at hH'
  have htwo : (insertAll [HeapPage.empty] (List.replicate 129 [0])).length = 2 := by decide +kernel
  have hthree :
      (Heap.insert (insertAll [HeapPage.empty] (List.replicate 129 [0])) [0]).1.length = 3 := by
    decide +kernel
  have hroom : (insertAll [HeapPage.empty] (List.replicate 129 [0]))[1]?.any (fun pg =>
      decide (1 ≤ pg.free ∧ pg.nextSlot < MAX_SLOTS_PER_PAGE)) = true := by decide +kernel
  obtain ⟨pg, hpg, hroom⟩ := (Option.any_eq_true ..).mp hroom
  generalize insertAll [HeapPage.empty] (List.replicate 129 [0]) = pages at hH' htwo hthree hpg
  have hdata : ([0] : Str).length ≤ MAX_TUPLE := by decide
  obtain ⟨rid, s'', hins, hs''⟩ := insert_returns hs' hH' hdata (by rw [htwo]; decide)
  refine ⟨s', rids, rid, s'', hrun, hins, ?_, ?_, ?_⟩
  · rw [hs'.getFilePageCount hH']
    exact htwo
  · rw [hs''.getFilePageCount (Function.update_self ..)]
    exact hthree
  · exact (room_iff hs' hH' hpg).mpr (of_decide_eq_true hroom)

end HeapCall

end MiniDB
