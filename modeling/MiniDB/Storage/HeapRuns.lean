import MiniDB.Storage.HeapMap

/-!
# Runs on a heap file

Sequences of insertions and deletions on a heap file from its creation on. A tuple of one byte up to
what a page has room for goes to a record identifier that was free; the heap is then a finite map
from record identifiers to tuples. The layout of the pages holds up to the same bound, for tuples of
no bytes as well; above it the copy of the tuple leaves the page.

## Main definitions

* `HeapCall`, `HeapCall.run`: the calls that change a heap file
* `HeapCall.MapStep`: a call on the finite map
* `Page.Layout`: the layout of a page

## Main results

* `HeapCall.run_refines_map`: every run is a run on the finite map
* `HeapCall.run_keeps_layout`: every run keeps the layout of every page
-/

namespace MiniDB

open Program

/-- A call that changes a heap file. -/
inductive HeapCall
  | insert (data : Str)
  | delete (rid : RID)
deriving DecidableEq

namespace HeapCall

/-- The call on the file `f`; an insertion returns the record identifier of its tuple. -/
def exec (f : ℤ) : HeapCall → Program Storage Fault (Option RID)
  | .insert data => do
    let rid ← PageManager.insertTuple f data data.length
    return some rid
  | .delete rid => do
    PageManager.deleteTuple f rid
    return none

/-- The call as a step. -/
def step (f : ℤ) (s : Storage) (call : HeapCall) : Except Fault (Storage × Option RID) :=
  (call.exec f).toStep s

/-- Calls one after another. -/
def run (f : ℤ) (s : Storage) (calls : List HeapCall) : Except Fault (Storage × List (Option RID)) :=
  Machine.run (step f) s calls

/-- A tuple of one byte up to the room of a page, and a record identifier of a page that exists. -/
def Admitted (f : ℤ) (s : Storage) : HeapCall → Prop
  | .insert data => Storable data
  | .delete rid => rid.pageId < s.diskMgr.getFilePageCount f

/-- A call on the map: an insertion binds a record identifier that is free, a deletion unbinds its
own. -/
inductive MapStep (m : Finmap fun _ : RID => Str) :
    HeapCall → Option RID → (Finmap fun _ : RID => Str) → Prop
  | insert {data : Str} {rid : RID} :
    m.lookup rid = none → MapStep m (.insert data) (some rid) (m.insert rid data)
  | delete {rid : RID} : MapStep m (.delete rid) none (m.erase rid)

/-- The callback of a scan that keeps every tuple. -/
def keep (found : List (RID × Str)) (rid : RID) (data : Str) (len : ℕ) :
    Except Fault (List (RID × Str) × Bool) :=
  .ok (found ++ [(rid, data.take len)], true)

/-- The file `f` of the storage is a heap with the bindings of the map. -/
def Binds (f : ℤ) (s : Storage) (m : Finmap fun _ : RID => Str) : Prop :=
  ∃ H h, Stores H s ∧ H f = some h ∧ ∀ rid, m.lookup rid = h.pages.tuple? rid

variable {f : ℤ} {s : Storage} {m : Finmap fun _ : RID => Str}

/-- Every call is a call on the map. -/
theorem step_simulates (f : ℤ) :
    Machine.Simulates (Admitted f) (step f) MapStep (Binds f) (· = Fault.io) := by
  rintro s m call ⟨H, h, hs, hH, hm⟩ hcall
  cases call with
  | insert data =>
    have hb : Storable data := hcall
    have hwp : wp (· = Fault.io) (exec f (.insert data)) (fun o s' =>
        o = some (h.pages.insert data).2 ∧
        Stores (Function.update H f (some ⟨h.path, (h.pages.insert data).1⟩)) s') s := by
      simp only [exec, wp_bind]
      refine wp_mono (hs.insertTuple hH hb.2) ?_
      rintro rid s' ⟨rfl, hs'⟩
      exact ⟨rfl, hs'⟩
    rcases toStep_of_wp hwp with hfault | ⟨s', o, hstep, rfl, hs'⟩
    · exact Or.inl hfault
    · refine Or.inr ⟨s', _, m.insert (h.pages.insert data).2 data, hstep, .insert ?_, ?_⟩
      · rw [hm]
        exact Heap.tuple?_insert_free
      · refine ⟨_, _, hs', Function.update_self .., fun rid => ?_⟩
        rw [Heap.tuple?_insert hb.ne_nil]
        by_cases hrid : rid = (h.pages.insert data).2
        · rw [if_pos hrid, hrid]
          exact Finmap.lookup_insert _
        · rw [if_neg hrid, Finmap.lookup_insert_of_ne _ hrid]
          exact hm rid
  | delete rid =>
    have hpage : rid.pageId < h.pages.length := hs.getFilePageCount hH ▸ hcall
    have hwp : wp (· = Fault.io) (exec f (.delete rid)) (fun o s' => o = none ∧
        Stores (Function.update H f (some ⟨h.path, h.pages.delete rid⟩)) s') s := by
      simp only [exec, wp_bind]
      refine wp_mono_total (hs.deleteTuple hH hpage) ?_
      intro _ s' hs'
      exact ⟨rfl, hs'⟩
    rcases toStep_of_wp hwp with hfault | ⟨s', o, hstep, rfl, hs'⟩
    · exact Or.inl hfault
    · refine Or.inr ⟨s', none, m.erase rid, hstep, .delete, _, _, hs', Function.update_self .., ?_⟩
      intro rid'
      rw [Heap.tuple?_delete]
      by_cases hrid : rid' = rid
      · rw [if_pos hrid, hrid]
        exact Finmap.lookup_erase _ _
      · rw [if_neg hrid, Finmap.lookup_erase_ne hrid]
        exact hm rid'

/-- `readTuple` gives the tuple that is bound, and no bytes when there is none. -/
theorem Binds.readTuple (h : Binds f s m) (rid : RID) :
    ∃ s', (PageManager.readTuple f rid).run s = (.ok ((m.lookup rid).getD []), s') := by
  obtain ⟨H, hf, hs, hH, hm⟩ := h
  rcases Nat.lt_or_ge rid.pageId hf.pages.length with hlt | hge
  · obtain ⟨bytes, s', hrun, rfl, -⟩ := wp_total.mp (hs.readTuple hH hlt)
    exact ⟨s', by rw [hrun, hm]⟩
  · obtain ⟨bytes, s', hrun, rfl⟩ := wp_total.mp (hs.readTuple_beyond hH hge)
    exact ⟨s', by rw [hrun, hm]⟩

/-- A scan that keeps every tuple, of pages that read as a heap, gives the live ones. -/
theorem scan_keep {F : Files} {t : TableFile} {h : Heap} (hs : Storage.Holds F none none s)
    (hF : F f = some t) (hl : List.Forall₂ ReadsAs t.pages h) :
    ∃ s', (PageManager.scanTable keep f []).run s = (.ok h.live, s') := by
  have hcall : ∀ b rid bytes rest, (rid, bytes) ∈ Heap.liveFrom 0 h →
      keep b rid (bytes ++ rest) bytes.length = .ok (b ++ [(rid, bytes)], true) := by
    intro b rid bytes rest _
    rw [keep, List.take_left]
  have hscan := Pages.scan_eq (g := fun b e => b ++ [e]) hl 0 [] hcall
  rw [List.foldl_append_eq_append, List.nil_append, ← List.flatMap_def,
    List.flatMap_singleton'] at hscan
  obtain ⟨live, s', hrun, rfl, -⟩ := wp_total.mp (hs.scanTable hF hscan)
  exact ⟨s', hrun⟩

theorem scanTable_keep {H : Heaps} {h : HeapFile} (hs : Stores H s) (hH : H f = some h) :
    ∃ s', (PageManager.scanTable keep f []).run s = (.ok h.pages.live, s') := by
  obtain ⟨F, hF, hrel⟩ := hs
  obtain ⟨t, ht, hl⟩ := Stores.rel_some hrel hH
  exact scan_keep hF ht (hl.2.imp fun _ _ => Slotted.readsAs)

/-- A scan visits the bindings, in the order of their record identifiers. -/
theorem Binds.scanTable (h : Binds f s m) :
    ∃ live s', (PageManager.scanTable keep f []).run s = (.ok live, s') ∧
      live.Pairwise (fun a b => a.1.Lt b.1) ∧
      ∀ rid bytes, (rid, bytes) ∈ live ↔ m.lookup rid = some bytes := by
  obtain ⟨H, hf, hs, hH, hm⟩ := h
  obtain ⟨s', hrun⟩ := scanTable_keep hs hH
  refine ⟨hf.pages.live, s', hrun, Heap.live_sorted, fun rid bytes => ?_⟩
  rw [hm]
  exact Heap.mem_live

/-- A heap file as created. -/
theorem stores_of_create {disk : Str → Option File} {poolSize : ℕ} (hpool : 0 < poolSize)
    {tableName : Str} (hcreate : (PageManager.createTable tableName).run
      ⟨DiskManager.new disk, BufferPool.new poolSize⟩ = (.ok f, s)) :
    ∃ H h, Stores H s ∧ H f = some h ∧ h.pages = [HeapPage.empty] := by
  have hwp := (Stores.stores_new disk hpool).createTable tableName nofun
  obtain ⟨-, hs⟩ := wp_of_ok hwp hcreate
  exact ⟨_, _, hs, Function.update_self .., rfl⟩

/-- Every run of calls on a heap file, from its creation on, is a run on the finite map, unless a
disk operation fails: an insertion returns a record identifier that was free and binds it to its
bytes, a deletion unbinds its own, and nothing else changes. After it `readTuple` returns what is
bound, and `scanTable` visits the bindings, each once and in ascending order. -/
theorem run_refines_map (disk : Str → Option File) {poolSize : ℕ} (hpool : 0 < poolSize)
    (tableName : Str) {f : ℤ} {s : Storage} (hcreate : (PageManager.createTable tableName).run
      ⟨DiskManager.new disk, BufferPool.new poolSize⟩ = (.ok f, s))
    (calls : List HeapCall) (hcalls : Machine.Meets (Admitted f) (step f) s calls)
    (hio : run f s calls ≠ .error .io) :
    ∃ s' rids m, run f s calls = .ok (s', rids) ∧ Machine.Steps MapStep ∅ calls rids m ∧
      (∀ rid, ∃ s'', (PageManager.readTuple f rid).run s' = (.ok ((m.lookup rid).getD []), s'')) ∧
      ∃ live s'', (PageManager.scanTable keep f []).run s' = (.ok live, s'') ∧
        live.Pairwise (fun a b => a.1.Lt b.1) ∧
        ∀ rid bytes, (rid, bytes) ∈ live ↔ m.lookup rid = some bytes := by
  obtain ⟨H, h, hs, hH, hpages⟩ := stores_of_create hpool hcreate
  have hempty : Binds f s ∅ := by
    refine ⟨H, h, hs, hH, fun rid => ?_⟩
    rw [hpages]
    cases hrid : Heap.tuple? [HeapPage.empty] rid with
    | none => rfl
    | some bytes => cases Heap.mem_live.mpr hrid
  rcases Machine.run_simulates (step_simulates f) calls s ∅ hempty hcalls with
    ⟨e, rfl, he⟩ | ⟨s', rids, m, hrun, hsteps, hbinds⟩
  · exact absurd he hio
  · exact ⟨s', rids, m, hrun, hsteps, hbinds.readTuple, hbinds.scanTable⟩

/-- The storage of the runs below: a heap file just created, with a single frame. -/
def sampleStorage : Storage := ((PageManager.createTable (lit "t")).run
  ⟨DiskManager.new fun _ => none, BufferPool.new 1⟩).2

theorem sample_created : (PageManager.createTable (lit "t")).run
    ⟨DiskManager.new fun _ => none, BufferPool.new 1⟩ = (.ok 1, sampleStorage) :=
  Prod.ext (by decide +kernel) rfl

/-- A tuple inserted, deleted, and its slot used again. -/
theorem run_refines_map_slot_reuse : ∃ s' m,
    run 1 sampleStorage [.insert [1, 2], .delete ⟨0, 0⟩, .insert [3]] =
      .ok (s', [some ⟨0, 0⟩, none, some ⟨0, 0⟩]) ∧
    Machine.Steps MapStep ∅ [.insert [1, 2], .delete ⟨0, 0⟩, .insert [3]]
      [some ⟨0, 0⟩, none, some ⟨0, 0⟩] m := by
  have hrids : (run 1 sampleStorage [.insert [1, 2], .delete ⟨0, 0⟩, .insert [3]]).map Prod.snd =
      .ok [some ⟨0, 0⟩, none, some ⟨0, 0⟩] := by decide +kernel
  obtain ⟨⟨t, rids⟩, hrun, rfl⟩ := Machine.map_eq_ok.mp hrids
  obtain ⟨s', rids', m, hrun', hsteps, -⟩ := run_refines_map (fun _ => none) Nat.one_pos (lit "t")
    sample_created [.insert [1, 2], .delete ⟨0, 0⟩, .insert [3]]
    (.cons (by show Storable _; decide) fun s₁ _ h₁ =>
      .cons (by rw [state_of_toStep h₁]; show _ < _; decide +kernel) fun _ _ _ =>
        .cons (by show Storable _; decide) fun _ _ _ => .nil)
    (Machine.ne_error_of_isOk (by decide +kernel) _)
  obtain ⟨rfl, rfl⟩ := Prod.mk.inj (Except.ok.inj (hrun'.symm.trans hrun))
  exact ⟨s', m, hrun', hsteps⟩

end HeapCall

/-! ## The layout of the pages -/

/-- The layout of a page: the free space starts behind the header and within the page, the slots fit
their arrays, every live slot's range lies between the header and the free space, and no two
overlap. Then the free space is the size of the page less the space in use. -/
structure Page.Layout (page : Page) : Prop where
  header_le : HEADER_SIZE ≤ page.freeSpacePtr
  ptr_le : page.freeSpacePtr ≤ PAGE_SIZE
  slots_le : page.numSlots ≤ MAX_SLOTS_PER_PAGE
  inside : ∀ {i off len}, i < page.numSlots → page.slotDirectory i = .ok off →
    page.slotLengths i = .ok len → 0 < len → HEADER_SIZE ≤ off ∧ off + len ≤ page.freeSpacePtr
  disjoint : ∀ {i j off off' len len'}, i < page.numSlots → j < page.numSlots → i ≠ j →
    page.slotDirectory i = .ok off → page.slotLengths i = .ok len → 0 < len →
    page.slotDirectory j = .ok off' → page.slotLengths j = .ok len' → 0 < len' →
    off + len ≤ off' ∨ off' + len' ≤ off
  freeSpace : page.freeSpace + page.freeSpacePtr = PAGE_SIZE

/-- A slot in use by its header. -/
theorem Slotted.slot_of_header {page : Page} {h : HeapPage} (hs : Slotted page h) {i off len : ℕ}
    (hi : i < page.numSlots) (hoff : page.slotDirectory i = .ok off)
    (hlen : page.slotLengths i = .ok len) (hpos : 0 < len) :
    ∃ bytes, h.slots[i]? = some (some bytes) ∧ off = Block.field 2 page (8 + 2 * i) ∧
      len = bytes.length := by
  have hlt : i < h.slots.length := hs.numSlots ▸ hi
  have hmax := hs.lt_maxSlots hlt
  rw [Page.slotDirectory, if_pos hmax] at hoff
  rw [Page.slotLengths, if_pos hmax] at hlen
  have hget := List.getElem?_eq_getElem hlt
  have hslot := hs.slot hget
  cases ho : h.slots[i] with
  | none =>
    rw [ho] at hslot
    have hzero := hslot.2
    rw [Except.ok.inj hlen] at hzero
    omega
  | some bytes =>
    rw [ho] at hslot hget
    exact ⟨bytes, hget, (Except.ok.inj hoff).symm, (Except.ok.inj hlen).symm.trans hslot.1⟩

theorem Slotted.layout {page : Page} {h : HeapPage} (hs : Slotted page h) : page.Layout where
  header_le := hs.freeSpacePtr ▸ hs.header_le
  ptr_le := hs.freeSpacePtr ▸ hs.used_le
  slots_le := hs.numSlots ▸ hs.slots_le
  inside := by
    intro i off len hi hoff hlen hpos
    obtain ⟨bytes, hslot, rfl, rfl⟩ := hs.slot_of_header hi hoff hlen hpos
    obtain ⟨-, hge, hle, -⟩ := hs.slot hslot
    exact ⟨hge, hs.freeSpacePtr ▸ hle⟩
  disjoint := by
    intro i j off off' len len' hi hj hij hoff hlen hpos hoff' hlen' hpos'
    obtain ⟨bytes, hslot, rfl, rfl⟩ := hs.slot_of_header hi hoff hlen hpos
    obtain ⟨bytes', hslot', rfl, rfl⟩ := hs.slot_of_header hj hoff' hlen' hpos'
    exact hs.apart hij hslot hslot'
  freeSpace := by
    have hle := hs.used_le
    rw [hs.freeSpace, hs.freeSpacePtr, HeapPage.free]
    omega

namespace HeapCall

/-- A tuple of at most the room of a page, and a record identifier of a page that exists. -/
def Fits (f : ℤ) (s : Storage) : HeapCall → Prop
  | .insert data => data.length ≤ MAX_TUPLE
  | .delete rid => rid.pageId < s.diskMgr.getFilePageCount f

/-- The file `f` of the storage is a heap file. -/
def IsHeap (f : ℤ) (s : Storage) (_ : Unit) : Prop := ∃ H h, Stores H s ∧ H f = some h

theorem step_keeps_heap (f : ℤ) : Machine.Simulates (Fits f) (step f) (fun _ _ _ _ => True)
    (IsHeap f) (· = Fault.io) := by
  rintro s - call ⟨H, h, hs, hH⟩ hcall
  have hwp : wp (· = Fault.io) (exec f call) (fun _ s' => IsHeap f s' ()) s := by
    cases call with
    | insert data =>
      simp only [exec, wp_bind]
      refine wp_mono (hs.insertTuple hH hcall) ?_
      rintro rid s' ⟨-, hs'⟩
      exact ⟨_, _, hs', Function.update_self ..⟩
    | delete rid =>
      have hpage : rid.pageId < h.pages.length := hs.getFilePageCount hH ▸ hcall
      simp only [exec, wp_bind]
      refine wp_mono_total (hs.deleteTuple hH hpage) ?_
      intro _ s' hs'
      exact ⟨_, _, hs', Function.update_self ..⟩
  rcases toStep_of_wp hwp with hfault | ⟨s', o, hstep, hs'⟩
  · exact Or.inl hfault
  · exact Or.inr ⟨s', o, (), hstep, trivial, hs'⟩

/-- Every page of a heap file has the layout. -/
theorem IsHeap.layout {f : ℤ} {s : Storage} (h : IsHeap f s ()) {p : ℕ}
    (hp : p < s.diskMgr.getFilePageCount f) : (s.page (f, p)).Layout := by
  obtain ⟨H, hf, hs, hH⟩ := h
  rw [hs.getFilePageCount hH] at hp
  obtain ⟨F, hF, hrel⟩ := hs
  obtain ⟨t, ht, hl⟩ := Stores.rel_some hrel hH
  obtain ⟨page, hpage, hslot⟩ := Stores.page_of_heap hl (List.getElem?_eq_getElem hp)
  rw [hF.pages ht hpage]
  exact hslot.layout

/-- Every run of calls on a heap file, from its creation on, with tuples that a page has room for
keeps the layout of every page, and no copy leaves its page: only a disk operation can fail. -/
theorem run_keeps_layout (disk : Str → Option File) {poolSize : ℕ} (hpool : 0 < poolSize)
    (tableName : Str) {f : ℤ} {s : Storage} (hcreate : (PageManager.createTable tableName).run
      ⟨DiskManager.new disk, BufferPool.new poolSize⟩ = (.ok f, s))
    (calls : List HeapCall) (hcalls : Machine.Meets (Fits f) (step f) s calls) :
    run f s calls = .error .io ∨ ∃ s' rids, run f s calls = .ok (s', rids) ∧
      ∀ p, p < s'.diskMgr.getFilePageCount f → (s'.page (f, p)).Layout := by
  obtain ⟨H, h, hs, hH, -⟩ := stores_of_create hpool hcreate
  rcases Machine.run_simulates (step_keeps_heap f) calls s () ⟨H, h, hs, hH⟩ hcalls with
    ⟨e, rfl, he⟩ | ⟨s', rids, ⟨⟩, hrun, -, hheap⟩
  · exact Or.inl he
  · exact Or.inr ⟨s', rids, hrun, fun p hp => hheap.layout hp⟩

/-- A tuple of no bytes, and one that takes all the room of a page. -/
theorem run_keeps_layout_full_page : run 1 sampleStorage
      [.insert [], .insert (List.replicate 3576 0)] = .error .io ∨
    ∃ s' rids, run 1 sampleStorage [.insert [], .insert (List.replicate 3576 0)] = .ok (s', rids) ∧
      ∀ p, p < s'.diskMgr.getFilePageCount 1 → (s'.page (1, p)).Layout :=
  run_keeps_layout (fun _ => none) Nat.one_pos (lit "t") sample_created _
    (.cons (Nat.zero_le MAX_TUPLE) fun _ _ _ =>
      .cons (Nat.le_of_eq List.length_replicate) fun _ _ _ => .nil)

/-- A tuple of one byte more than a page has room for: the copy leaves the page. -/
theorem insert_leaves_page :
    (run 1 sampleStorage [.insert (List.replicate 3577 0)]).map Prod.snd = .error .overrun := by
  decide +kernel

end HeapCall

end MiniDB
