import MiniDB.Foundations.FirstFit
import MiniDB.Storage.Allocation

/-!
# Heap files as first-fit packing

As long as the page that an insertion finds has a slot, the heap file packs its tuples first fit,
the pages as bins: where a tuple goes depends only on the lengths of the tuples inserted before it,
deleted ones included, since the bytes of a deleted tuple are not used again. The file then has at
most twice as many pages as any arrangement of these tuples on pages needs. Tuples of 28 bytes or
more never run out of slots.

## Main definitions

* `HeapPage.load`, `Heap.loads`: the bytes of the tuples ever put on a page
* `HeapCall.Slack`: the first page with the bytes has a slot
* `HeapCall.sizes`: the lengths of the tuples inserted by calls

## Main results

* `HeapCall.run_packs`: every run is the packing of the lengths, within twice the fewest pages
* `HeapCall.meets_slack`: runs with tuples of more than `MAX_TUPLE / MAX_SLOTS_PER_PAGE` bytes
-/

namespace MiniDB

open Program

namespace HeapPage

variable {pg : HeapPage} {bytes : Str} {n : ℕ}

/-- The bytes of the tuples ever put on the page. -/
def load (pg : HeapPage) : ℕ := pg.used - HEADER_SIZE

/-- The free space starts behind the header and within the page. -/
structure InRange (pg : HeapPage) : Prop where
  header_le : HEADER_SIZE ≤ pg.used
  used_le : pg.used ≤ PAGE_SIZE

@[simp] theorem load_clear (i : ℕ) : (pg.clear i).load = pg.load := rfl

theorem load_put (h : pg.InRange) : (pg.put bytes).load = pg.load + bytes.length := by
  have hle := h.header_le
  show pg.used + bytes.length - HEADER_SIZE = pg.used - HEADER_SIZE + bytes.length
  omega

theorem load_put_empty : (empty.put bytes).load = bytes.length := by
  show HEADER_SIZE + bytes.length - HEADER_SIZE = bytes.length
  omega

theorem InRange.le_free_iff (h : pg.InRange) : n ≤ pg.free ↔ pg.load + n ≤ MAX_TUPLE := by
  have h₁ := h.header_le
  have h₂ := h.used_le
  unfold free load MAX_TUPLE
  omega

end HeapPage

namespace Heap

variable {h : Heap} {bytes : Str} {n : ℕ}

/-- The bytes of the tuples ever put on each page. -/
def loads (h : Heap) : List ℕ := h.map HeapPage.load

@[simp] theorem length_loads : h.loads.length = h.length := List.length_map ..

/-- The first page with the bytes, if there is one, has a slot. -/
def Slack (h : Heap) (n : ℕ) : Prop :=
  ∀ pg, h[h.firstFit n]? = some pg → pg.nextSlot < MAX_SLOTS_PER_PAGE

/-- The page that an insertion finds is the bin that first fit chooses. -/
theorem firstFit_eq_bin (hr : ∀ pg ∈ h, pg.InRange) :
    h.firstFit n = FirstFit.bin MAX_TUPLE h.loads n := by
  unfold firstFit FirstFit.bin loads
  induction h with
  | nil => rfl
  | cons pg h ih =>
    rw [List.map_cons, List.findIdx_cons, List.findIdx_cons,
      ih fun q hq => hr q (List.mem_cons_of_mem pg hq)]
    congr 1
    exact decide_eq_decide.mpr (hr pg List.mem_cons_self).le_free_iff

/-- An insertion with a slot is a step of the packing. -/
theorem insert_packs (hr : ∀ pg ∈ h, pg.InRange) (hslack : h.Slack bytes.length) :
    (h.insert bytes).2.pageId = FirstFit.bin MAX_TUPLE h.loads bytes.length ∧
      (h.insert bytes).1.loads = FirstFit.place MAX_TUPLE h.loads bytes.length := by
  have hbin := firstFit_eq_bin (n := bytes.length) hr
  unfold insert
  split
  case h_1 pg hpg =>
    rw [if_pos (hslack pg hpg)]
    refine ⟨hbin, ?_⟩
    obtain ⟨hlt, hget⟩ := List.getElem?_eq_some_iff.mp hpg
    rw [FirstFit.place_of_lt (by rwa [← hbin, length_loads]), ← hbin]
    show (h.set _ _).map HeapPage.load = (h.map HeapPage.load).modify _ _
    refine List.ext_getElem? fun i => ?_
    rw [List.getElem?_map, List.getElem?_set, List.getElem?_modify, List.getElem?_map]
    by_cases hi : h.firstFit bytes.length = i
    · subst hi
      have hload : (pg.put bytes).load = pg.load + bytes.length :=
        HeapPage.load_put (hr pg (hget ▸ List.getElem_mem hlt))
      simp [hlt, hget, hload]
    · simp [hi]
  case h_2 hnone =>
    have hge : h.length ≤ h.firstFit bytes.length := List.getElem?_eq_none_iff.mp hnone
    have hend : h.firstFit bytes.length = h.length := Nat.le_antisymm List.findIdx_le_length hge
    refine ⟨by rw [← hbin, hend]; rfl, ?_⟩
    rw [FirstFit.place_of_ge (by rwa [← hbin, length_loads])]
    show (h ++ [_]).map HeapPage.load = h.map HeapPage.load ++ [bytes.length]
    rw [List.map_append, List.map_singleton, HeapPage.load_put_empty]

/-- A call on the pages of a heap. -/
def call (h : Heap) : HeapCall → Heap × Option RID
  | .insert data => ((h.insert data).1, some (h.insert data).2)
  | .delete rid => (h.delete rid, none)

theorem loads_delete (rid : RID) : (h.delete rid).loads = h.loads := by
  unfold loads delete
  refine List.ext_getElem? fun i => ?_
  rw [List.getElem?_map, List.getElem?_modify, List.getElem?_map]
  by_cases hi : rid.pageId = i <;> cases h[i]? <;> simp [hi]

end Heap

namespace HeapCall

variable {f : ℤ} {s : Storage} {loads : List ℕ}

/-- The first page of the file with `n` free bytes, if there is one, has a slot. -/
def Slack (f : ℤ) (n : ℕ) (s : Storage) : Prop :=
  ∀ p < s.diskMgr.getFilePageCount f, (∀ q < p, (s.page (f, q)).freeSpace < n) →
    n ≤ (s.page (f, p)).freeSpace → (s.page (f, p)).FreeSlot

/-- A tuple that a page has room for, with a slot where it goes, and a record identifier of a page
that exists. -/
def Placeable (f : ℤ) (s : Storage) : HeapCall → Prop
  | .insert data => data.length ≤ MAX_TUPLE ∧ Slack f data.length s
  | .delete rid => rid.pageId < s.diskMgr.getFilePageCount f

/-- The lengths of the tuples that calls insert. -/
def sizes : List HeapCall → List ℕ
  | [] => []
  | .insert data :: calls => data.length :: sizes calls
  | .delete _ :: calls => sizes calls

/-- A call on the packing: an insertion places its tuple, a deletion changes nothing. -/
inductive PackStep (loads : List ℕ) : HeapCall → Option RID → List ℕ → Prop
  | insert {data : Str} {rid : RID} : rid.pageId = FirstFit.bin MAX_TUPLE loads data.length →
    PackStep loads (.insert data) (some rid) (FirstFit.place MAX_TUPLE loads data.length)
  | delete {rid : RID} : PackStep loads (.delete rid) none loads

/-- The file `f` of the storage is a heap file with these loads. -/
def Packs (f : ℤ) (s : Storage) (loads : List ℕ) : Prop :=
  ∃ H h, Stores H s ∧ H f = some h ∧ h.pages.loads = loads

section Pages

variable {H : Heaps} {h : HeapFile} {n : ℕ}

/-- The pages of a heap file are within their bounds. -/
theorem inRange (hs : Stores H s) (hH : H f = some h) : ∀ pg ∈ h.pages, pg.InRange := by
  intro pg hpg
  obtain ⟨p, hp⟩ := List.mem_iff_getElem?.mp hpg
  have hslot := slotted_page hs hH hp
  exact ⟨hslot.header_le, hslot.used_le⟩

/-- The bytes that are left on the pages. -/
theorem freeSpaces (hs : Stores H s) (hH : H f = some h) :
    (List.range (s.diskMgr.getFilePageCount f)).map (fun p => (s.page (f, p)).freeSpace) =
      h.pages.loads.map (MAX_TUPLE - ·) := by
  rw [hs.getFilePageCount hH]
  refine List.ext_getElem (by simp) fun p hp _ => ?_
  have hlt : p < h.pages.length := by simpa using hp
  have hget := List.getElem?_eq_getElem hlt
  have hle := (inRange hs hH _ (List.getElem_mem hlt)).header_le
  simp only [Heap.loads, List.getElem_map, List.getElem_range,
    (slotted_page hs hH hget).freeSpace, HeapPage.free, HeapPage.load, MAX_TUPLE]
  omega

theorem slack_iff (hs : Stores H s) (hH : H f = some h) : Slack f n s ↔ h.pages.Slack n := by
  unfold Slack
  rw [hs.getFilePageCount hH]
  constructor
  · intro hslack pg hpg
    obtain ⟨hlt, -⟩ := List.getElem?_eq_some_iff.mp hpg
    have hslot := slotted_page hs hH hpg
    refine hslot.freeSlot_iff.mp (hslack _ hlt (fun q hq => ?_) ?_)
    · have hslot' := slotted_page hs hH (List.getElem?_eq_getElem (Nat.lt_trans hq hlt))
      have hnot := List.not_of_lt_findIdx hq
      rw [hslot'.freeSpace]
      simpa using hnot
    · rw [hslot.freeSpace]
      exact Heap.le_free_of_firstFit hpg
  · intro hslack p hp hbefore hfree
    have hslot := slotted_page hs hH (List.getElem?_eq_getElem hp)
    rw [hslot.freeSpace] at hfree
    have hfirst : h.pages.firstFit n = p := by
      refine (List.findIdx_eq hp).mpr ⟨decide_eq_true hfree, fun q hq => decide_eq_false ?_⟩
      have hslot' := slotted_page hs hH (List.getElem?_eq_getElem (Nat.lt_trans hq hp))
      rw [← hslot'.freeSpace]
      exact Nat.not_le.mpr (hbefore q hq)
    exact hslot.freeSlot_iff.mpr (hslack _ (hfirst ▸ List.getElem?_eq_getElem hp))

end Pages

/-- A call on a heap file is the call on its pages. -/
theorem step_call {H : Heaps} {h : HeapFile} {call : HeapCall} (hs : Stores H s) (hH : H f = some h)
    (hcall : Fits f s call) : step f s call = .error .io ∨
      ∃ s', step f s call = .ok (s', (h.pages.call call).2) ∧
        Stores (Function.update H f (some ⟨h.path, (h.pages.call call).1⟩)) s' := by
  have hwp : wp (· = Fault.io) (exec f call) (fun o s' => o = (h.pages.call call).2 ∧
      Stores (Function.update H f (some ⟨h.path, (h.pages.call call).1⟩)) s') s := by
    cases call with
    | insert data =>
      simp only [exec, wp_bind]
      refine wp_mono (hs.insertTuple hH hcall) ?_
      rintro rid s' ⟨rfl, hs'⟩
      exact ⟨rfl, hs'⟩
    | delete rid =>
      have hpage : rid.pageId < h.pages.length := hs.getFilePageCount hH ▸ hcall
      simp only [exec, wp_bind]
      refine wp_mono_total (hs.deleteTuple hH hpage) ?_
      intro _ s' hs'
      exact ⟨rfl, hs'⟩
  rcases toStep_of_wp hwp with ⟨e, rfl, hfault⟩ | ⟨s', o, hstep, rfl, hs'⟩
  · exact Or.inl hfault
  · exact Or.inr ⟨s', hstep, hs'⟩

theorem Placeable.fits : ∀ {call : HeapCall}, Placeable f s call → Fits f s call
  | .insert _, h => h.1
  | .delete _, h => h

/-- Every call is a call on the packing. -/
theorem step_packs (f : ℤ) :
    Machine.Simulates (Placeable f) (step f) PackStep (Packs f) (· = Fault.io) := by
  rintro s loads call ⟨H, h, hs, hH, rfl⟩ hcall
  rcases step_call hs hH hcall.fits with hfault | ⟨s', hstep, hs'⟩
  · exact Or.inl ⟨_, rfl, hfault⟩
  refine Or.inr ⟨s', _, (h.pages.call call).1.loads, hstep, ?_, _, _, hs',
    Function.update_self .., rfl⟩
  cases call with
  | insert data =>
    have hslack := (slack_iff hs hH).mp hcall.2
    obtain ⟨hbin, hplace⟩ := Heap.insert_packs (inRange hs hH) hslack
    show PackStep _ _ _ (h.pages.insert data).1.loads
    rw [hplace]
    exact .insert hbin
  | delete rid =>
    show PackStep _ _ _ (h.pages.delete rid).loads
    rw [Heap.loads_delete]
    exact .delete

/-- A run on the packing gives what first fit gives for the lengths. -/
theorem steps_pack {calls : List HeapCall} {loads loads' : List ℕ} {rids : List (Option RID)}
    (h : Machine.Steps PackStep loads calls rids loads') :
    rids.reduceOption.map RID.pageId = FirstFit.bins MAX_TUPLE loads (sizes calls) ∧
      loads' = FirstFit.pack MAX_TUPLE loads (sizes calls) := by
  induction h with
  | nil => exact ⟨rfl, rfl⟩
  | cons hstep _ ih =>
    obtain ⟨hbins, hpack⟩ := ih
    cases hstep with
    | insert hbin =>
      refine ⟨?_, hpack⟩
      rw [List.reduceOption_cons_of_some, List.map_cons, hbin, hbins]
      rfl
    | delete =>
      rw [List.reduceOption_cons_of_none]
      exact ⟨hbins, hpack⟩

/-- Every run of calls on a heap file, from its creation on, in which the page that an insertion
finds has a slot, is the first-fit packing of the lengths of all tuples inserted, deleted ones
included: each goes to the page that first fit chooses, each page has the bytes left that the
packing leaves, and the file has at most twice as many pages as any arrangement of these tuples on
pages takes. -/
theorem run_packs (disk : Str → Option File) {poolSize : ℕ} (hpool : 0 < poolSize)
    (tableName : Str) {f : ℤ} {s : Storage} (hcreate : (PageManager.createTable tableName).run
      ⟨DiskManager.new disk, BufferPool.new poolSize⟩ = (.ok f, s))
    (calls : List HeapCall) (hcalls : Machine.Meets (Placeable f) (step f) s calls)
    (hio : run f s calls ≠ .error .io) :
    ∃ s' rids, run f s calls = .ok (s', rids) ∧
      rids.reduceOption.map RID.pageId = FirstFit.bins MAX_TUPLE [0] (sizes calls) ∧
      (List.range (s'.diskMgr.getFilePageCount f)).map (fun p => (s'.page (f, p)).freeSpace) =
        (FirstFit.pack MAX_TUPLE [0] (sizes calls)).map (MAX_TUPLE - ·) ∧
      ∀ arrangement : List (List ℕ), arrangement.flatten.Perm (sizes calls) →
        (∀ page ∈ arrangement, page.sum ≤ MAX_TUPLE) →
        s'.diskMgr.getFilePageCount f ≤ max 1 (2 * arrangement.length) := by
  obtain ⟨H, h, hs, hH, hpages⟩ := stores_of_create hpool hcreate
  have hempty : Packs f s [0] := ⟨H, h, hs, hH, by rw [hpages]; rfl⟩
  rcases Machine.run_simulates (step_packs f) calls s [0] hempty hcalls with
    ⟨e, rfl, he⟩ | ⟨s', rids, loads, hrun, hsteps, H', h', hs', hH', rfl⟩
  · exact absurd he hio
  obtain ⟨hbins, hpack⟩ := steps_pack hsteps
  refine ⟨s', rids, hrun, hbins, ?_, fun arrangement hperm hroom => ?_⟩
  · rw [← hpack, freeSpaces hs' hH']
  · rw [hs'.getFilePageCount hH', ← Heap.length_loads, hpack]
    exact FirstFit.length_pack_le hperm hroom

/-! ## Tuples that leave slots -/

/-- A tuple so long that the slots of a page outlast its bytes, and not longer than a page has room
for, or a record identifier of a page that exists. -/
def Long (f : ℤ) (s : Storage) : HeapCall → Prop
  | .insert data => MAX_TUPLE < MAX_SLOTS_PER_PAGE * data.length ∧ data.length ≤ MAX_TUPLE
  | .delete rid => rid.pageId < s.diskMgr.getFilePageCount f

theorem Long.fits : ∀ {call : HeapCall}, Long f s call → Fits f s call
  | .insert _, h => h.2
  | .delete _, h => h

end HeapCall

/-- The slots of a page go no faster than its bytes. -/
def HeapPage.Sparse (pg : HeapPage) : Prop :=
  pg.slots.length * MAX_TUPLE ≤ MAX_SLOTS_PER_PAGE * pg.load

namespace HeapPage.Sparse

variable {pg : HeapPage} {bytes : Str}

theorem empty : HeapPage.empty.Sparse := Nat.zero_le _

theorem clear (h : pg.Sparse) (i : ℕ) : (pg.clear i).Sparse := by
  show (pg.slots.set i none).length * _ ≤ _
  rw [List.length_set]
  exact h

theorem put (h : pg.Sparse) (hr : pg.InRange)
    (hlong : MAX_TUPLE < MAX_SLOTS_PER_PAGE * bytes.length) : (pg.put bytes).Sparse := by
  have hslots : (pg.put bytes).slots.length ≤ pg.slots.length + 1 := by
    rw [length_put]
    split <;> omega
  unfold Sparse at *
  calc (pg.put bytes).slots.length * MAX_TUPLE
      ≤ (pg.slots.length + 1) * MAX_TUPLE := Nat.mul_le_mul_right _ hslots
    _ = pg.slots.length * MAX_TUPLE + MAX_TUPLE := Nat.succ_mul ..
    _ ≤ MAX_SLOTS_PER_PAGE * pg.load + MAX_SLOTS_PER_PAGE * bytes.length :=
        Nat.add_le_add h (Nat.le_of_lt hlong)
    _ = MAX_SLOTS_PER_PAGE * (pg.put bytes).load := by rw [load_put hr, Nat.mul_add]

/-- A page with the bytes has a slot. -/
theorem nextSlot_lt (h : pg.Sparse) (hr : pg.InRange) {n : ℕ} (hfree : n ≤ pg.free)
    (hlong : MAX_TUPLE < MAX_SLOTS_PER_PAGE * n) : pg.nextSlot < MAX_SLOTS_PER_PAGE := by
  refine Nat.lt_of_le_of_lt nextSlot_le ?_
  by_contra hfull
  have hroom := hr.le_free_iff.mp hfree
  have hfilled : MAX_TUPLE ≤ pg.load := by
    refine Nat.le_of_mul_le_mul_left ?_ (show 0 < MAX_SLOTS_PER_PAGE by decide)
    exact Nat.le_trans (Nat.mul_le_mul_right _ (Nat.not_lt.mp hfull)) h
  have hn : n = 0 := by omega
  rw [hn] at hlong
  exact absurd hlong (Nat.not_lt_zero _)

end HeapPage.Sparse

namespace HeapCall

variable {f : ℤ}

/-- A call with long tuples keeps the pages sparse. -/
theorem sparse_call {h : Heap} {s : Storage} {call : HeapCall} (hr : ∀ pg ∈ h, pg.InRange)
    (hsparse : ∀ pg ∈ h, pg.Sparse) (hcall : Long f s call) :
    ∀ pg ∈ (h.call call).1, pg.Sparse := by
  intro pg hpg
  cases call with
  | insert data =>
    rcases Heap.insert_cases h data with ⟨p, old, hp, -, -, heq⟩ | heq
    · rw [Heap.call, heq] at hpg
      rcases List.mem_or_eq_of_mem_set hpg with hmem | rfl
      · exact hsparse pg hmem
      · have hold := List.mem_of_getElem? hp
        exact (hsparse old hold).put (hr old hold) hcall.1
    · rw [Heap.call, heq] at hpg
      rcases List.mem_append.mp hpg with hmem | hmem
      · exact hsparse pg hmem
      · rw [List.mem_singleton.mp hmem]
        exact HeapPage.Sparse.empty.put ⟨Nat.le_refl _, by decide⟩ hcall.1
  | delete rid =>
    obtain ⟨i, hi⟩ := List.mem_iff_getElem?.mp hpg
    have hget : ((h.modify rid.pageId (·.clear rid.slotNum)) : Heap)[i]? = some pg := hi
    rw [List.getElem?_modify] at hget
    obtain ⟨old, hold, rfl⟩ := Option.map_eq_some_iff.mp hget
    have hmem := hsparse old (List.mem_of_getElem? hold)
    split
    · exact hmem.clear _
    · exact hmem

/-- With long tuples the page that an insertion finds has a slot. -/
theorem meets_slack_from : ∀ {calls : List HeapCall} {H : Heaps} {h : HeapFile} {s : Storage},
    Stores H s → H f = some h → (∀ pg ∈ h.pages, pg.Sparse) →
    Machine.Meets (Long f) (step f) s calls → Machine.Meets (Placeable f) (step f) s calls
  | [], _, _, _, _, _, _, _ => .nil
  | call :: calls, H, h, s, hs, hH, hsparse, hmeets => by
    have hlong := hmeets.head
    refine .cons ?_ fun s' o hstep => ?_
    · cases call with
      | insert data =>
        refine ⟨hlong.2, (slack_iff hs hH).mpr fun pg hpg => ?_⟩
        have hmem := List.mem_of_getElem? hpg
        exact (hsparse pg hmem).nextSlot_lt (inRange hs hH pg hmem)
          (Heap.le_free_of_firstFit hpg) hlong.1
      | delete rid => exact hlong
    · rcases step_call hs hH hlong.fits with hfault | ⟨t, hok, ht⟩
      · rw [hfault] at hstep
        cases hstep
      · obtain ⟨rfl, rfl⟩ := Prod.mk.inj (Except.ok.inj (hok.symm.trans hstep))
        exact meets_slack_from ht (Function.update_self ..)
          (sparse_call (inRange hs hH) hsparse hlong) (hmeets.tail hstep)

/-- In every run of calls on a heap file, from its creation on, with tuples of more than
`MAX_TUPLE / MAX_SLOTS_PER_PAGE` bytes, the page that an insertion finds has a slot. -/
theorem meets_slack (disk : Str → Option File) {poolSize : ℕ} (hpool : 0 < poolSize)
    (tableName : Str) {s : Storage} (hcreate : (PageManager.createTable tableName).run
      ⟨DiskManager.new disk, BufferPool.new poolSize⟩ = (.ok f, s)) {calls : List HeapCall}
    (hcalls : Machine.Meets (Long f) (step f) s calls) :
    Machine.Meets (Placeable f) (step f) s calls := by
  obtain ⟨H, h, hs, hH, hpages⟩ := stores_of_create hpool hcreate
  refine meets_slack_from hs hH (fun pg hpg => ?_) hcalls
  rw [hpages, List.mem_singleton] at hpg
  exact hpg ▸ HeapPage.Sparse.empty

/-- The bytes of a deleted tuple are not used again: the tuple after it goes to a second page. -/
theorem run_packs_after_delete : ∃ s' rids, run 1 sampleStorage
      [.insert (List.replicate 3000 0), .delete ⟨0, 0⟩, .insert (List.replicate 1000 0)] =
        .ok (s', rids) ∧
    rids.reduceOption.map RID.pageId = [0, 1] ∧ s'.diskMgr.getFilePageCount 1 ≤ 4 := by
  have hlong : Machine.Meets (Long 1) (step 1) sampleStorage
      [.insert (List.replicate 3000 0), .delete ⟨0, 0⟩, .insert (List.replicate 1000 0)] :=
    .cons (by show _ ∧ _; decide +kernel) fun s₁ _ h₁ =>
      .cons (by rw [state_of_toStep h₁]; show _ < _; decide +kernel) fun _ _ _ =>
        .cons (by show _ ∧ _; decide +kernel) fun _ _ _ => .nil
  obtain ⟨s', rids, hrun, hpages, -, hcount⟩ := run_packs (fun _ => none) Nat.one_pos (lit "t")
    sample_created _ (meets_slack (fun _ => none) Nat.one_pos (lit "t") sample_created hlong)
    (Machine.ne_error_of_isOk (by decide +kernel) _)
  refine ⟨s', rids, hrun, hpages.trans (by decide +kernel), ?_⟩
  exact hcount [[3000], [1000]] (by decide +kernel) (by decide +kernel)

end HeapCall

end MiniDB
