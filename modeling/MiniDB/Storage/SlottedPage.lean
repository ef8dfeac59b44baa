import MiniDB.Foundations.Machine
import MiniDB.Storage.PageManager

/-!
# Slotted pages

A page in the format of the page manager, as its slots and the number of bytes in use. A tuple is
copied to the first free byte and never moved, so a new tuple lies beyond all others and the bytes
of a deleted one are not used again.

## Main definitions

* `HeapPage`: the slots of a page, and where its free space starts
* `HeapPage.nextSlot`, `HeapPage.put`, `HeapPage.clear`: the operations on it
* `Slotted page h`: the bytes of `page` lay out `h`
* `ReadsAs page h`: the bytes of `page` lay out `h`, or they are all zero and `h` is empty

## Main results

* `slotted_initPage`: a page as initialised is empty
* `Slotted.findEmptySlot`, `Slotted.placeTuple`: the two halves of an insertion
* `Slotted.clearSlot`, `Slotted.slotBytes`, `Slotted.scanSlots`: deletion, reading and scanning
* `ReadsAs.slotBytes`, `ReadsAs.scanSlots`: a page of zeros reads as an empty one
-/

namespace MiniDB

/-- A heap page: its slots, each with its tuple if it has one, and where the free space starts. A
tuple of no bytes takes its slot for good, but is not live. -/
structure HeapPage where
  slots : List (Option Str)
  used : ℕ
deriving DecidableEq, Repr

namespace HeapPage

/-- The page without slots. -/
def empty : HeapPage := ⟨[], HEADER_SIZE⟩

/-- The number of free bytes. -/
def free (h : HeapPage) : ℕ := PAGE_SIZE - h.used

/-- The slot of the next tuple: the first empty one, or a new one after the last. -/
def nextSlot (h : HeapPage) : ℕ := h.slots.findIdx Option.isNone

/-- A tuple in the slot that is next. -/
def put (h : HeapPage) (bytes : Str) : HeapPage where
  slots := if h.nextSlot < h.slots.length then h.slots.set h.nextSlot (some bytes)
    else h.slots ++ [some bytes]
  used := h.used + bytes.length

/-- A slot emptied. -/
def clear (h : HeapPage) (i : ℕ) : HeapPage := { h with slots := h.slots.set i none }

/-- The live tuples among slots, numbered from `i` on, of the page `p`. -/
def liveFrom (p : ℕ) : ℕ → List (Option Str) → List (RID × Str)
  | _, [] => []
  | i, none :: os => liveFrom p (i + 1) os
  | i, some bytes :: os =>
    if bytes = [] then liveFrom p (i + 1) os else (⟨p, i⟩, bytes) :: liveFrom p (i + 1) os

/-- The live tuples of the page `p`, in the order of their slots. -/
def live (h : HeapPage) (p : ℕ) : List (RID × Str) := liveFrom p 0 h.slots

/-- The live tuple in a slot. -/
def tuple? (h : HeapPage) (i : ℕ) : Option Str := h.slots[i]?.join.filter (· ≠ [])

variable {h : HeapPage} {bytes : Str}

theorem nextSlot_empty : empty.nextSlot = 0 := rfl

theorem nextSlot_le : h.nextSlot ≤ h.slots.length := List.findIdx_le_length

theorem tuple?_nextSlot : h.tuple? h.nextSlot = none := by
  unfold tuple?
  by_cases hlt : h.nextSlot < h.slots.length
  · have hnone : (h.slots[h.nextSlot]).isNone = true := List.findIdx_getElem (w := hlt)
    rw [List.getElem?_eq_getElem hlt, Option.isNone_iff_eq_none.mp hnone]
    rfl
  · rw [List.getElem?_eq_none (Nat.not_lt.mp hlt)]
    rfl

theorem length_put : (h.put bytes).slots.length =
    if h.nextSlot < h.slots.length then h.slots.length else h.slots.length + 1 := by
  unfold put
  split <;> simp

/-- The slots after an insertion. -/
theorem getElem?_put (i : ℕ) :
    (h.put bytes).slots[i]? = if i = h.nextSlot then some (some bytes) else h.slots[i]? := by
  have hle : h.nextSlot ≤ h.slots.length := nextSlot_le
  unfold put
  by_cases hlt : h.nextSlot < h.slots.length
  · simp only [if_pos hlt, List.getElem?_set]
    by_cases hi : i = h.nextSlot
    · rw [if_pos hi, if_pos hi.symm]
    · rw [if_neg hi, if_neg (Ne.symm hi)]
  · have heq : h.nextSlot = h.slots.length := by omega
    simp only [if_neg hlt]
    by_cases hi : i = h.nextSlot
    · rw [if_pos hi, hi, heq, List.getElem?_concat_length]
    · rw [if_neg hi]
      by_cases hi' : i < h.slots.length
      · rw [List.getElem?_append_left hi']
      · rw [List.getElem?_eq_none (by simp; omega), List.getElem?_eq_none (by omega)]

theorem tuple?_put (hb : bytes ≠ []) (i : ℕ) :
    (h.put bytes).tuple? i = if i = h.nextSlot then some bytes else h.tuple? i := by
  rw [tuple?, getElem?_put]
  split
  case isTrue => simp [hb]
  case isFalse => rfl

theorem tuple?_clear (j i : ℕ) : (h.clear j).tuple? i = if i = j then none else h.tuple? i := by
  simp only [tuple?, clear, List.getElem?_set]
  by_cases hi : i = j
  · subst hi
    by_cases hlt : i < h.slots.length <;> simp [hlt]
  · simp [hi, Ne.symm hi]

end HeapPage

/-- The slot `i` of the page as its header describes it: empty, or with a tuple below `used`. -/
def SlotHolds (page : Page) (used i : ℕ) : Option Str → Prop
  | none => Block.field 2 page (8 + 2 * i) = 0 ∧ Block.field 2 page (264 + 2 * i) = 0
  | some bytes => Block.field 2 page (264 + 2 * i) = bytes.length ∧
      HEADER_SIZE ≤ Block.field 2 page (8 + 2 * i) ∧
      Block.field 2 page (8 + 2 * i) + bytes.length ≤ used ∧
      page.read (Block.field 2 page (8 + 2 * i)) bytes.length = bytes

/-- The bytes of the page lay out the heap page. -/
structure Slotted (page : Page) (h : HeapPage) : Prop where
  numSlots : page.numSlots = h.slots.length
  freeSpacePtr : page.freeSpacePtr = h.used
  slots_le : h.slots.length ≤ MAX_SLOTS_PER_PAGE
  header_le : HEADER_SIZE ≤ h.used
  used_le : h.used ≤ PAGE_SIZE
  slot : ∀ {i o}, h.slots[i]? = some o → SlotHolds page h.used i o
  apart : ∀ {i j a b}, i ≠ j → h.slots[i]? = some (some a) → h.slots[j]? = some (some b) →
    Block.field 2 page (8 + 2 * i) + a.length ≤ Block.field 2 page (8 + 2 * j) ∨
      Block.field 2 page (8 + 2 * j) + b.length ≤ Block.field 2 page (8 + 2 * i)

theorem HEADER_SIZE_eq : HEADER_SIZE = 520 := rfl

/-- A change of the page that keeps the header of a slot and the bytes below `used` keeps the
slot. -/
theorem SlotHolds.of_frame {page page' : Page} {used used' i : ℕ} {o : Option Str}
    (h : SlotHolds page used i o) (hused : used ≤ used')
    (hdir : Block.field 2 page' (8 + 2 * i) = Block.field 2 page (8 + 2 * i))
    (hlen : Block.field 2 page' (264 + 2 * i) = Block.field 2 page (264 + 2 * i))
    (hread : ∀ off len, HEADER_SIZE ≤ off → off + len ≤ used →
      page'.read off len = page.read off len) : SlotHolds page' used' i o := by
  cases o with
  | none => exact ⟨hdir.trans h.1, hlen.trans h.2⟩
  | some bytes =>
    obtain ⟨hl, hge, hle, hr⟩ := h
    refine ⟨hlen.trans hl, hdir ▸ hge, ?_, ?_⟩
    · rw [hdir]; omega
    · rw [hdir, hread _ _ hge hle, hr]

theorem slotted_initPage (pageId : ℕ) : Slotted (PageManager.initPage pageId) HeapPage.empty where
  numSlots := by
    unfold Page.numSlots PageManager.initPage Page.setFreeSpacePtr Page.setNumSlots
    rw [Block.field_setField_of_disjoint _ _ _ (by omega),
      Block.field_setField_self _ _ (by decide) (by decide)]
    rfl
  freeSpacePtr := Block.field_setField_self _ _ (by decide) (by decide)
  slots_le := Nat.zero_le _
  header_le := Nat.le_refl _
  used_le := by decide
  slot h := absurd h (by simp [HeapPage.empty])
  apart _ h := absurd h (by simp [HeapPage.empty])

namespace Slotted

variable {page : Page} {h : HeapPage} {bytes : Str} {i : ℕ}

theorem lt_maxSlots (hs : Slotted page h) (hi : i < h.slots.length) : i < MAX_SLOTS_PER_PAGE :=
  Nat.lt_of_lt_of_le hi hs.slots_le

theorem freeSpace (hs : Slotted page h) : page.freeSpace = h.free := by
  have h₁ := hs.header_le
  have h₂ := hs.used_le
  rw [Page.freeSpace, hs.freeSpacePtr, HeapPage.free]
  simp only [PAGE_SIZE, HEADER_SIZE_eq] at *
  omega

/-- The loop over the slots finds the first empty one. -/
theorem findEmptySlot_from (hs : Slotted page h) : ∀ n i, i + n = h.slots.length →
    PageManager.findEmptySlot page n i = .ok (((h.slots.drop i).findIdx? Option.isNone).map (· + i))
  | 0, i, hi => by
    rw [List.drop_eq_nil_of_le (by omega)]
    rfl
  | n + 1, i, hi => by
    have hlt : i < h.slots.length := by omega
    have hmax : i < MAX_SLOTS_PER_PAGE := hs.lt_maxSlots hlt
    have hslot : SlotHolds page h.used i h.slots[i] := hs.slot (List.getElem?_eq_getElem hlt)
    have ih := findEmptySlot_from hs n (i + 1) (by omega)
    rw [PageManager.findEmptySlot, Page.slotDirectory, Page.slotLengths, if_pos hmax, if_pos hmax,
      List.drop_eq_getElem_cons hlt, List.findIdx?_cons, ih, Machine.ok_bind, Machine.ok_bind]
    cases ho : h.slots[i] with
    | none =>
      rw [ho] at hslot
      simp [hslot.1, hslot.2]
    | some bytes =>
      rw [ho] at hslot
      have hne : Block.field 2 page (8 + 2 * i) ≠ 0 := by
        have hge := hslot.2.1
        simp only [HEADER_SIZE_eq] at hge
        omega
      have hmap : ∀ o : Option ℕ, o.map (· + (i + 1)) = (o.map (· + 1)).map (· + i) := by
        intro o
        cases o <;> simp [Nat.add_comm, Nat.add_left_comm]
      simp [hne, hmap]

theorem findEmptySlot (hs : Slotted page h) :
    ∃ o, PageManager.findEmptySlot page page.numSlots 0 = .ok o ∧
      o.getD page.numSlots = h.nextSlot := by
  refine ⟨_, hs.numSlots ▸ hs.findEmptySlot_from _ 0 (Nat.zero_add _), ?_⟩
  rw [hs.numSlots, HeapPage.nextSlot, List.drop_zero, List.findIdx_eq_getD_findIdx?]
  cases h.slots.findIdx? Option.isNone <;> rfl

/-- What a placement does to the bytes of the page. -/
theorem placeTuple_bytes (hs : Slotted page h) (hslot : h.nextSlot < MAX_SLOTS_PER_PAGE)
    (hfit : bytes.length ≤ h.free) :
    ∃ page', PageManager.placeTuple page h.nextSlot bytes = .ok page' ∧
      page'.numSlots = page.numSlots ∧ page'.freeSpacePtr = h.used + bytes.length ∧
      Block.field 2 page' (8 + 2 * h.nextSlot) = h.used ∧
      Block.field 2 page' (264 + 2 * h.nextSlot) = bytes.length ∧
      page'.read h.used bytes.length = bytes ∧
      (∀ i, i ≠ h.nextSlot → i < MAX_SLOTS_PER_PAGE →
        Block.field 2 page' (8 + 2 * i) = Block.field 2 page (8 + 2 * i) ∧
        Block.field 2 page' (264 + 2 * i) = Block.field 2 page (264 + 2 * i)) ∧
      ∀ off len, HEADER_SIZE ≤ off → off + len ≤ h.used →
        page'.read off len = page.read off len := by
  have hge : 520 ≤ h.used := hs.header_le
  have hle : h.used ≤ 4096 := hs.used_le
  have hfit' : h.used + bytes.length ≤ 4096 := by
    simp only [HeapPage.free, PAGE_SIZE] at hfit
    omega
  simp only [MAX_SLOTS_PER_PAGE] at hslot
  -- The four writes of the source, in its order.
  let page₁ : Page := Block.setField 2 page (8 + 2 * h.nextSlot) page.freeSpacePtr
  let page₂ : Page := Block.setField 2 page₁ (264 + 2 * h.nextSlot) bytes.length
  let page₃ : Page := page₂.write h.used bytes
  let page₄ : Page := Block.setField 2 page₃ 6 (h.used + bytes.length)
  have hptr₂ : page₂.freeSpacePtr = h.used := by
    rw [Page.freeSpacePtr, Block.field_setField_of_disjoint _ _ _ (by omega),
      Block.field_setField_of_disjoint _ _ _ (by omega)]
    exact hs.freeSpacePtr
  have hptr₃ : page₃.freeSpacePtr = h.used := by
    rw [Page.freeSpacePtr, Block.field_write_of_disjoint _ _ (by omega)]
    exact hptr₂
  have hrun : PageManager.placeTuple page h.nextSlot bytes = .ok page₄ := by
    have h₁ : page.setSlotDirectory h.nextSlot page.freeSpacePtr = .ok page₁ := if_pos hslot
    have h₂ : Page.setSlotLengths page₁ h.nextSlot bytes.length = .ok page₂ := if_pos hslot
    have h₃ : Page.copyIn page₂ page₂.freeSpacePtr bytes = .ok page₃ := by
      rw [hptr₂]
      exact if_pos hfit'
    simp only [PageManager.placeTuple, h₁, h₂, h₃, Machine.ok_bind, Machine.pure_eq_ok, hptr₃]
    rfl
  -- A header field that none of the four writes covers.
  have hfield : ∀ o, o + 2 ≤ 520 → o + 2 ≤ 6 ∨ 8 ≤ o → o + 2 ≤ 8 + 2 * h.nextSlot ∨
      8 + 2 * h.nextSlot + 2 ≤ o → o + 2 ≤ 264 + 2 * h.nextSlot ∨ 264 + 2 * h.nextSlot + 2 ≤ o →
      Block.field 2 page₄ o = Block.field 2 page o := by
    intro o ho h₁ h₂ h₃
    rw [Block.field_setField_of_disjoint _ _ _ (by omega),
      Block.field_write_of_disjoint _ _ (by omega),
      Block.field_setField_of_disjoint _ _ _ (by omega),
      Block.field_setField_of_disjoint _ _ _ (by omega)]
  refine ⟨page₄, hrun, ?_, ?_, ?_, ?_, ?_, ?_, ?_⟩
  · exact hfield 4 (by omega) (by omega) (by omega) (by omega)
  · exact Block.field_setField_self _ _ (by decide) (by omega)
  · rw [Block.field_setField_of_disjoint _ _ _ (by omega),
      Block.field_write_of_disjoint _ _ (by omega),
      Block.field_setField_of_disjoint _ _ _ (by omega)]
    refine (Block.field_setField_self _ _ (by simp only [PAGE_SIZE]; omega) ?_).trans
      hs.freeSpacePtr
    exact hs.freeSpacePtr.symm ▸ (by omega)
  · rw [Block.field_setField_of_disjoint _ _ _ (by omega),
      Block.field_write_of_disjoint _ _ (by omega),
      Block.field_setField_self _ _ (by simp only [PAGE_SIZE]; omega) (by omega)]
  · rw [Block.read_setField_of_disjoint _ _ (by omega)]
    exact Block.read_write_self _ hfit'
  · intro i hi hmax
    simp only [MAX_SLOTS_PER_PAGE] at hmax
    exact ⟨hfield _ (by omega) (by omega) (by omega) (by omega),
      hfield _ (by omega) (by omega) (by omega) (by omega)⟩
  · intro off len hoff hend
    simp only [HEADER_SIZE_eq] at hoff
    rw [Block.read_setField_of_disjoint _ _ (by omega),
      Block.read_write_of_disjoint _ (by omega),
      Block.read_setField_of_disjoint _ _ (by omega),
      Block.read_setField_of_disjoint _ _ (by omega)]

/-- The number of slots is not looked at by the slots. -/
theorem field_setNumSlots (v : ℕ) {o : ℕ} (ho : 6 ≤ o) :
    Block.field 2 (page.setNumSlots v) o = Block.field 2 page o :=
  Block.field_setField_of_disjoint _ _ _ (by omega)

theorem read_setNumSlots (v : ℕ) {off len : ℕ} (ho : 6 ≤ off) :
    (page.setNumSlots v).read off len = page.read off len :=
  Block.read_setField_of_disjoint _ _ (by omega)

/-- The page with a tuple placed in the next slot. -/
theorem placeTuple (hs : Slotted page h) (hslot : h.nextSlot < MAX_SLOTS_PER_PAGE)
    (hfit : bytes.length ≤ h.free) :
    ∃ page', PageManager.placeTuple page h.nextSlot bytes = .ok page' ∧
      page'.numSlots = page.numSlots ∧
      Slotted (if page'.numSlots ≤ h.nextSlot then page'.setNumSlots (h.nextSlot + 1) else page')
        (h.put bytes) := by
  obtain ⟨page', hrun, hnum, hptr, hdir, hlen, hread, hother, hbelow⟩ :=
    hs.placeTuple_bytes hslot hfit
  refine ⟨page', hrun, hnum, ?_⟩
  have hle : h.nextSlot ≤ h.slots.length := HeapPage.nextSlot_le
  have hge : 520 ≤ h.used := hs.header_le
  have hfit' : h.used + bytes.length ≤ PAGE_SIZE := by
    simp only [HeapPage.free] at hfit
    have := hs.used_le
    omega
  have hlength : (h.put bytes).slots.length = _ := HeapPage.length_put
  have hslots : ∀ {i o}, (h.put bytes).slots[i]? = some o →
      SlotHolds page' (h.used + bytes.length) i o := by
    intro i o hi
    rw [HeapPage.getElem?_put] at hi
    split at hi
    case isTrue hik =>
      obtain rfl := Option.some.inj hi
      rw [hik]
      exact ⟨hlen, by rw [hdir]; exact hge, Nat.le_of_eq (by rw [hdir]),
        by rw [hdir]; exact hread⟩
    case isFalse hik =>
      have hmax : i < MAX_SLOTS_PER_PAGE :=
        hs.lt_maxSlots (List.getElem?_eq_some_iff.mp hi).1
      obtain ⟨hd, hl⟩ := hother i hik hmax
      exact (hs.slot hi).of_frame (Nat.le_add_right _ _) hd hl hbelow
  have hbefore : ∀ {j b}, j ≠ h.nextSlot → h.slots[j]? = some (some b) →
      Block.field 2 page' (8 + 2 * j) + b.length ≤ Block.field 2 page' (8 + 2 * h.nextSlot) := by
    intro j b hj hslotj
    have hmax : j < MAX_SLOTS_PER_PAGE :=
      hs.lt_maxSlots (List.getElem?_eq_some_iff.mp hslotj).1
    rw [(hother j hj hmax).1, hdir]
    exact (hs.slot hslotj).2.2.1
  have hapart : ∀ {i j a b}, i ≠ j → (h.put bytes).slots[i]? = some (some a) →
      (h.put bytes).slots[j]? = some (some b) →
      Block.field 2 page' (8 + 2 * i) + a.length ≤ Block.field 2 page' (8 + 2 * j) ∨
        Block.field 2 page' (8 + 2 * j) + b.length ≤ Block.field 2 page' (8 + 2 * i) := by
    intro i j a b hij hi hj
    rw [HeapPage.getElem?_put] at hi hj
    by_cases hin : i = h.nextSlot
    · subst hin
      rw [if_neg (Ne.symm hij)] at hj
      exact Or.inr (hbefore (Ne.symm hij) hj)
    · rw [if_neg hin] at hi
      by_cases hjn : j = h.nextSlot
      · subst hjn
        exact Or.inl (hbefore hij hi)
      · rw [if_neg hjn] at hj
        rw [(hother i hin (hs.lt_maxSlots (List.getElem?_eq_some_iff.mp hi).1)).1,
          (hother j hjn (hs.lt_maxSlots (List.getElem?_eq_some_iff.mp hj).1)).1]
        exact hs.apart hij hi hj
  have hused : (h.put bytes).used = h.used + bytes.length := rfl
  by_cases hnew : page'.numSlots ≤ h.nextSlot
  · have hlast : ¬ h.nextSlot < h.slots.length := by
      rw [hnum, hs.numSlots] at hnew
      omega
    rw [if_pos hnew]
    rw [if_neg hlast] at hlength
    refine ⟨?_, ?_, ?_, ?_, by rw [hused]; exact hfit', ?_, ?_⟩
    · rw [hlength, Page.numSlots, Page.setNumSlots,
        Block.field_setField_self _ _ (by decide) (by simp only [MAX_SLOTS_PER_PAGE] at hslot; omega)]
      omega
    · rw [Page.freeSpacePtr, field_setNumSlots _ (Nat.le_refl _)]
      exact hptr
    · rw [hlength]; omega
    · rw [hused, HEADER_SIZE_eq]; omega
    · intro i o hi
      refine (hslots hi).of_frame (Nat.le_refl _) (field_setNumSlots _ (by omega))
        (field_setNumSlots _ (by omega)) fun off len hoff _ => ?_
      exact read_setNumSlots _ (by rw [HEADER_SIZE_eq] at hoff; omega)
    · intro i j a b hij hi hj
      rw [field_setNumSlots _ (by omega), field_setNumSlots _ (by omega)]
      exact hapart hij hi hj
  · have hlt : h.nextSlot < h.slots.length := by
      rw [hnum, hs.numSlots] at hnew
      omega
    rw [if_neg hnew]
    rw [if_pos hlt] at hlength
    exact ⟨by rw [hlength, hnum, hs.numSlots], hptr, by rw [hlength]; exact hs.slots_le,
      by rw [hused, HEADER_SIZE_eq]; omega, by rw [hused]; exact hfit', hslots, hapart⟩

/-- The page with a slot emptied. -/
theorem clearSlot (hs : Slotted page h) (i : ℕ) :
    ∃ page', PageManager.clearSlot page i = .ok page' ∧ Slotted page' (h.clear i) := by
  by_cases hi : i < page.numSlots
  · have hlt : i < h.slots.length := hs.numSlots ▸ hi
    have hmax : i < MAX_SLOTS_PER_PAGE := hs.lt_maxSlots hlt
    have hmax' : i < 128 := hmax
    let page₁ : Page := Block.setField 2 page (8 + 2 * i) 0
    let page₂ : Page := Block.setField 2 page₁ (264 + 2 * i) 0
    refine ⟨page₂, ?_, ?_⟩
    · have h₁ : page.setSlotDirectory i 0 = .ok page₁ := if_pos hmax
      have h₂ : Page.setSlotLengths page₁ i 0 = .ok page₂ := if_pos hmax
      rw [PageManager.clearSlot, if_pos hi, h₁, Machine.ok_bind, h₂]
    have hfield : ∀ o, o + 2 ≤ 8 + 2 * i ∨ 8 + 2 * i + 2 ≤ o →
        o + 2 ≤ 264 + 2 * i ∨ 264 + 2 * i + 2 ≤ o →
        Block.field 2 page₂ o = Block.field 2 page o := by
      intro o h₁ h₂
      rw [Block.field_setField_of_disjoint _ _ _ (by omega),
        Block.field_setField_of_disjoint _ _ _ (by omega)]
    refine ⟨?_, ?_, by simpa [HeapPage.clear] using hs.slots_le, hs.header_le, hs.used_le, ?_, ?_⟩
    · rw [Page.numSlots, hfield 4 (by omega) (by omega)]
      exact hs.numSlots.trans (by simp [HeapPage.clear])
    · rw [Page.freeSpacePtr, hfield 6 (by omega) (by omega)]
      exact hs.freeSpacePtr
    · intro j o hj
      simp only [HeapPage.clear, List.getElem?_set] at hj
      by_cases hij : i = j
      · subst hij
        rw [if_pos rfl, if_pos hlt] at hj
        obtain rfl := Option.some.inj hj
        refine ⟨?_, ?_⟩
        · rw [Block.field_setField_of_disjoint _ _ _ (by omega),
            Block.field_setField_self _ _ (by simp only [PAGE_SIZE]; omega) (by decide)]
        · exact Block.field_setField_self _ _ (by simp only [PAGE_SIZE]; omega) (by decide)
      · rw [if_neg hij] at hj
        have hjmax : j < 128 := hs.lt_maxSlots (List.getElem?_eq_some_iff.mp hj).1
        refine (hs.slot hj).of_frame (Nat.le_refl _) (hfield _ (by omega) (by omega))
          (hfield _ (by omega) (by omega)) fun off len hoff _ => ?_
        rw [HEADER_SIZE_eq] at hoff
        rw [Block.read_setField_of_disjoint _ _ (by omega),
          Block.read_setField_of_disjoint _ _ (by omega)]
    · intro j k a b hjk hj hk
      have hstays : ∀ {j a}, (h.clear i).slots[j]? = some (some a) →
          h.slots[j]? = some (some a) ∧
            Block.field 2 page₂ (8 + 2 * j) = Block.field 2 page (8 + 2 * j) := by
        intro j a hj
        simp only [HeapPage.clear, List.getElem?_set] at hj
        by_cases hij : i = j
        · rw [if_pos hij] at hj
          split at hj <;> cases hj
        · rw [if_neg hij] at hj
          have hjmax : j < 128 := hs.lt_maxSlots (List.getElem?_eq_some_iff.mp hj).1
          exact ⟨hj, hfield _ (by omega) (by omega)⟩
      obtain ⟨hj, hfj⟩ := hstays hj
      obtain ⟨hk, hfk⟩ := hstays hk
      rw [hfj, hfk]
      exact hs.apart hjk hj hk
  · refine ⟨page, by rw [PageManager.clearSlot, if_neg hi]; rfl, ?_⟩
    have hle : h.slots.length ≤ i := by rw [← hs.numSlots]; omega
    have hsame : h.clear i = h := by
      cases h
      simp only [HeapPage.clear, HeapPage.mk.injEq, and_true]
      exact List.set_eq_of_length_le hle
    rw [hsame]
    exact hs

/-- What `readTuple` finds in a slot. -/
theorem slotBytes (hs : Slotted page h) (i : ℕ) :
    PageManager.slotBytes page i = .ok ((h.tuple? i).getD []) := by
  unfold PageManager.slotBytes HeapPage.tuple?
  by_cases hi : h.slots.length ≤ i
  · rw [if_pos (by rw [hs.numSlots]; exact hi), List.getElem?_eq_none hi]
    rfl
  · have hlt : i < h.slots.length := by omega
    have hmax : i < MAX_SLOTS_PER_PAGE := hs.lt_maxSlots hlt
    have hslot := hs.slot (List.getElem?_eq_getElem hlt)
    rw [if_neg (by rw [hs.numSlots]; exact hi), Page.slotLengths, Page.slotDirectory, if_pos hmax,
      if_pos hmax, Machine.ok_bind, Machine.ok_bind, List.getElem?_eq_getElem hlt]
    cases ho : h.slots[i] with
    | none =>
      rw [ho] at hslot
      rw [if_pos hslot.2]
      rfl
    | some bytes =>
      rw [ho] at hslot
      obtain ⟨hlen, -, hend, hread⟩ := hslot
      have hin : Block.field 2 page (8 + 2 * i) + bytes.length ≤ PAGE_SIZE :=
        Nat.le_trans hend hs.used_le
      cases bytes with
      | nil =>
        rw [hlen, if_pos List.length_nil]
        rfl
      | cons b bs =>
        rw [hlen, if_neg (by simp), Page.copyOut, if_pos hin, hread]
        rfl

/-- The bytes a pointer to a live tuple gives access to start with the tuple. -/
theorem bytesFrom (hs : Slotted page h) {bytes : Str} (hi : h.slots[i]? = some (some bytes)) :
    ∃ rest, page.bytesFrom (Block.field 2 page (8 + 2 * i)) = bytes ++ rest := by
  obtain ⟨-, -, hend, hread⟩ := hs.slot hi
  have hin : Block.field 2 page (8 + 2 * i) + bytes.length ≤ PAGE_SIZE :=
    Nat.le_trans hend hs.used_le
  refine ⟨page.read (Block.field 2 page (8 + 2 * i) + bytes.length)
    (PAGE_SIZE - Block.field 2 page (8 + 2 * i) - bytes.length), ?_⟩
  have hsplit : PAGE_SIZE - Block.field 2 page (8 + 2 * i) =
      bytes.length + (PAGE_SIZE - Block.field 2 page (8 + 2 * i) - bytes.length) := by omega
  rw [Page.bytesFrom, hsplit, Block.read_append, hread]
  congr 2
  omega

section Scan

variable {β : Type} {callback : β → RID → Str → ℕ → Except Fault (β × Bool)}
  {g : β → RID × Str → β}

/-- The loop over the slots hands every live tuple to the callback, in the order of the slots. -/
theorem scanSlots_from (hs : Slotted page h) (p : ℕ) : ∀ n i b, i + n = h.slots.length →
    (∀ b rid bytes rest, (rid, bytes) ∈ HeapPage.liveFrom p i (h.slots.drop i) →
      callback b rid (bytes ++ rest) bytes.length = .ok (g b (rid, bytes), true)) →
    PageManager.scanSlots callback page p n i b =
      .ok ((HeapPage.liveFrom p i (h.slots.drop i)).foldl g b, true)
  | 0, i, b, hi, _ => by
    rw [List.drop_eq_nil_of_le (by omega)]
    rfl
  | n + 1, i, b, hi, hcall => by
    have hlt : i < h.slots.length := by omega
    have hmax : i < MAX_SLOTS_PER_PAGE := hs.lt_maxSlots hlt
    have hget : h.slots[i]? = some h.slots[i] := List.getElem?_eq_getElem hlt
    have hslot : SlotHolds page h.used i h.slots[i] := hs.slot hget
    rw [List.drop_eq_getElem_cons hlt] at hcall ⊢
    simp only [PageManager.scanSlots, Page.slotDirectory, Page.slotLengths, if_pos hmax,
      Machine.ok_bind]
    cases ho : h.slots[i] with
    | none =>
      rw [ho] at hslot hcall
      rw [if_neg (by rw [hslot.2]; omega)]
      exact scanSlots_from hs p n (i + 1) b (by omega) hcall
    | some bytes =>
      rw [ho] at hslot hcall hget
      rw [HeapPage.liveFrom] at hcall ⊢
      by_cases hnil : bytes = []
      · subst hnil
        rw [if_pos rfl] at hcall ⊢
        rw [if_neg (by rw [hslot.1]; simp)]
        exact scanSlots_from hs p n (i + 1) b (by omega) hcall
      · rw [if_neg hnil] at hcall ⊢
        obtain ⟨rest, hrest⟩ := hs.bytesFrom hget
        have hgo := hcall b ⟨p, i⟩ bytes rest List.mem_cons_self
        rw [if_pos (by rw [hslot.1]; exact List.length_pos_iff.mpr hnil), hrest, hslot.1, hgo]
        exact scanSlots_from hs p n (i + 1) _ (by omega) fun b' rid' bytes' rest' hmem =>
          hcall b' rid' bytes' rest' (List.mem_cons_of_mem _ hmem)

theorem scanSlots (hs : Slotted page h) (p : ℕ) (b : β)
    (hcall : ∀ b rid bytes rest, (rid, bytes) ∈ h.live p →
      callback b rid (bytes ++ rest) bytes.length = .ok (g b (rid, bytes), true)) :
    PageManager.scanSlots callback page p page.numSlots 0 b =
      .ok ((h.live p).foldl g b, true) := by
  rw [hs.numSlots]
  exact hs.scanSlots_from p _ 0 b (Nat.zero_add _) (by rw [List.drop_zero]; exact hcall)

end Scan

end Slotted

/-! ## Pages of zeros -/

/-- The page reads as the heap page: it lays it out, or it is a page of zeros, which has no
slots. -/
def ReadsAs (page : Page) (h : HeapPage) : Prop :=
  Slotted page h ∨ page = Block.zero ∧ h = HeapPage.empty

theorem Slotted.readsAs {page : Page} {h : HeapPage} (hs : Slotted page h) : ReadsAs page h :=
  Or.inl hs

theorem numSlots_zero : Page.numSlots Block.zero = 0 := Block.field_zero ..

theorem freeSpacePtr_zero : Page.freeSpacePtr Block.zero = 0 := Block.field_zero ..

namespace ReadsAs

variable {page : Page} {h : HeapPage}

/-- A page of zeros has room for everything that an empty page has room for. -/
theorem fits_iff (hr : ReadsAs page h) {n : ℕ} (hn : n ≤ PAGE_SIZE - HEADER_SIZE) :
    n ≤ page.freeSpace ↔ n ≤ h.free := by
  rcases hr with hs | ⟨rfl, rfl⟩
  · rw [hs.freeSpace]
  · have hempty : HeapPage.empty.free = PAGE_SIZE - HEADER_SIZE := rfl
    have hzero : Page.freeSpace Block.zero = PAGE_SIZE := by
      rw [Page.freeSpace, freeSpacePtr_zero]
      rfl
    rw [hempty, hzero]
    omega

theorem slotBytes (hr : ReadsAs page h) (i : ℕ) :
    PageManager.slotBytes page i = .ok ((h.tuple? i).getD []) := by
  rcases hr with hs | ⟨rfl, rfl⟩
  · exact hs.slotBytes i
  · rw [PageManager.slotBytes, numSlots_zero, if_pos (Nat.zero_le i)]
    rfl

theorem scanSlots {β : Type} {callback : β → RID → Str → ℕ → Except Fault (β × Bool)}
    {g : β → RID × Str → β} (hr : ReadsAs page h) (p : ℕ) (b : β)
    (hcall : ∀ b rid bytes rest, (rid, bytes) ∈ h.live p →
      callback b rid (bytes ++ rest) bytes.length = .ok (g b (rid, bytes), true)) :
    PageManager.scanSlots callback page p page.numSlots 0 b =
      .ok ((h.live p).foldl g b, true) := by
  rcases hr with hs | ⟨rfl, rfl⟩
  · exact hs.scanSlots p b hcall
  · rw [numSlots_zero]
    rfl

end ReadsAs

end MiniDB
