import MiniDB.Storage.HeapFile

/-!
# Heaps as maps

A heap as a finite map from record identifiers to tuples: an insertion binds a record identifier
that was free, a deletion frees one, and neither touches another. The live tuples are the bindings
of the map, each once, in the order of the record identifiers.

## Main results

* `Heap.tuple?_insert`, `Heap.tuple?_delete`: the operations on the map
* `Heap.mem_live`, `Heap.live_sorted`: the live tuples are the bindings, in ascending order
* `Heap.live_insert`, `Heap.live_delete`: what the operations do to the live tuples
-/

namespace MiniDB

/-- `RID::operator<`. -/
def RID.Lt (a b : RID) : Prop :=
  a.pageId < b.pageId ∨ a.pageId = b.pageId ∧ a.slotNum < b.slotNum

theorem RID.Lt.ne {a b : RID} (h : a.Lt b) : a ≠ b := by
  rintro rfl
  rcases h with h | ⟨-, h⟩ <;> exact Nat.lt_irrefl _ h

namespace HeapPage

variable {p : ℕ} {rid : RID} {bytes : Str}

theorem mem_liveFrom : ∀ {i : ℕ} {os : List (Option Str)},
    (rid, bytes) ∈ liveFrom p i os ↔
      rid.pageId = p ∧ bytes ≠ [] ∧ ∃ j, rid.slotNum = i + j ∧ os[j]? = some (some bytes)
  | i, [] => by simp [liveFrom]
  | i, none :: os => by
    rw [liveFrom, mem_liveFrom]
    refine and_congr_right fun _ => and_congr_right fun _ => ⟨?_, ?_⟩
    · rintro ⟨j, hj, ho⟩
      exact ⟨j + 1, by omega, ho⟩
    · rintro ⟨_ | j, hj, ho⟩
      · cases ho
      · exact ⟨j, by omega, ho⟩
  | i, some b :: os => by
    have htail : (rid, bytes) ∈ liveFrom p (i + 1) os → rid.pageId = p ∧ bytes ≠ [] ∧
        ∃ j, rid.slotNum = i + j ∧ (some b :: os)[j]? = some (some bytes) := by
      intro hmem
      obtain ⟨hp, hne, j, hj, ho⟩ := mem_liveFrom.mp hmem
      exact ⟨hp, hne, j + 1, by omega, ho⟩
    rw [liveFrom]
    by_cases hb : b = []
    · rw [if_pos hb]
      refine ⟨htail, ?_⟩
      rintro ⟨hp, hne, _ | j, hj, ho⟩
      · exact absurd (Option.some.inj (Option.some.inj ho) ▸ hb) hne
      · exact mem_liveFrom.mpr ⟨hp, hne, j, by omega, ho⟩
    · rw [if_neg hb, List.mem_cons, Prod.mk.injEq]
      constructor
      · rintro (⟨rfl, rfl⟩ | hmem)
        · exact ⟨rfl, hb, 0, rfl, rfl⟩
        · exact htail hmem
      · rintro ⟨hp, hne, _ | j, hj, ho⟩
        · refine Or.inl ⟨?_, ?_⟩
          · cases rid; simp_all
          · simpa [eq_comm] using ho
        · exact Or.inr (mem_liveFrom.mpr ⟨hp, hne, j, by omega, ho⟩)

theorem mem_live {h : HeapPage} :
    (rid, bytes) ∈ h.live p ↔ rid.pageId = p ∧ h.tuple? rid.slotNum = some bytes := by
  rw [live, mem_liveFrom, tuple?]
  refine and_congr_right fun _ => ⟨?_, fun ho => ?_⟩
  · rintro ⟨hne, j, hj, ho⟩
    rw [hj, Nat.zero_add, ho]
    simp [hne]
  · obtain ⟨hjoin, hne⟩ := Option.filter_eq_some_iff.mp ho
    exact ⟨of_decide_eq_true hne, rid.slotNum, by omega, Option.join_eq_some_iff.mp hjoin⟩

theorem liveFrom_sorted : ∀ {i : ℕ} {os : List (Option Str)},
    (liveFrom p i os).Pairwise fun a b => a.1.Lt b.1
  | _, [] => .nil
  | i, none :: os => liveFrom_sorted (i := i + 1)
  | i, some b :: os => by
    rw [liveFrom]
    split
    case isTrue => exact liveFrom_sorted
    case isFalse =>
      refine List.pairwise_cons.mpr ⟨?_, liveFrom_sorted⟩
      rintro ⟨rid, bytes⟩ hmem
      obtain ⟨hp, -, j, hj, -⟩ := mem_liveFrom.mp hmem
      exact Or.inr ⟨hp.symm, by simp only [hj]; omega⟩

end HeapPage

namespace Heap

variable {h : Heap} {rid : RID} {bytes : Str}

/-- Where an insertion goes: to a page with room and a slot for it, or to a new one. -/
theorem insert_cases (h : Heap) (bytes : Str) :
    (∃ p pg, h[p]? = some pg ∧ bytes.length ≤ pg.free ∧ pg.nextSlot < MAX_SLOTS_PER_PAGE ∧
      h.insert bytes = (h.set p (pg.put bytes), ⟨p, pg.nextSlot⟩)) ∨
    h.insert bytes = h.append bytes := by
  unfold insert
  split
  case h_2 => exact Or.inr rfl
  case h_1 pg hpg =>
    split
    case isFalse => exact Or.inr rfl
    case isTrue hslot => exact Or.inl ⟨_, pg, hpg, le_free_of_firstFit hpg, hslot, rfl⟩

theorem length_insert (h : Heap) (bytes : Str) :
    (h.insert bytes).1.length = h.length ∨ (h.insert bytes).1.length = h.length + 1 := by
  rcases insert_cases h bytes with ⟨p, pg, -, -, -, heq⟩ | heq
  · exact Or.inl (by rw [heq, List.length_set])
  · exact Or.inr (by rw [heq, append, List.length_append, List.length_singleton])

/-! ## The operations on the map -/

theorem tuple?_append (hb : bytes ≠ []) :
    (h.append bytes).1.tuple? rid = if rid = (h.append bytes).2 then some bytes else h.tuple? rid := by
  obtain ⟨p, i⟩ := rid
  simp only [append, tuple?, RID.mk.injEq]
  rcases Nat.lt_trichotomy p h.length with hp | hp | hp
  · rw [if_neg (by omega), List.getElem?_append_left hp]
  · subst hp
    rw [List.getElem?_concat_length, List.getElem?_eq_none (Nat.le_refl _), Option.bind_some,
      HeapPage.tuple?_put hb, HeapPage.nextSlot_empty]
    simp [HeapPage.tuple?, HeapPage.empty]
  · rw [if_neg (by omega), List.getElem?_eq_none (by simp; omega),
      List.getElem?_eq_none (by omega)]

theorem tuple?_append_free : h.tuple? (h.append bytes).2 = none := by
  simp [append, tuple?]

/-- An insertion binds its record identifier to its tuple and changes nothing else. -/
theorem tuple?_insert (hb : bytes ≠ []) :
    (h.insert bytes).1.tuple? rid = if rid = (h.insert bytes).2 then some bytes else h.tuple? rid := by
  rcases insert_cases h bytes with ⟨q, pg, hq, -, -, heq⟩ | heq
  · rw [heq]
    obtain ⟨p, i⟩ := rid
    simp only [tuple?, RID.mk.injEq, List.getElem?_set]
    by_cases hpq : q = p
    · subst hpq
      have hlt : q < h.length := (List.getElem?_eq_some_iff.mp hq).1
      rw [if_pos rfl, if_pos hlt, hq, Option.bind_some, Option.bind_some, HeapPage.tuple?_put hb]
      simp
    · rw [if_neg hpq, if_neg fun he => hpq he.1.symm]
  · rw [heq]
    exact tuple?_append hb

/-- The record identifier of an insertion was free. -/
theorem tuple?_insert_free : h.tuple? (h.insert bytes).2 = none := by
  rcases insert_cases h bytes with ⟨p, pg, hp, -, -, heq⟩ | heq
  · simp only [heq, tuple?, hp, Option.bind_some, HeapPage.tuple?_nextSlot]
  · rw [heq]
    exact tuple?_append_free

/-- A deletion frees its record identifier and changes nothing else. -/
theorem tuple?_delete (r : RID) :
    (h.delete r).tuple? rid = if rid = r then none else h.tuple? rid := by
  obtain ⟨p, i⟩ := rid
  obtain ⟨q, j⟩ := r
  simp only [delete, tuple?, RID.mk.injEq, List.getElem?_modify]
  by_cases hq : q = p
  · subst hq
    cases h[q]? with
    | none => simp
    | some pg => simp [HeapPage.tuple?_clear]
  · simp [hq, Ne.symm hq]

/-! ## The live tuples -/

theorem mem_liveFrom : ∀ {p : ℕ} {h : Heap},
    (rid, bytes) ∈ liveFrom p h ↔
      ∃ q pg, rid.pageId = p + q ∧ h[q]? = some pg ∧ pg.tuple? rid.slotNum = some bytes
  | p, [] => by simp [liveFrom]
  | p, pg :: pgs => by
    rw [liveFrom, List.mem_append, HeapPage.mem_live, mem_liveFrom]
    constructor
    · rintro (⟨hp, ht⟩ | ⟨q, pg', hq, hget, ht⟩)
      · exact ⟨0, pg, hp, rfl, ht⟩
      · exact ⟨q + 1, pg', by omega, hget, ht⟩
    · rintro ⟨_ | q, pg', hq, hget, ht⟩
      · obtain rfl := Option.some.inj hget
        exact Or.inl ⟨hq, ht⟩
      · exact Or.inr ⟨q, pg', by omega, hget, ht⟩

/-- The live tuples are the bindings of the map. -/
theorem mem_live : (rid, bytes) ∈ h.live ↔ h.tuple? rid = some bytes := by
  rw [live, mem_liveFrom, tuple?, Option.bind_eq_some_iff]
  constructor
  · rintro ⟨q, pg, hq, hget, ht⟩
    exact ⟨pg, by rw [hq, Nat.zero_add]; exact hget, ht⟩
  · rintro ⟨pg, hget, ht⟩
    exact ⟨rid.pageId, pg, (Nat.zero_add _).symm, hget, ht⟩

theorem liveFrom_sorted : ∀ {p : ℕ} {h : Heap}, (liveFrom p h).Pairwise fun a b => a.1.Lt b.1
  | _, [] => .nil
  | p, pg :: pgs => by
    refine List.pairwise_append.mpr ⟨HeapPage.liveFrom_sorted, liveFrom_sorted, ?_⟩
    rintro ⟨a, x⟩ ha ⟨b, y⟩ hb
    obtain ⟨hpa, -⟩ := HeapPage.mem_live.mp ha
    obtain ⟨q, -, hpb, -, -⟩ := mem_liveFrom.mp hb
    exact Or.inl (by simp only [hpa, hpb]; omega)

/-- The live tuples come in the order of their record identifiers. -/
theorem live_sorted : h.live.Pairwise fun a b => a.1.Lt b.1 := liveFrom_sorted

theorem nodup_rids : (h.live.map Prod.fst).Nodup :=
  List.pairwise_map.mpr (live_sorted.imp fun hlt => hlt.ne)

theorem nodup_live : h.live.Nodup := List.Nodup.of_map _ nodup_rids

/-- An insertion adds its tuple to the live ones. -/
theorem live_insert (hb : bytes ≠ []) :
    (h.insert bytes).1.live.Perm (((h.insert bytes).2, bytes) :: h.live) := by
  refine (List.perm_ext_iff_of_nodup nodup_live (List.nodup_cons.mpr ⟨?_, nodup_live⟩)).mpr ?_
  · rw [mem_live, tuple?_insert_free]
    simp
  · rintro ⟨rid, b⟩
    rw [mem_live, tuple?_insert hb, List.mem_cons, mem_live, Prod.mk.injEq]
    by_cases hrid : rid = (h.insert bytes).2
    · subst hrid
      simp [tuple?_insert_free, eq_comm]
    · simp [hrid]

/-- A deletion takes its record identifier out of the live ones. -/
theorem live_delete (r : RID) : (h.delete r).live.Perm (h.live.filter fun e => e.1 ≠ r) := by
  refine (List.perm_ext_iff_of_nodup nodup_live (nodup_live.filter _)).mpr ?_
  rintro ⟨rid, b⟩
  rw [mem_live, tuple?_delete, List.mem_filter, mem_live]
  by_cases hrid : rid = r <;> simp [hrid]

/-- Deletions one after another. -/
theorem live_foldl_delete : ∀ (rids : List RID) (h : Heap),
    (rids.foldl delete h).live.Perm (h.live.filter fun e => e.1 ∉ rids)
  | [], h => by simp
  | r :: rids, h => by
    refine (live_foldl_delete rids (h.delete r)).trans ?_
    refine ((live_delete r).filter _).trans (List.Perm.of_eq ?_)
    rw [List.filter_filter]
    refine List.filter_congr fun e _ => ?_
    simp [Bool.and_comm]

@[simp] theorem length_delete (r : RID) : (h.delete r).length = h.length := List.length_modify ..

@[simp] theorem length_foldl_delete : ∀ (rids : List RID) (h : Heap),
    (rids.foldl delete h).length = h.length
  | [], _ => rfl
  | _ :: rids, _ => (length_foldl_delete rids _).trans (length_delete _)

theorem pageId_lt (hrid : h.tuple? rid = some bytes) : rid.pageId < h.length := by
  obtain ⟨pg, hget, -⟩ := Option.bind_eq_some_iff.mp hrid
  exact (List.getElem?_eq_some_iff.mp hget).1

@[simp] theorem live_singleton_empty : live [HeapPage.empty] = [] := rfl

end Heap

end MiniDB
