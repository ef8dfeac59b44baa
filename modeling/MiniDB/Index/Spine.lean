import MiniDB.Index.Cells

/-!
# The internal levels of the tree

`Spine t r d` is the invariant of everything above depth `d`: the cells there are distinct internal
nodes, one child more than separators each, whose children point back to them, and only the root
carries the root flag. It says nothing about the cells at depth `d` itself beyond their links
upward, so it holds of the unfinished tree while a split climbs.

## Main definitions

* `Above t r d i`: the cell `i` lies above depth `d`
* `Internal t i`: the cell `i` is a well-formed internal node
* `Spine t r d`: the levels above depth `d` are well formed

## Main results

* `lvl_congr`: the levels depend only on the cells above them
* `Spine.transfer`: a change below the spine keeps it
* `Spine.succ`, `Spine.pred`: one level more, one level less
* `Spine.exists_parent`: the parent of a cell, and the cell's place among its children
* `Spine.depth_lt`: a tree is less deep than it has nodes
-/

namespace MiniDB.BPlusTree

open Levels

/-- The cell `i` lies at a depth less than `d`. -/
def Above (t : BPlusTree) (r d i : ℕ) : Prop := ∃ e < d, ∃ a ∈ lvl t r e, a.2 = i

/-- The cell `i` is an internal node: one child more than separators, at most as many separators
as the order allows. -/
structure Internal (t : BPlusTree) (i : ℕ) : Prop where
  type : (t.nd i).type = .internal
  children : (t.cs i).length = (t.ks i).length + 1
  size : (t.nd i).size = (t.ks i).length
  size_le : (t.ks i).length ≤ t.maxInternalKeys

/-- The levels above depth `d` below the root `r` are well formed. -/
structure Spine (t : BPlusTree) (r d : ℕ) : Prop where
  bound : ∀ e ≤ d, ∀ a ∈ lvl t r e, a.2 < t.nodes.length
  nodup : ∀ e ≤ d, ((lvl t r e).map Prod.snd).Nodup
  disjoint : ∀ e ≤ d, ∀ a ∈ lvl t r e, ¬ Above t r e a.2
  internal : ∀ i, Above t r d i → Internal t i
  parent : ∀ i, Above t r d i → ∀ c ∈ t.cs i,
    (t.nd c).parentIdx = some i ∧ (t.nd c).isRoot = false
  root : (t.nd r).isRoot = true

variable {t t' : BPlusTree} {r d i : ℕ}

theorem lvl_zero : lvl t r 0 = [(⊥, r)] := rfl

theorem lvl_succ : lvl t r (d + 1) = (lvl t r d).flatMap (expand t.ks t.cs) := rfl

theorem Above.mono {e : ℕ} (h : Above t r e i) (hed : e ≤ d) : Above t r d i := by
  obtain ⟨f, hf, a, ha, rfl⟩ := h
  exact ⟨f, hf.trans_le hed, a, ha, rfl⟩

theorem not_above_zero : ¬ Above t r 0 i := by
  rintro ⟨e, he, -⟩
  exact absurd he (Nat.not_lt_zero e)

theorem above_of_mem {a : WithBot ℤ × ℕ} (ha : a ∈ lvl t r d) : Above t r (d + 1) a.2 :=
  ⟨d, Nat.lt_succ_self d, a, ha, rfl⟩

theorem above_succ : Above t r (d + 1) i ↔ Above t r d i ∨ i ∈ (lvl t r d).map Prod.snd := by
  constructor
  · rintro ⟨e, he, a, ha, rfl⟩
    rcases Nat.lt_succ_iff_lt_or_eq.mp he with he | rfl
    · exact Or.inl ⟨e, he, a, ha, rfl⟩
    · exact Or.inr (List.mem_map_of_mem ha)
  · rintro (h | h)
    · exact h.mono (Nat.le_succ d)
    · obtain ⟨a, ha, rfl⟩ := List.mem_map.mp h
      exact above_of_mem ha

/-- The levels down to depth `d` depend only on the cells above it. -/
theorem lvl_congr (h : ∀ i, Above t r d i → t'.ks i = t.ks i ∧ t'.cs i = t.cs i) :
    ∀ e ≤ d, lvl t' r e = lvl t r e := fun _ he =>
  level_congr t.ks t.cs fun f hf a ha => h a.2 ⟨f, hf.trans_le he, a, ha, rfl⟩

theorem above_congr (h : ∀ i, Above t r d i → t'.ks i = t.ks i ∧ t'.cs i = t.cs i) {e : ℕ}
    (he : e ≤ d) : Above t' r e i ↔ Above t r e i := by
  constructor <;> rintro ⟨f, hf, a, ha, rfl⟩
  · rw [lvl_congr h f (hf.le.trans he)] at ha
    exact ⟨f, hf, a, ha, rfl⟩
  · rw [← lvl_congr h f (hf.le.trans he)] at ha
    exact ⟨f, hf, a, ha, rfl⟩

theorem Internal.congr (h : Internal t i) (hp : t'.params = t.params)
    (hc : core (t'.nd i) = core (t.nd i)) : Internal t' i := by
  obtain ⟨htype, -, hsize, hkeys, -, hkids, -⟩ := core_eq_iff.mp hc
  have hmax := (params_eq_iff.mp hp).2.2.2.1
  exact ⟨htype.trans h.type, by rw [cs, ks, hkids, hkeys]; exact h.children,
    by rw [ks, hsize, hkeys]; exact h.size, by rw [ks, hkeys, hmax]; exact h.size_le⟩

theorem ks_eq_of_core (hc : core (t'.nd i) = core (t.nd i)) : t'.ks i = t.ks i :=
  (core_eq_iff.mp hc).2.2.2.1

theorem cs_eq_of_core (hc : core (t'.nd i) = core (t.nd i)) : t'.cs i = t.cs i :=
  (core_eq_iff.mp hc).2.2.2.2.2.1

namespace Spine

theorem pred (h : Spine t r (d + 1)) : Spine t r d where
  bound e he := h.bound e (he.trans (Nat.le_succ d))
  nodup e he := h.nodup e (he.trans (Nat.le_succ d))
  disjoint e he := h.disjoint e (he.trans (Nat.le_succ d))
  internal i hi := h.internal i (hi.mono (Nat.le_succ d))
  parent i hi := h.parent i (hi.mono (Nat.le_succ d))
  root := h.root

/-- One level more: its cells are new, and the cells above them are internal nodes they point
back to. -/
theorem succ (h : Spine t r d) (hint : ∀ a ∈ lvl t r d, Internal t a.2)
    (hpar : ∀ a ∈ lvl t r d, ∀ c ∈ t.cs a.2,
      (t.nd c).parentIdx = some a.2 ∧ (t.nd c).isRoot = false)
    (hbound : ∀ a ∈ lvl t r (d + 1), a.2 < t.nodes.length)
    (hnodup : ((lvl t r (d + 1)).map Prod.snd).Nodup)
    (hdisj : ∀ a ∈ lvl t r (d + 1), ¬ Above t r (d + 1) a.2) : Spine t r (d + 1) where
  bound e he := by
    rcases Nat.le_or_eq_of_le_succ he with he | rfl
    · exact h.bound e he
    · exact hbound
  nodup e he := by
    rcases Nat.le_or_eq_of_le_succ he with he | rfl
    · exact h.nodup e he
    · exact hnodup
  disjoint e he := by
    rcases Nat.le_or_eq_of_le_succ he with he | rfl
    · exact h.disjoint e he
    · exact hdisj
  internal i hi := by
    rcases above_succ.mp hi with hi | hi
    · exact h.internal i hi
    · obtain ⟨a, ha, rfl⟩ := List.mem_map.mp hi
      exact hint a ha
  parent i hi := by
    rcases above_succ.mp hi with hi | hi
    · exact h.parent i hi
    · obtain ⟨a, ha, rfl⟩ := List.mem_map.mp hi
      exact hpar a ha
  root := h.root

/-- A change that keeps the cells above depth `d` and the upward links of their children keeps
the spine. -/
theorem transfer (h : Spine t r d) (hlen : t.nodes.length ≤ t'.nodes.length)
    (hp : t'.params = t.params) (hcore : ∀ i, Above t r d i → core (t'.nd i) = core (t.nd i))
    (hlink : ∀ i, Above t r d i → ∀ c ∈ t.cs i, (t'.nd c).parentIdx = (t.nd c).parentIdx ∧
      (t'.nd c).isRoot = (t.nd c).isRoot)
    (hroot : (t'.nd r).isRoot = true) : Spine t' r d := by
  have hks : ∀ i, Above t r d i → t'.ks i = t.ks i ∧ t'.cs i = t.cs i := fun i hi =>
    ⟨ks_eq_of_core (hcore i hi), cs_eq_of_core (hcore i hi)⟩
  have hab : ∀ i, Above t' r d i ↔ Above t r d i := fun i => above_congr hks le_rfl
  refine ⟨fun e he a ha => ?_, fun e he => ?_, fun e he a ha => ?_, fun i hi => ?_,
    fun i hi c hc => ?_, hroot⟩
  · rw [lvl_congr hks e he] at ha
    exact (h.bound e he a ha).trans_le hlen
  · rw [lvl_congr hks e he]
    exact h.nodup e he
  · rw [lvl_congr hks e he] at ha
    rw [above_congr hks he]
    exact h.disjoint e he a ha
  · rw [hab] at hi
    exact (h.internal i hi).congr hp (hcore i hi)
  · rw [hab] at hi
    rw [(hks i hi).2] at hc
    rw [(hlink i hi c hc).1, (hlink i hi c hc).2]
    exact h.parent i hi c hc

theorem root_lt (h : Spine t r d) : r < t.nodes.length :=
  h.bound 0 (Nat.zero_le d) (⊥, r) (by simp [lvl_zero])

/-- The cells a spine consists of are in range. -/
theorem above_lt (h : Spine t r d) (hi : Above t r d i) : i < t.nodes.length := by
  obtain ⟨e, he, a, ha, rfl⟩ := hi
  exact h.bound e he.le a ha

/-- The children of the cells above depth `d` are the cells at depths `1` to `d`. -/
theorem child_mem (h : Spine t r d) {c : ℕ} (hi : Above t r d i) (hc : c ∈ t.cs i) :
    ∃ e < d, ∃ lo, (lo, c) ∈ lvl t r (e + 1) := by
  obtain ⟨e, he, a, ha, rfl⟩ := hi
  have hch := (h.internal a.2 ⟨e, he, a, ha, rfl⟩).children
  have hmem : c ∈ (expand t.ks t.cs a).map Prod.snd := by rwa [expand_snd hch]
  obtain ⟨⟨lo, c'⟩, hb, rfl⟩ := List.mem_map.mp hmem
  exact ⟨e, he, lo, List.mem_flatMap.mpr ⟨a, ha, hb⟩⟩

/-- The children of the cells above depth `d` are in range. -/
theorem child_lt (h : Spine t r d) {c : ℕ} (hi : Above t r d i) (hc : c ∈ t.cs i) :
    c < t.nodes.length := by
  obtain ⟨e, he, lo, hb⟩ := h.child_mem hi hc
  exact h.bound (e + 1) he _ hb

/-- A change below the spine that keeps all upward links keeps the spine and its levels. -/
theorem touch (h : Spine t r d) (hlen : t.nodes.length ≤ t'.nodes.length)
    (hp : t'.params = t.params) (hcore : ∀ i, Above t r d i → core (t'.nd i) = core (t.nd i))
    (hlink : ∀ i < t.nodes.length, (t'.nd i).parentIdx = (t.nd i).parentIdx ∧
      (t'.nd i).isRoot = (t.nd i).isRoot) : Spine t' r d ∧ ∀ e ≤ d, lvl t' r e = lvl t r e := by
  refine ⟨h.transfer hlen hp hcore (fun i hi c hc => hlink c (h.child_lt hi hc)) ?_, ?_⟩
  · rw [(hlink r h.root_lt).2]
    exact h.root
  · exact lvl_congr (fun i hi => ⟨ks_eq_of_core (hcore i hi), cs_eq_of_core (hcore i hi)⟩)

/-- A cell at depth `d + 1` has a parent at depth `d`: the parent's place in its level, and the
cell's place among the parent's children. -/
theorem exists_parent (h : Spine t r (d + 1)) {A B : List (WithBot ℤ × ℕ)} {lo : WithBot ℤ}
    {l : ℕ} (hl : lvl t r (d + 1) = A ++ (lo, l) :: B) :
    ∃ PA plo p PB C₁ C₂, lvl t r d = PA ++ (plo, p) :: PB ∧
      expand t.ks t.cs (plo, p) = C₁ ++ (lo, l) :: C₂ ∧
      A = PA.flatMap (expand t.ks t.cs) ++ C₁ ∧ B = C₂ ++ PB.flatMap (expand t.ks t.cs) ∧
      Internal t p ∧ (t.nd l).parentIdx = some p ∧ (t.nd l).isRoot = false := by
  obtain ⟨PA, ⟨plo, p⟩, PB, C₁, C₂, hL, hx, hA, hB⟩ := exists_split_of_flatMap (lvl_succ ▸ hl)
  have hp : Above t r (d + 1) p := ⟨d, Nat.lt_succ_self d, (plo, p), by simp [hL], rfl⟩
  have hint := h.internal p hp
  have hmem : l ∈ t.cs p := by
    rw [(expand_split_at hint.children hx).1]
    simp
  exact ⟨PA, plo, p, PB, C₁, C₂, hL, hx, hA, hB, hint, h.parent p hp l hmem⟩

/-- The children of a level make up the next one. -/
theorem mem_lvl_succ (h : Spine t r (d + 1)) {a : WithBot ℤ × ℕ} (ha : a ∈ lvl t r d) {c : ℕ}
    (hc : c ∈ t.cs a.2) : c ∈ (lvl t r (d + 1)).map Prod.snd := by
  have hch := (h.internal a.2 (above_of_mem ha)).children
  rw [← expand_snd hch] at hc
  obtain ⟨b, hb, rfl⟩ := List.mem_map.mp hc
  exact List.mem_map_of_mem (List.mem_flatMap.mpr ⟨a, ha, hb⟩)

theorem lt_of_mem (h : Spine t r d) {c : ℕ} (hc : c ∈ (lvl t r d).map Prod.snd) :
    c < t.nodes.length := by
  obtain ⟨b, hb, rfl⟩ := List.mem_map.mp hc
  exact h.bound d le_rfl b hb

theorem not_above_of_mem (h : Spine t r d) {c : ℕ} (hc : c ∈ (lvl t r d).map Prod.snd) :
    ¬ Above t r d c := by
  obtain ⟨b, hb, rfl⟩ := List.mem_map.mp hc
  exact h.disjoint d le_rfl b hb

/-- No cell is a child of two cells of one level. -/
theorem eq_of_child (h : Spine t r (d + 1)) {a b : WithBot ℤ × ℕ} (ha : a ∈ lvl t r d)
    (hb : b ∈ lvl t r d) {c : ℕ} (hca : c ∈ t.cs a.2) (hcb : c ∈ t.cs b.2) : a.2 = b.2 := by
  have h₁ := (h.parent a.2 (above_of_mem ha) c hca).1
  have h₂ := (h.parent b.2 (above_of_mem hb) c hcb).1
  exact Option.some.inj (h₁.symm.trans h₂)

/-- The children of one cell are distinct. -/
theorem nodup_children (h : Spine t r (d + 1)) {a : WithBot ℤ × ℕ} (ha : a ∈ lvl t r d) :
    (t.cs a.2).Nodup := by
  have hch := (h.internal a.2 (above_of_mem ha)).children
  have hnd := h.nodup (d + 1) le_rfl
  obtain ⟨PA, PB, hL⟩ := List.append_of_mem ha
  rw [lvl_succ, hL, List.flatMap_append, List.flatMap_cons, List.map_append, List.map_append,
    expand_snd hch] at hnd
  exact (List.nodup_append.mp (List.nodup_append.mp hnd).2.1).1

/-- Every level of a spine has a cell. -/
theorem lvl_ne_nil (h : Spine t r d) : ∀ e ≤ d, lvl t r e ≠ []
  | 0, _ => by simp [lvl_zero]
  | e + 1, he => by
    obtain ⟨a, ha⟩ := List.exists_mem_of_ne_nil _ (h.lvl_ne_nil e ((Nat.le_succ e).trans he))
    have hch := (h.internal a.2 ⟨e, he, a, ha, rfl⟩).children
    obtain ⟨b, hb⟩ := List.exists_mem_of_ne_nil _ (expand_ne_nil hch)
    exact List.ne_nil_of_mem (List.mem_flatMap.mpr ⟨a, ha, hb⟩)

/-- A tree is less deep than it has nodes: every level has a cell of its own. -/
theorem depth_lt (h : Spine t r d) : d < t.nodes.length := by
  have hex : ∀ e, ∃ i, e ≤ d → ∃ a ∈ lvl t r e, a.2 = i := fun e => by
    by_cases he : e ≤ d
    · obtain ⟨a, ha⟩ := List.exists_mem_of_ne_nil _ (h.lvl_ne_nil e he)
      exact ⟨a.2, fun _ => ⟨a, ha, rfl⟩⟩
    · exact ⟨0, fun h' => absurd h' he⟩
  choose pick hpick using hex
  have hne : ∀ e f, e < f → f ≤ d → pick e ≠ pick f := by
    intro e f hef hf heq
    obtain ⟨a, ha, ha'⟩ := hpick e (hef.le.trans hf)
    obtain ⟨b, hb, hb'⟩ := hpick f hf
    exact h.disjoint f hf b hb ⟨e, hef, a, ha, by rw [ha', hb', heq]⟩
  have hinj : Set.InjOn pick (Finset.range (d + 1)) := by
    intro e he f hf heq
    rw [Finset.coe_range, Set.mem_Iio, Nat.lt_succ_iff] at he hf
    rcases lt_trichotomy e f with hlt | rfl | hlt
    · exact absurd heq (hne e f hlt hf)
    · rfl
    · exact absurd heq.symm (hne f e hlt he)
  have hmaps : ∀ e ∈ Finset.range (d + 1), pick e ∈ Finset.range t.nodes.length := by
    intro e he
    obtain ⟨a, ha, ha'⟩ := hpick e (Nat.lt_succ_iff.mp (Finset.mem_range.mp he))
    rw [Finset.mem_range, ← ha']
    exact h.bound e (Nat.lt_succ_iff.mp (Finset.mem_range.mp he)) a ha
  have hcard := Finset.card_le_card_of_injOn pick hmaps hinj
  rwa [Finset.card_range, Finset.card_range] at hcard

end Spine

/-! ## The cells around a cell -/

theorem mem_around {α : Type} {A B : List α} {a x : α} (h : a ∈ A ++ x :: B) :
    a = x ∨ a ∈ A ++ B := by
  simp only [List.mem_append, List.mem_cons] at h ⊢
  tauto

theorem mem_around_of_mem {α : Type} {A B : List α} {a x : α} (h : a ∈ A ++ B) :
    a ∈ A ++ x :: B := by
  simp only [List.mem_append, List.mem_cons] at h ⊢
  tauto

theorem mem_around₂ {α : Type} {A B : List α} {a x y : α} :
    a ∈ A ++ x :: y :: B ↔ a ∈ A ++ x :: B ∨ a = y := by
  simp only [List.mem_append, List.mem_cons]
  tauto

theorem subset_around₂ {α : Type} (A B : List α) (x y : α) : A ++ B ⊆ A ++ x :: y :: B := by
  intro a ha
  simp only [List.mem_append, List.mem_cons] at ha ⊢
  tauto

end MiniDB.BPlusTree
