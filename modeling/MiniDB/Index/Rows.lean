import MiniDB.Index.Lookup

/-!
# Changes of the leaf row

The four changes the tree makes to its leaves, seen on the row of leaves alone: a leaf gets other
entries, a leaf is split, two neighbours are merged, entries move between neighbours. Each lemma
asks for the cells after the change and gives the row after it; what happens to the separators
above is settled elsewhere.

## Main results

* `Row.congr`: a row depends only on the cores of its cells
* `Row.update`, `Row.split`, `Row.merge`, `Row.shift`: the four changes
-/

namespace MiniDB.BPlusTree

open Levels BlockList SortedMap

variable {t t' : BPlusTree} {A B L : List (WithBot ℤ × ℕ)} {lo lo' : WithBot ℤ} {l q : ℕ} {k : ℤ}

namespace Row

theorem blocks_eq (h : Row t L) (hp : t'.params = t.params)
    (hc : ∀ a ∈ L, core (t'.nd a.2) = core (t.nd a.2)) : t'.blocks L = t.blocks L :=
  blocks_congr fun a ha => ((h.leaf a ha).congr hp (hc a ha)).2.1

/-- A row depends only on the cores of its cells. -/
theorem congr (h : Row t L) (hp : t'.params = t.params)
    (hc : ∀ a ∈ L, core (t'.nd a.2) = core (t.nd a.2)) : Row t' L := by
  refine ⟨fun a ha => ((h.leaf a ha).congr hp (hc a ha)).1, ?_, ?_⟩
  · rw [h.blocks_eq hp hc]
    exact h.blocks
  · refine h.linked.congr fun i hi => ?_
    obtain ⟨a, ha, rfl⟩ := List.mem_map.mp hi
    exact ((h.leaf a ha).congr hp (hc a ha)).2.2

/-- What a change leaves alone: the leaves, blocks and links of the cells it keeps. -/
theorem rest (h : Row t L) (hsub : A ++ B ⊆ L) (hp : t'.params = t.params)
    (hc : ∀ a ∈ A ++ B, core (t'.nd a.2) = core (t.nd a.2)) :
    (∀ a ∈ A ++ B, Leaf t' a.2) ∧ t'.blocks A = t.blocks A ∧ t'.blocks B = t.blocks B ∧
      (∀ i ∈ A.map Prod.snd, t'.next i = t.next i) ∧
      ∀ i ∈ B.map Prod.snd, t'.next i = t.next i := by
  have hcong := fun a ha => (h.leaf a (hsub ha)).congr hp (hc a ha)
  refine ⟨fun a ha => (hcong a ha).1, blocks_congr fun a ha => ?_, blocks_congr fun a ha => ?_,
    fun i hi => ?_, fun i hi => ?_⟩
  · exact (hcong a (List.mem_append_left _ ha)).2.1
  · exact (hcong a (List.mem_append_right _ ha)).2.1
  · obtain ⟨a, ha, rfl⟩ := List.mem_map.mp hi
    exact (hcong a (List.mem_append_left _ ha)).2.2
  · obtain ⟨a, ha, rfl⟩ := List.mem_map.mp hi
    exact (hcong a (List.mem_append_right _ ha)).2.2

/-- The leaf `l` gets other entries. -/
theorem update (h : Row t (A ++ (lo, l) :: B)) (hp : t'.params = t.params)
    (hc : ∀ a ∈ A ++ B, core (t'.nd a.2) = core (t.nd a.2)) (hl : Leaf t' l)
    (hn : t'.next l = t.next l)
    (hb : Blocks (t.blocks A ++ (lo, t'.entriesOf l) :: t.blocks B)) :
    Row t' (A ++ (lo, l) :: B) := by
  obtain ⟨hleaf, hA, hB, hnA, hnB⟩ := h.rest (by simp) hp hc
  refine ⟨fun a ha => ?_, ?_, ?_⟩
  · rcases mem_around ha with rfl | ha
    · exact hl
    · exact hleaf a ha
  · rw [blocks_append, blocks_cons, hA, hB]
    exact hb
  · refine h.linked.congr fun i hi => ?_
    rw [List.map_append, List.map_cons] at hi
    rcases mem_around hi with rfl | hi
    · exact hn
    · rcases List.mem_append.mp hi with hi | hi
      · exact hnA i hi
      · exact hnB i hi

/-- The leaf `l` is split: a new leaf `q`, bounded by `k`, follows it. -/
theorem split (h : Row t (A ++ (lo, l) :: B)) (hp : t'.params = t.params)
    (hc : ∀ a ∈ A ++ B, core (t'.nd a.2) = core (t.nd a.2)) (hl : Leaf t' l) (hq : Leaf t' q)
    (hnl : t'.next l = some q) (hnq : t'.next q = t.next l)
    (hb : Blocks (t.blocks A ++ (lo, t'.entriesOf l) :: (↑k, t'.entriesOf q) :: t.blocks B)) :
    Row t' (A ++ (lo, l) :: (↑k, q) :: B) := by
  obtain ⟨hleaf, hA, hB, hnA, hnB⟩ := h.rest (by simp) hp hc
  refine ⟨fun a ha => ?_, ?_, ?_⟩
  · rcases mem_around ha with rfl | ha
    · exact hl
    rcases mem_around ha with rfl | ha
    · exact hq
    · exact hleaf a ha
  · rw [blocks_append, blocks_cons, blocks_cons, hA, hB]
    exact hb
  · have hlink := h.linked
    rw [List.map_append, List.map_cons] at hlink ⊢
    exact hlink.insert hnA hnB hnl hnq

/-- The leaf `q` is merged into its left neighbour `l`. -/
theorem merge (h : Row t (A ++ (lo, l) :: (lo', q) :: B)) (hp : t'.params = t.params)
    (hc : ∀ a ∈ A ++ B, core (t'.nd a.2) = core (t.nd a.2)) (hl : Leaf t' l)
    (hnl : t'.next l = t.next q)
    (hb : Blocks (t.blocks A ++ (lo, t'.entriesOf l) :: t.blocks B)) :
    Row t' (A ++ (lo, l) :: B) := by
  obtain ⟨hleaf, hA, hB, hnA, hnB⟩ := h.rest (subset_around₂ _ _ _ _) hp hc
  refine ⟨fun a ha => ?_, ?_, ?_⟩
  · rcases mem_around ha with rfl | ha
    · exact hl
    · exact hleaf a ha
  · rw [blocks_append, blocks_cons, hA, hB]
    exact hb
  · have hlink := h.linked
    rw [List.map_append, List.map_cons, List.map_cons] at hlink
    rw [List.map_append, List.map_cons]
    exact hlink.remove hnA hnB hnl

/-- Entries move between the neighbours `l` and `q`, and `q` gets the bound `k`. -/
theorem shift (h : Row t (A ++ (lo, l) :: (lo', q) :: B)) (hp : t'.params = t.params)
    (hc : ∀ a ∈ A ++ B, core (t'.nd a.2) = core (t.nd a.2)) (hl : Leaf t' l) (hq : Leaf t' q)
    (hnl : t'.next l = t.next l) (hnq : t'.next q = t.next q)
    (hb : Blocks (t.blocks A ++ (lo, t'.entriesOf l) :: (↑k, t'.entriesOf q) :: t.blocks B)) :
    Row t' (A ++ (lo, l) :: (↑k, q) :: B) := by
  obtain ⟨hleaf, hA, hB, hnA, hnB⟩ := h.rest (subset_around₂ _ _ _ _) hp hc
  refine ⟨fun a ha => ?_, ?_, ?_⟩
  · rcases mem_around ha with rfl | ha
    · exact hl
    rcases mem_around ha with rfl | ha
    · exact hq
    · exact hleaf a ha
  · rw [blocks_append, blocks_cons, blocks_cons, hA, hB]
    exact hb
  · have hlink := h.linked
    rw [List.map_append, List.map_cons, List.map_cons] at hlink ⊢
    refine hlink.congr fun i hi => ?_
    rcases mem_around hi with rfl | hi
    · exact hnl
    rcases mem_around hi with rfl | hi
    · exact hnq
    rcases List.mem_append.mp hi with hi | hi
    · exact hnA i hi
    · exact hnB i hi

end Row

end MiniDB.BPlusTree
