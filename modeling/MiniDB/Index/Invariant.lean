import MiniDB.Index.Refinement

/-!
# The structure of the tree

The invariant of the B+ tree in terms of the cells that are reached from the root, one field for
each fact that a reader of `BPlusTree.h` relies on. The levels of the tree are where it is proved: a
cell is reached along `d` edges when it is in level `d`, and the bounds of the levels are the
separators.

## Main definitions

* `Below t i d j`: the cell `j` is reached from the cell `i` along `d` edges
* `leavesBelow`: the leaves below a cell, from left to right
* `Structured t r`: the invariant of the tree below the root `r`

## Main results

* `Shape.below_iff`: the cells that are reached are those of the levels
* `Shape.key_between`: the keys below a cell are between its bounds
* `calls_structured`: the tree is structured after every call of every run
-/

namespace MiniDB.BPlusTree

open Levels BlockList

/-- The cell `j` is reached from the cell `i` along `d` edges. -/
inductive Below (t : BPlusTree) (i : ℕ) : ℕ → ℕ → Prop
  | refl : Below t i 0 i
  | child {d j c : ℕ} : Below t i d j → (t.nd j).type = .internal → c ∈ (t.nd j).childIndices →
    Below t i (d + 1) c

/-- The leaves below a cell, from left to right, down to a depth less than the fuel. -/
def leavesBelow (t : BPlusTree) : ℕ → ℕ → List ℕ
  | 0, _ => []
  | fuel + 1, i =>
    match (t.nd i).type with
    | .leaf => [i]
    | .internal => (t.nd i).childIndices.flatMap (leavesBelow t fuel)

/-- The tree below the root `r`. -/
structure Structured (t : BPlusTree) (r : ℕ) : Prop where
  bound : ∀ {d i}, Below t r d i → i < t.nodes.length
  depth : ∃ H, ∀ {d i}, Below t r d i → (t.nd i).type = .leaf → d = H
  keys : ∀ {d i}, Below t r d i → (t.nd i).keys.length = (t.nd i).size
  ascending : ∀ {d i}, Below t r d i → (t.nd i).keys.Pairwise (· < ·)
  values : ∀ {d i}, Below t r d i → (t.nd i).type = .leaf → (t.nd i).values.length = (t.nd i).size
  children : ∀ {d i}, Below t r d i → (t.nd i).type = .internal →
    (t.nd i).childIndices.length = (t.nd i).size + 1
  parent : ∀ {d i c}, Below t r d i → (t.nd i).type = .internal → c ∈ (t.nd i).childIndices →
    (t.nd c).parentIdx = some i
  root : ∀ {d i}, Below t r d i → ((t.nd i).isRoot = true ↔ i = r)
  most : ∀ {d i}, Below t r d i → (t.nd i).size ≤ t.order - 1
  least : ∀ {d i}, Below t r d i → (t.nd i).type = .leaf → i ≠ r → t.minLeafKeys ≤ (t.nd i).size
  lower : ∀ {d i}, Below t r d i → (t.nd i).type = .internal → ∀ {n : ℕ} {k : ℤ} {c : ℕ},
    (t.nd i).keys[n]? = some k → (t.nd i).childIndices[n + 1]? = some c →
      ∀ {e j}, Below t c e j → ∀ x ∈ (t.nd j).keys, k ≤ x
  upper : ∀ {d i}, Below t r d i → (t.nd i).type = .internal → ∀ {n : ℕ} {k : ℤ} {c : ℕ},
    (t.nd i).keys[n]? = some k → (t.nd i).childIndices[n]? = some c →
      ∀ {e j}, Below t c e j → ∀ x ∈ (t.nd j).keys, x < k
  leaves : ∀ i, i ∈ t.leavesBelow t.nodes.length r ↔ (∃ d, Below t r d i) ∧ (t.nd i).type = .leaf
  nodup : (t.leavesBelow t.nodes.length r).Nodup
  chain : Linked t.next (t.leavesBelow t.nodes.length r) none

variable {t : BPlusTree} {r H d e n i j c : ℕ} {A B : List (WithBot ℤ × ℕ)} {s lo : WithBot ℤ}

/-! ## Cells and levels -/

namespace Shape

/-- A cell of a level is an internal node, or a leaf of the last level. -/
theorem node_cases (h : Shape t r H) (hd : d ≤ H) (hmem : (lo, i) ∈ lvl t r d) :
    (d < H ∧ Internal t i) ∨ (d = H ∧ Leaf t i) := by
  rcases Nat.lt_or_eq_of_le hd with hlt | rfl
  · exact Or.inl ⟨hlt, h.spine.internal i ⟨d, hlt, _, hmem, rfl⟩⟩
  · exact Or.inr ⟨rfl, h.row.leaf _ hmem⟩

theorem internal_of_type (h : Shape t r H) (hd : d ≤ H) (hmem : (lo, i) ∈ lvl t r d)
    (htype : (t.nd i).type = .internal) : d < H ∧ Internal t i := by
  rcases h.node_cases hd hmem with hint | ⟨-, hleaf⟩
  · exact hint
  · rw [hleaf.type] at htype
    cases htype

theorem leaf_of_type (h : Shape t r H) (hd : d ≤ H) (hmem : (lo, i) ∈ lvl t r d)
    (htype : (t.nd i).type = .leaf) : d = H ∧ Leaf t i := by
  rcases h.node_cases hd hmem with ⟨-, hint⟩ | hleaf
  · rw [hint.type] at htype
    cases htype
  · exact hleaf

/-- The cells that are reached from the root are those of the levels. -/
theorem below_iff (h : Shape t r H) : Below t r d i ↔ d ≤ H ∧ ∃ lo, (lo, i) ∈ lvl t r d := by
  constructor
  · intro hb
    induction hb with
    | refl => exact ⟨Nat.zero_le _, ⊥, List.mem_singleton_self _⟩
    | @child d j c _ htype hc ih =>
      obtain ⟨hd, lo, hmem⟩ := ih
      obtain ⟨hlt, hint⟩ := h.internal_of_type hd hmem htype
      have hsnd : c ∈ (expand t.ks t.cs (lo, j)).map Prod.snd := by
        rw [expand_snd hint.children]
        exact hc
      obtain ⟨⟨lo', _⟩, hc', rfl⟩ := List.mem_map.mp hsnd
      exact ⟨hlt, lo', List.mem_flatMap.mpr ⟨_, hmem, hc'⟩⟩
  · induction d generalizing i with
    | zero =>
      rintro ⟨-, lo, hmem⟩
      obtain rfl := (Prod.mk.inj (List.mem_singleton.mp hmem)).2
      exact .refl
    | succ d ih =>
      rintro ⟨hd, lo, hmem⟩
      obtain ⟨⟨lo', j⟩, hj, hi⟩ := List.mem_flatMap.mp hmem
      have hint := h.spine.internal j ⟨d, hd, _, hj, rfl⟩
      refine .child (ih ⟨Nat.le_of_succ_le hd, lo', hj⟩) hint.type ?_
      show i ∈ t.cs j
      rw [← expand_snd (a := (lo', j)) hint.children]
      exact List.mem_map_of_mem hi

/-- The leaves from left to right are the last level. -/
theorem leavesBelow_level (h : Shape t r H) (n : ℕ) : ∀ d fuel, d + n = H → n < fuel →
    (lvl t r d).flatMap (fun a => t.leavesBelow fuel a.2) = (lvl t r H).map Prod.snd := by
  -- The induction is on the number of levels beneath the cells.
  induction n with
  | zero =>
    rintro d (_ | fuel) hd hfuel
    · exact absurd hfuel (Nat.lt_irrefl 0)
    · obtain rfl : d = H := hd
      rw [List.map_eq_flatMap]
      refine List.flatMap_congr fun a ha => ?_
      rw [leavesBelow, (h.row.leaf a ha).type]
  | succ n ih =>
    rintro d (_ | fuel) hd hfuel
    · exact absurd hfuel (Nat.not_lt_zero _)
    · rw [← ih (d + 1) fuel (by omega) (by omega), lvl_succ, List.flatMap_assoc]
      refine List.flatMap_congr fun a ha => ?_
      have hint := h.spine.internal a.2 ⟨d, by omega, a, ha, rfl⟩
      have hsnd : (t.nd a.2).childIndices = (expand t.ks t.cs a).map Prod.snd :=
        (expand_snd hint.children).symm
      rw [leavesBelow, hint.type, hsnd, List.flatMap_map]

theorem leavesBelow_eq (h : Shape t r H) :
    t.leavesBelow t.nodes.length r = (lvl t r H).map Prod.snd := by
  have hlevel := h.leavesBelow_level H 0 t.nodes.length (Nat.zero_add H) h.spine.depth_lt
  rwa [lvl_zero, List.flatMap_singleton] at hlevel

/-! ## Separators -/

/-- The bounds of a cell and its separators ascend, below the bounds of what comes after them. -/
theorem ascending_at (h : Shape t r H) (hd : d < H) (hlvl : lvl t r d = A ++ (s, i) :: B) :
    (s :: (t.ks i).map WithBot.some).Pairwise (· < ·) ∧
      ∀ x ∈ s :: (t.ks i).map WithBot.some, ∀ k ∈ B.map Prod.fst, x < k := by
  have hint : ∀ a ∈ A ++ (s, i) :: B, Internal t a.2 := fun a ha =>
    h.spine.internal a.2 ⟨d, hd, a, hlvl ▸ ha, rfl⟩
  have hasc := h.spine.ascending h.ascending _ hd
  rw [lvl_succ, hlvl, List.flatMap_append, List.flatMap_cons, ascending_iff_map, List.map_append,
    List.map_append, expand_fst (hint (s, i) (by simp)).children] at hasc
  obtain ⟨hown, -, hafter⟩ := List.pairwise_append.mp (List.pairwise_append.mp hasc).2.1
  refine ⟨hown, fun x hx k hk => hafter x hx k ?_⟩
  exact (map_fst_sublist_flatMap fun a ha => (hint a (by simp [ha])).children).subset hk

/-- What is reached from a cell of a level has a bound at least that of the cell, and the cells
after it have all bounds of the cells after that cell. -/
theorem below_at (h : Shape t r H) (hd : d ≤ H) (hlvl : lvl t r d = A ++ (s, c) :: B)
    (hb : Below t c e j) : d + e ≤ H ∧ ∃ A' b B', lvl t r (d + e) = A' ++ (b, j) :: B' ∧ s ≤ b ∧
      B.map Prod.fst ⊆ B'.map Prod.fst := by
  induction hb with
  | refl => exact ⟨hd, A, s, B, hlvl, le_refl s, List.Subset.refl _⟩
  | @child e j c' _ htype hc ih =>
    obtain ⟨he, A', b, B', hlvl', hs, hsub⟩ := ih
    have hmem : (b, j) ∈ lvl t r (d + e) := by rw [hlvl']; simp
    obtain ⟨hlt, hint⟩ := h.internal_of_type he hmem htype
    have hsnd : c' ∈ (expand t.ks t.cs (b, j)).map Prod.snd := by
      rw [expand_snd hint.children]
      exact hc
    obtain ⟨⟨b', _⟩, hc', rfl⟩ := List.mem_map.mp hsnd
    obtain ⟨C₁, C₂, hx⟩ := List.append_of_mem hc'
    have hnext : lvl t r (d + (e + 1)) = A'.flatMap (expand t.ks t.cs) ++
        (expand t.ks t.cs (b, j) ++ B'.flatMap (expand t.ks t.cs)) := by
      rw [← Nat.add_assoc, lvl_succ, hlvl', List.flatMap_append, List.flatMap_cons]
    have hasc : Ascending (expand t.ks t.cs (b, j)) := by
      rw [ascending_iff_map, expand_fst hint.children]
      exact (h.ascending_at hlt hlvl').1
    refine ⟨hlt, A'.flatMap (expand t.ks t.cs) ++ C₁, b', C₂ ++ B'.flatMap (expand t.ks t.cs), ?_,
      hs.trans (le_of_mem_expand hint hasc hc'), ?_⟩
    · rw [hnext, hx]
      simp
    · have hrest : B'.map Prod.fst ⊆ (B'.flatMap (expand t.ks t.cs)).map Prod.fst := by
        refine (map_fst_sublist_flatMap fun a ha => ?_).subset
        refine (h.spine.internal a.2 ⟨d + e, hlt, a, ?_, rfl⟩).children
        rw [hlvl']
        simp [ha]
      rw [List.map_append]
      exact List.Subset.trans hsub (List.Subset.trans hrest (List.subset_append_right _ _))

/-- The keys below a cell are at least its bound, and less than the bounds of the cells after it. -/
theorem key_between (h : Shape t r H) (hd : d ≤ H) (hlvl : lvl t r d = A ++ (s, c) :: B)
    (hb : Below t c e j) : ∀ x ∈ (t.nd j).keys, s ≤ x ∧ ∀ k ∈ B.map Prod.fst, (x : WithBot ℤ) < k := by
  intro x hx
  obtain ⟨he, A', b, B', hlvl', hs, hsub⟩ := h.below_at hd hlvl hb
  have hmem : (b, j) ∈ lvl t r (d + e) := by rw [hlvl']; simp
  rcases h.node_cases he hmem with ⟨hlt, -⟩ | ⟨hH, hleaf⟩
  · obtain ⟨hown, hafter⟩ := h.ascending_at hlt hlvl'
    have hx' : (x : WithBot ℤ) ∈ (t.ks j).map WithBot.some := List.mem_map_of_mem hx
    constructor
    · exact hs.trans ((List.pairwise_cons.mp hown).1 _ hx').le
    · exact fun k hk => hafter _ (List.mem_cons_of_mem _ hx') k (hsub hk)
  · rw [hH] at hlvl'
    obtain ⟨-, -, hlower, -, hupper⟩ := blocks_middle.mp (h.blocks_at hlvl')
    rw [hleaf.keys_eq] at hx
    obtain ⟨entry, hentry, rfl⟩ := List.mem_map.mp hx
    constructor
    · exact hs.trans (hlower entry hentry)
    · intro k hk
      obtain ⟨b', hb', rfl⟩ := List.mem_map.mp (hsub hk)
      exact (hupper (b'.1, t.entriesOf b'.2) (List.mem_map_of_mem hb')).2 entry hentry

end Shape

/-- A child at a position, in the level of the children: the separator before it is its bound, and
the one after it is the bound of a later child. -/
theorem Internal.child_at (hint : Internal t i) (hmem : (lo, i) ∈ lvl t r d)
    (hc : (t.nd i).childIndices[n]? = some c) :
    ∃ (A : List (WithBot ℤ × ℕ)) (s : WithBot ℤ) (B : List (WithBot ℤ × ℕ)),
      lvl t r (d + 1) = A ++ (s, c) :: B ∧
      (∀ (m : ℕ) (k : ℤ), n = m + 1 → (t.nd i).keys[m]? = some k → s = k) ∧
      ∀ k : ℤ, (t.nd i).keys[n]? = some k → (k : WithBot ℤ) ∈ B.map Prod.fst := by
  obtain ⟨PA, PB, hlvl⟩ := List.append_of_mem hmem
  have hsnd : (expand t.ks t.cs (lo, i)).map Prod.snd = (t.nd i).childIndices :=
    expand_snd hint.children
  rw [← hsnd, List.getElem?_map] at hc
  obtain ⟨⟨s, c'⟩, hget, rfl⟩ := Option.map_eq_some_iff.mp hc
  obtain ⟨hn, hget'⟩ := List.getElem?_eq_some_iff.mp hget
  have hx : expand t.ks t.cs (lo, i) =
      (expand t.ks t.cs (lo, i)).take n ++ (s, c') :: (expand t.ks t.cs (lo, i)).drop (n + 1) := by
    rw [← hget', List.getElem_cons_drop, List.take_append_drop]
  have hfst := expand_fst (a := (lo, i)) hint.children
  refine ⟨PA.flatMap (expand t.ks t.cs) ++ (expand t.ks t.cs (lo, i)).take n, s,
    (expand t.ks t.cs (lo, i)).drop (n + 1) ++ PB.flatMap (expand t.ks t.cs), ?_, ?_, ?_⟩
  · rw [lvl_succ, hlvl, List.flatMap_append, List.flatMap_cons, List.append_assoc]
    congr 1
    nth_rewrite 1 [hx]
    simp
  · rintro m k rfl hk
    have hs : ((expand t.ks t.cs (lo, i)).map Prod.fst)[m + 1]? = some s := by
      rw [List.getElem?_map, hget]
      rfl
    rw [hfst, List.getElem?_cons_succ, List.getElem?_map, ks, hk] at hs
    exact (Option.some.inj hs).symm
  · intro k hk
    have hs : ((expand t.ks t.cs (lo, i)).map Prod.fst)[n + 1]? = some ↑k := by
      rw [hfst, List.getElem?_cons_succ, List.getElem?_map, ks, hk]
      rfl
    rw [List.map_append, List.map_drop]
    refine List.mem_append_left _ (List.mem_of_getElem? (i := 0) ?_)
    rw [List.getElem?_drop]
    exact hs

/-! ## The invariant -/

/-- Every well-formed tree is structured. -/
theorem WF.structured (h : WF t r H) : Structured t r where
  -- A node below the root is a cell of one of the levels; every field is read off there.
  bound hb := by
    obtain ⟨hd, lo, hmem⟩ := h.below_iff.mp hb
    exact h.spine.bound _ hd _ hmem
  depth := by
    refine ⟨H, fun hb htype => ?_⟩
    obtain ⟨hd, lo, hmem⟩ := h.below_iff.mp hb
    exact (h.leaf_of_type hd hmem htype).1
  keys hb := by
    obtain ⟨hd, lo, hmem⟩ := h.below_iff.mp hb
    rcases h.node_cases hd hmem with ⟨-, hint⟩ | ⟨-, hleaf⟩
    · exact hint.size.symm
    · exact hleaf.size.symm
  ascending hb := by
    obtain ⟨hd, lo, hmem⟩ := h.below_iff.mp hb
    rcases h.node_cases hd hmem with ⟨hlt, -⟩ | ⟨rfl, hleaf⟩
    · obtain ⟨PA, PB, hlvl⟩ := List.append_of_mem hmem
      have hown := (List.pairwise_cons.mp (h.ascending_at hlt hlvl).1).2
      exact (List.pairwise_map.mp hown).imp WithBot.coe_lt_coe.mp
    · rw [hleaf.keys_eq]
      exact h.row.blocks.sorted (lo, t.entriesOf _) (List.mem_map_of_mem hmem)
  values hb htype := by
    obtain ⟨hd, lo, hmem⟩ := h.below_iff.mp hb
    obtain ⟨-, hleaf⟩ := h.leaf_of_type hd hmem htype
    rw [hleaf.values, hleaf.size]
  children hb htype := by
    obtain ⟨hd, lo, hmem⟩ := h.below_iff.mp hb
    obtain ⟨-, hint⟩ := h.internal_of_type hd hmem htype
    rw [hint.size]
    exact hint.children
  parent hb htype hc := by
    obtain ⟨hd, lo, hmem⟩ := h.below_iff.mp hb
    obtain ⟨hlt, -⟩ := h.internal_of_type hd hmem htype
    exact (h.spine.parent _ ⟨_, hlt, _, hmem, rfl⟩ _ hc).1
  root hb := by
    cases hb with
    | refl => exact iff_of_true h.spine.root rfl
    | child hb htype hc =>
      obtain ⟨hd, lo, hmem⟩ := h.below_iff.mp hb
      obtain ⟨hlt, -⟩ := h.internal_of_type hd hmem htype
      have hnot := (h.spine.parent _ ⟨_, hlt, _, hmem, rfl⟩ _ hc).2
      refine iff_of_false (by rw [hnot]; exact Bool.false_ne_true) ?_
      rintro rfl
      rw [h.spine.root] at hnot
      cases hnot
  most hb := by
    obtain ⟨hd, lo, hmem⟩ := h.below_iff.mp hb
    rcases h.node_cases hd hmem with ⟨-, hint⟩ | ⟨-, hleaf⟩
    · rw [hint.size, ← h.bounds.maxInternalKeys]
      exact hint.size_le
    · rw [hleaf.size, ← h.bounds.maxLeafKeys]
      exact hleaf.size_le
  least hb htype hne := by
    obtain ⟨hd, lo, hmem⟩ := h.below_iff.mp hb
    obtain ⟨rfl, hleaf⟩ := h.leaf_of_type hd hmem htype
    have hfill := h.filled (lo, t.entriesOf _) (List.mem_map_of_mem hmem)
    rw [fill, if_neg] at hfill
    · rw [hleaf.size_eq]
      exact hfill
    · rintro rfl
      exact hne (Prod.mk.inj (List.mem_singleton.mp hmem)).2
  lower hb htype := by
    intro n k c hk hc e j hbelow x hx
    obtain ⟨hd, lo, hmem⟩ := h.below_iff.mp hb
    obtain ⟨hlt, hint⟩ := h.internal_of_type hd hmem htype
    obtain ⟨A, s, B, hlvl, hs, -⟩ := hint.child_at hmem hc
    have hle := (h.key_between hlt hlvl hbelow x hx).1
    rw [hs n k rfl hk] at hle
    exact WithBot.coe_le_coe.mp hle
  upper hb htype := by
    intro n k c hk hc e j hbelow x hx
    obtain ⟨hd, lo, hmem⟩ := h.below_iff.mp hb
    obtain ⟨hlt, hint⟩ := h.internal_of_type hd hmem htype
    obtain ⟨A, s, B, hlvl, -, hB⟩ := hint.child_at hmem hc
    exact WithBot.coe_lt_coe.mp ((h.key_between hlt hlvl hbelow x hx).2 k (hB k hk))
  leaves i := by
    rw [h.leavesBelow_eq]
    constructor
    · intro hi
      obtain ⟨⟨lo, _⟩, hmem, rfl⟩ := List.mem_map.mp hi
      exact ⟨⟨H, h.below_iff.mpr ⟨le_refl H, lo, hmem⟩⟩, (h.row.leaf _ hmem).type⟩
    · rintro ⟨⟨d, hb⟩, htype⟩
      obtain ⟨hd, lo, hmem⟩ := h.below_iff.mp hb
      obtain ⟨rfl, -⟩ := h.leaf_of_type hd hmem htype
      exact List.mem_map_of_mem hmem
  nodup := by
    rw [h.leavesBelow_eq]
    exact h.spine.nodup H (le_refl H)
  chain := by
    rw [h.leavesBelow_eq]
    exact h.row.linked

/-- Every tree that holds a map is structured. -/
theorem Models.structured {m : Finmap fun _ : ℤ => RID} (h : Models t m) (hr : t.rootIdx = some r) :
    Structured t r := by
  obtain ⟨-, ⟨hroot, -⟩ | ⟨r', H, hwf, -⟩⟩ := h
  · rw [hroot] at hr
    cases hr
  · obtain rfl := Option.some.inj (hwf.rootIdx.symm.trans hr)
    exact hwf.structured

/-- Every call refines the map's operation, and keeps the order of the tree. -/
theorem call_keeps_order (order : ℕ) : Machine.Refines (fun _ _ => True) call mapCall
    (fun t m => Models t m ∧ t.order = order) (· = ·) (· = Fault.child) := by
  rintro t m c ⟨h, rfl⟩ -
  cases c with
  | insert key value =>
    obtain ⟨t', ht', hm', horder⟩ := h.insert_spec key value
    exact Or.inr ⟨t', _, ht', ⟨hm', horder⟩, rfl⟩
  | remove key =>
    obtain ⟨hfault, hok⟩ := h.remove_spec key
    cases hs : t.soleChildUnderflow key with
    | true => exact Or.inl ⟨.child, rfl, hfault hs⟩
    | false =>
      obtain ⟨t', ht', hm', horder⟩ := hok hs
      exact Or.inr ⟨t', _, ht', ⟨hm', horder⟩, rfl⟩

/-- After every call of every run from the empty tree that reads no child list out of range, the
tree is structured. -/
theorem calls_structured {order : ℕ} (horder : 3 ≤ order) (cs : List Call)
    (hchild : calls (new order) cs ≠ .error .child) : ∀ cs₁, cs₁ <+: cs →
    ∃ t outs, calls (new order) cs₁ = .ok (t, outs) ∧ t.order = order ∧
      t.minLeafKeys = (new order).minLeafKeys ∧ ∀ r, t.rootIdx = some r → Structured t r := by
  rintro cs₁ ⟨cs₂, rfl⟩
  rcases Machine.run_refines (call_keeps_order order) cs₁ (new order) ∅ ⟨models_new horder, rfl⟩
    (Machine.along_true _ _ _) with ⟨e, rfl, he⟩ | ⟨t, outs, hrun, ⟨hm, rfl⟩, -⟩
  · exact absurd (Machine.run_append_error he cs₂) hchild
  · refine ⟨t, outs, hrun, rfl, ?_, fun r hr => hm.structured hr⟩
    rw [hm.1.minLeafKeys]
    show t.order / 2 = (t.order - 1 + 1) / 2
    congr 1
    have hle := hm.1.order
    omega

/-- Three keys in order three: the root has two leaves. -/
theorem calls_structured_order_three : ∃ t outs,
    calls (new 3) [.insert 1 ⟨0, 0⟩, .insert 2 ⟨0, 1⟩, .insert 3 ⟨0, 2⟩] = .ok (t, outs) ∧
      t.rootIdx = some 2 ∧ Structured t 2 := by
  obtain ⟨t, outs, hrun, -, -, h⟩ := calls_structured (le_refl 3)
    [.insert 1 ⟨0, 0⟩, .insert 2 ⟨0, 1⟩, .insert 3 ⟨0, 2⟩] (by decide +kernel) _ (List.prefix_refl _)
  have hroot : ((calls (new 3) [.insert 1 ⟨0, 0⟩, .insert 2 ⟨0, 1⟩, .insert 3 ⟨0, 2⟩]).map
      fun r => r.1.rootIdx).toOption = some (some 2) := by decide +kernel
  rw [hrun] at hroot
  exact ⟨t, outs, hrun, Option.some.inj hroot, h 2 (Option.some.inj hroot)⟩

end MiniDB.BPlusTree
