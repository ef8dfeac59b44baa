import MiniDB.Index.BPlusTree
import MiniDB.Foundations.Levels

/-!
# The cells of the B+ tree

The node vector read as a function from indices to nodes, and what each primitive of the model
does to it: `setNode` and `modify` change one cell, `allocateNode` adds one, `adopt` changes the
parent links of a list of cells. Every later proof reads the tree through `nd`.

## Main definitions

* `nd t i`: the cell `i`
* `core n`: a node without its links upward
* `lvl t r d`: the cells at depth `d` below `r`

## Main results

* `modify_eq`: a change through a reference, once the cell is in range
* `nd_setNode_eq`, `nd_allocateNode_eq`, `adopt_spec`: the cells after each primitive
* `lowerBound_eq`: the position `std::lower_bound` returns
-/

namespace MiniDB.BPlusTree

open Levels

/-- The cell `i`, and an arbitrary node out of range. -/
def nd (t : BPlusTree) (i : ℕ) : BPlusNode := t.nodes[i]?.getD default

/-- A node without its links upward: all that a change of its ancestors leaves alone. -/
def core (n : BPlusNode) : BPlusNode := { n with parentIdx := none, isRoot := false }

/-- The separators of the cell `i`. -/
def ks (t : BPlusTree) (i : ℕ) : List ℤ := (t.nd i).keys

/-- The children of the cell `i`. -/
def cs (t : BPlusTree) (i : ℕ) : List ℕ := (t.nd i).childIndices

/-- The cells at depth `d` below `r`, each with its lower bound. -/
def lvl (t : BPlusTree) (r d : ℕ) : List (WithBot ℤ × ℕ) := level t.ks t.cs r d

variable {t : BPlusTree} {i j : ℕ} {n : BPlusNode}

theorem core_eq_iff {n m : BPlusNode} :
    core n = core m ↔ n.type = m.type ∧ n.pageId = m.pageId ∧ n.size = m.size ∧ n.keys = m.keys ∧
      n.values = m.values ∧ n.childIndices = m.childIndices ∧ n.nextLeafIdx = m.nextLeafIdx := by
  simp [core]

theorem node_eq (h : i < t.nodes.length) : t.node i = .ok (t.nd i) := by
  simp [node, Vec.get, nd, h]

theorem modify_eq (h : i < t.nodes.length) (f : BPlusNode → Except Fault BPlusNode) :
    t.modify i f = (f (t.nd i)).map (t.setNode i) := by
  simp only [modify, node_eq h, Machine.ok_bind]
  cases f (t.nd i) <;> rfl

theorem modify_ok (h : i < t.nodes.length) {f : BPlusNode → Except Fault BPlusNode}
    (hf : f (t.nd i) = .ok n) : t.modify i f = .ok (t.setNode i n) := by
  rw [modify_eq h, hf]; rfl

@[simp] theorem length_setNode : (t.setNode i n).nodes.length = t.nodes.length := by
  simp [setNode]

@[simp] theorem rootIdx_setNode : (t.setNode i n).rootIdx = t.rootIdx := rfl

theorem nd_setNode (h : i < t.nodes.length) :
    (t.setNode i n).nd j = if j = i then n else t.nd j := by
  by_cases hj : j = i
  · subst hj; simp [nd, setNode, h]
  · simp [nd, setNode, hj, List.getElem?_set_ne (Ne.symm hj)]

@[simp] theorem length_allocateNode (type : BNodeType) :
    (t.allocateNode type).1.nodes.length = t.nodes.length + 1 := by
  simp [allocateNode]

@[simp] theorem allocateNode_snd (type : BNodeType) :
    (t.allocateNode type).2 = t.nodes.length := rfl

theorem nd_allocateNode (type : BNodeType) (h : j ≤ t.nodes.length) :
    (t.allocateNode type).1.nd j =
      if j = t.nodes.length then { type := type, pageId := t.nodes.length } else t.nd j := by
  simp only [nd, allocateNode]
  split_ifs with hj
  · simp [hj]
  · rw [List.getElem?_append_left (by omega)]

/-- The cells after a write, all at once. -/
theorem nd_setNode_eq (h : i < t.nodes.length) : (t.setNode i n).nd = Function.update t.nd i n := by
  funext j
  rw [nd_setNode h, Function.update_apply]

/-- The cells after an allocation, all at once. -/
theorem nd_allocateNode_eq (type : BNodeType) : (t.allocateNode type).1.nd =
    Function.update t.nd t.nodes.length { type := type, pageId := t.nodes.length } := by
  funext j
  rw [Function.update_apply]
  by_cases hj : j ≤ t.nodes.length
  · exact nd_allocateNode type hj
  · rw [if_neg (by omega), nd, nd, List.getElem?_eq_none, List.getElem?_eq_none (by omega)]
    simp only [allocateNode, List.length_append, List.length_singleton]
    omega

/-- The bounds of the tree and its counters: what no change of a cell touches. -/
def params (t : BPlusTree) : BPlusTree := { t with nodes := [], rootIdx := none }

@[simp] theorem params_setNode : (t.setNode i n).params = t.params := rfl

@[simp] theorem params_allocateNode (type : BNodeType) :
    (t.allocateNode type).1.params = t.params := rfl

@[simp] theorem rootIdx_allocateNode (type : BNodeType) :
    (t.allocateNode type).1.rootIdx = t.rootIdx := rfl

theorem params_eq_iff {t t' : BPlusTree} :
    t'.params = t.params ↔ t'.order = t.order ∧ t'.maxLeafKeys = t.maxLeafKeys ∧
      t'.minLeafKeys = t.minLeafKeys ∧ t'.maxInternalKeys = t.maxInternalKeys ∧
      t'.minInternalKeys = t.minInternalKeys ∧ t'.entryCount = t.entryCount := by
  simp [params]

/-- `adopt` changes the parent link of its children, and nothing else. -/
theorem adopt_spec (p : ℕ) : ∀ (children : List ℕ) (t : BPlusTree),
    (∀ c ∈ children, c < t.nodes.length) →
      ∃ t', t.adopt children p = .ok t' ∧ t'.nodes.length = t.nodes.length ∧
        t'.params = t.params ∧ t'.rootIdx = t.rootIdx ∧
        ∀ j, t'.nd j = if j ∈ children then { t.nd j with parentIdx := some p } else t.nd j := by
  intro children
  induction children with
  | nil => exact fun t _ => ⟨t, rfl, rfl, rfl, rfl, by simp⟩
  | cons c children ih =>
    intro t h
    have hc : c < t.nodes.length := h c List.mem_cons_self
    obtain ⟨t', ht', hlen, hpar, hroot, hnd⟩ :=
      ih (t.setNode c { t.nd c with parentIdx := some p }) fun x hx => by
        simpa using h x (List.mem_cons_of_mem _ hx)
    refine ⟨t', ?_, by simpa using hlen, hpar, hroot, fun j => ?_⟩
    · simp only [adopt, List.foldlM_cons, modify_eq hc]
      exact ht'
    · rw [hnd j, nd_setNode hc]
      by_cases hj : j = c
      · subst hj; simp
      · simp [hj]

/-- The position `std::lower_bound` returns between the keys below `key` and those above it. -/
theorem lowerBound_eq {K₁ K₂ : List ℤ} {key : ℤ} (h₁ : ∀ k ∈ K₁, k < key)
    (h₂ : ∀ k ∈ K₂, key < k) : lowerBound (K₁ ++ K₂) key = K₁.length := by
  induction K₁ with
  | nil =>
    cases K₂ with
    | nil => rfl
    | cons k K₂ => simp [lowerBound, List.findIdx_cons, (h₂ k List.mem_cons_self).le]
  | cons k K₁ ih =>
    have hk : ¬ key ≤ k := not_le.mpr (h₁ k List.mem_cons_self)
    have := ih fun x hx => h₁ x (List.mem_cons_of_mem _ hx)
    simp only [lowerBound] at this
    simp [lowerBound, List.findIdx_cons, hk, this]

/-- The position `std::find` returns for an element that does not occur before it. -/
theorem idxOf?_append_cons {α : Type} [DecidableEq α] {A : List α} {x : α} (B : List α)
    (h : x ∉ A) : (A ++ x :: B).idxOf? x = some A.length := by
  induction A with
  | nil => simp [List.idxOf?_cons]
  | cons a A ih =>
    rw [List.mem_cons, not_or] at h
    rw [List.cons_append, List.idxOf?_cons, if_neg (by simpa using Ne.symm h.1), ih h.2]
    rfl

/-- A vector insertion at the end of a known initial part. -/
theorem insertIdx_append {α : Type} (A B : List α) (x : α) :
    (A ++ B).insertIdx A.length x = A ++ x :: B := by
  induction A with
  | nil => rfl
  | cons a A ih => simp [ih]

end MiniDB.BPlusTree
