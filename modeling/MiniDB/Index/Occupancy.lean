import MiniDB.Index.Invariant

/-!
# The keys of the internal nodes

`handleUnderflow` repairs leaves only: when a merge leaves their parent with too few keys, it is
called on the parent, finds that it is no leaf and returns. So the least number of keys of an
internal node is kept by every call but one that merges two leaves below a parent that has no key to
lose. The argument does not need the shape of the tree for an insertion: it follows the sizes of all
cells, also of those that are no longer reached.

## Main definitions

* `Sized`, `Sizes`: the sizes of a cell, and of all cells of a tree
* `starves t key`: removing `key` merges two leaves below a parent that has no key to lose
* `Siblings`, `Lends`: a leaf among the children of its parent, and an entry it gets from one of them
* `Occupied t`: the internal nodes that are reached have their least number of keys

## Main results

* `Sizes.insert`: an insertion keeps the sizes
* `Sizes.remove`: so does a removal that does not starve a node
* `calls_occupied`: the nodes are occupied in every run without such a removal
-/

namespace MiniDB.BPlusTree

open Levels

variable {t t' : BPlusTree} {m M i j l : ℕ} {n n' : BPlusNode} {key : ℤ} {value : RID}

/-! ## Cells -/

/-- What a change through a reference does. -/
theorem modify_inv {f : BPlusNode → Except Fault BPlusNode} (h : t.modify i f = .ok t') :
    i < t.nodes.length ∧ ∃ n, f (t.nd i) = .ok n ∧ t' = t.setNode i n := by
  by_cases hi : i < t.nodes.length
  · rw [modify_eq hi] at h
    obtain ⟨n, hn, rfl⟩ := Machine.map_eq_ok.mp h
    exact ⟨hi, n, hn, rfl⟩
  · have hnode : t.node i = .error .access := Vec.get_of_length_le (Nat.not_lt.mp hi)
    rw [modify, hnode] at h
    cases h

theorem node_inv (h : t.node i = .ok n) : i < t.nodes.length ∧ n = t.nd i := by
  by_cases hi : i < t.nodes.length
  · rw [node_eq hi] at h
    exact ⟨hi, (Except.ok.inj h).symm⟩
  · have hnode : t.node i = .error .access := Vec.get_of_length_le (Nat.not_lt.mp hi)
    rw [hnode] at h
    cases h

/-- The size of a node is the number of its keys, and an internal node that is not the root has at
least `m` of them. -/
def Sized (m : ℕ) (n : BPlusNode) : Prop :=
  n.keys.length = n.size ∧ (n.type = .internal → n.isRoot = false → m ≤ n.size)

/-- All cells have such sizes, in a tree with room for `M` keys in an internal node; the two halves
of an overfull one have `m` keys each. -/
structure Sizes (m M : ℕ) (t : BPlusTree) : Prop where
  least : t.minInternalKeys = m
  most : t.maxInternalKeys = M
  half : m + (M + 1) / 2 ≤ M
  cells : ∀ i < t.nodes.length, Sized m (t.nd i)

/-- A change of one cell. -/
theorem Sizes.setNode (h : Sizes m M t) (hi : i < t.nodes.length) (hn : Sized m n) :
    Sizes m M (t.setNode i n) where
  least := h.least
  most := h.most
  half := h.half
  cells j hj := by
    rw [length_setNode] at hj
    rw [nd_setNode hi]
    split
    · exact hn
    · exact h.cells j hj

theorem Sizes.modify {f : BPlusNode → Except Fault BPlusNode} (h : Sizes m M t)
    (hrun : t.modify i f = .ok t') (hf : ∀ n, Sized m (t.nd i) → f (t.nd i) = .ok n → Sized m n) :
    Sizes m M t' := by
  obtain ⟨hi, n, hn, rfl⟩ := modify_inv hrun
  exact h.setNode hi (hf n (h.cells i hi) hn)

/-- A change of other fields keeps all sizes. -/
theorem Sizes.keep {f : BPlusNode → BPlusNode} (h : Sizes m M t)
    (hrun : t.modify i (fun n => return f n) = .ok t') (hkeys : (f (t.nd i)).keys = (t.nd i).keys)
    (hsize : (f (t.nd i)).size = (t.nd i).size) (htype : (f (t.nd i)).type = (t.nd i).type)
    (hroot : (f (t.nd i)).isRoot = (t.nd i).isRoot) :
    Sizes m M t' ∧ ∀ j, (t'.nd j).size = (t.nd j).size ∧ (t'.nd j).type = (t.nd j).type := by
  obtain ⟨hi, n, hn, rfl⟩ := modify_inv hrun
  obtain rfl := Except.ok.inj hn
  refine ⟨h.setNode hi ?_, fun j => ?_⟩
  · obtain ⟨hlen, hleast⟩ := h.cells i hi
    rw [Sized, hkeys, hsize, htype, hroot]
    exact ⟨hlen, hleast⟩
  · rw [nd_setNode hi]
    split
    case isTrue hj => subst hj; exact ⟨hsize, htype⟩
    case isFalse => exact ⟨rfl, rfl⟩

/-- A new cell, written at once. -/
theorem Sizes.allocate (h : Sizes m M t) {type : BNodeType} {f : BPlusNode → Except Fault BPlusNode}
    (hrun : (t.allocateNode type).1.modify t.nodes.length f = .ok t')
    (hf : ∀ n, f { type := type, pageId := t.nodes.length } = .ok n → Sized m n) :
    Sizes m M t' ∧ t'.nodes.length = t.nodes.length + 1 ∧ ∀ j < t.nodes.length, t'.nd j = t.nd j := by
  obtain ⟨hi, n, hn, rfl⟩ := modify_inv hrun
  rw [nd_allocateNode_eq, Function.update_self] at hn
  have hnd : ∀ j < t.nodes.length, ((t.allocateNode type).1.setNode t.nodes.length n).nd j = t.nd j := by
    intro j hj
    rw [nd_setNode hi, if_neg (Nat.ne_of_lt hj), nd_allocateNode_eq,
      Function.update_of_ne (Nat.ne_of_lt hj)]
  refine ⟨⟨h.least, h.most, h.half, fun j hj => ?_⟩, ?_, hnd⟩
  · rw [length_setNode, length_allocateNode] at hj
    rcases Nat.lt_succ_iff_lt_or_eq.mp hj with hj | rfl
    · rw [hnd j hj]
      exact h.cells j hj
    · rw [nd_setNode hi, if_pos rfl]
      exact hf n hn
  · rw [length_setNode, length_allocateNode]

/-! ## Insertion -/

/-- A node with one key more. -/
theorem Sized.grow (h : Sized m n) (hkeys : n'.keys.length = n.keys.length + 1)
    (hsize : n'.size = n.size + 1) (htype : n'.type = n.type) (hroot : n'.isRoot = n.isRoot) :
    Sized m n' := by
  refine ⟨by rw [hkeys, hsize, h.1], fun hint hnr => ?_⟩
  rw [hsize]
  exact (h.2 (htype ▸ hint) (hroot ▸ hnr)).trans (Nat.le_succ _)

theorem insertEntry_inv (h : BPlusNode.insertEntry n key value = .ok n') :
    n'.keys.length = n.keys.length + 1 ∧ n'.size = n.size + 1 ∧ n'.type = n.type ∧
      n'.isRoot = n.isRoot := by
  simp only [BPlusNode.insertEntry, Machine.bind_eq_ok] at h
  obtain ⟨keys, hkeys, values, -, hn⟩ := h
  obtain rfl := Except.ok.inj hn
  exact ⟨Vec.length_of_insert hkeys, rfl, rfl, rfl⟩

theorem insertChild_inv {c : ℕ} (h : BPlusNode.insertChild n key c = .ok n') :
    n'.keys.length = n.keys.length + 1 ∧ n'.size = n.size + 1 ∧ n'.type = n.type ∧
      n'.isRoot = n.isRoot := by
  simp only [BPlusNode.insertChild, Machine.bind_eq_ok] at h
  obtain ⟨keys, hkeys, children, -, hn⟩ := h
  obtain rfl := Except.ok.inj hn
  exact ⟨Vec.length_of_insert hkeys, rfl, rfl, rfl⟩

theorem Sizes.adopt {p : ℕ} : ∀ {children : List ℕ} {t : BPlusTree}, Sizes m M t →
    t.adopt children p = .ok t' → Sizes m M t' := by
  intro children
  induction children with
  | nil =>
    intro t h hrun
    obtain rfl := Except.ok.inj hrun
    exact h
  | cons c children ih =>
    intro t h hrun
    rw [BPlusTree.adopt, List.foldlM_cons, Machine.bind_eq_ok] at hrun
    obtain ⟨t₁, h₁, hrun⟩ := hrun
    exact ih (h.keep h₁ rfl rfl rfl rfl).1 hrun

/-- An overfull internal node is cut into halves. -/
theorem Sizes.splitNode (h : Sizes m M t) (hfull : M ≤ (t.nd i).size) {k : ℤ} {c : ℕ}
    (hrun : t.splitNode i key c = .ok (t', k, j)) : Sizes m M t' ∧ m ≤ (t'.nd i).size := by
  simp only [BPlusTree.splitNode, Machine.bind_eq_ok] at hrun
  obtain ⟨t₁, h₁, node, hnode, promoteKey, -, keys, hkeys, children, -, t₂, h₂, t₃, h₃, t₄, h₄, node',
    -, t₅, h₅, heq⟩ := hrun
  obtain ⟨rfl, -⟩ := Prod.mk.inj (Except.ok.inj heq)
  obtain ⟨hi, n₁, hn₁, rfl⟩ := modify_inv h₁
  obtain ⟨hlen, hsize, htype, hroot⟩ := insertChild_inv hn₁
  obtain rfl : node = n₁ := by
    rw [(node_inv hnode).2, nd_setNode hi, if_pos rfl]
  have hs₁ : Sizes m M (t.setNode i node) := h.setNode hi ((h.cells i hi).grow hlen hsize htype hroot)
  have hkeys' : node.keys.length = node.size := by
    rw [hlen, hsize, (h.cells i hi).1]
  have hhalf := h.half
  obtain ⟨hs₂, -, -⟩ := hs₁.allocate h₂ fun n hn => by
    obtain rfl := Except.ok.inj hn
    refine ⟨rfl, fun _ _ => ?_⟩
    show m ≤ keys.length
    rw [Vec.length_of_suffix hkeys, hkeys', hsize]
    omega
  obtain ⟨hi₃, n₃, hn₃, rfl⟩ := modify_inv h₄
  have hmid : m ≤ node.size / 2 := by omega
  have hleft : Sized m n₃ ∧ n₃.size = node.size / 2 := by
    obtain rfl := Except.ok.inj hn₃
    exact ⟨⟨Vec.length_resize _ _ _, fun _ _ => hmid⟩, rfl⟩
  obtain ⟨hs₅, hsame⟩ := ((hs₂.adopt h₃).setNode hi₃ hleft.1).keep h₅ rfl rfl rfl rfl
  refine ⟨hs₅, ?_⟩
  rw [(hsame i).1, nd_setNode hi₃, if_pos rfl, hleft.2]
  exact hmid

/-- A new root. -/
theorem Sizes.growRoot (h : Sizes m M t) {left right : ℕ} (hleft : left < t.nodes.length)
    (hsize : (t.nd left).type = .internal → m ≤ (t.nd left).size)
    (hrun : t.growRoot left key right = .ok t') : Sizes m M t' := by
  simp only [BPlusTree.growRoot, Machine.bind_eq_ok] at hrun
  obtain ⟨t₁, h₁, t₂, h₂, t₃, h₃, heq⟩ := hrun
  obtain rfl := Except.ok.inj heq
  obtain ⟨hs₁, -, hsame⟩ := h.allocate h₁ fun n hn => by
    obtain rfl := Except.ok.inj hn
    exact ⟨rfl, fun _ hroot => by cases hroot⟩
  have hs₂ := hs₁.modify h₂ fun n hn hn' => by
    rw [hsame left hleft] at hn hn'
    obtain rfl := Except.ok.inj hn'
    exact ⟨hn.1, fun hint _ => hsize hint⟩
  have hs₃ := (hs₂.keep h₃ rfl rfl rfl rfl).1
  exact ⟨hs₃.least, hs₃.most, hs₃.half, hs₃.cells⟩

/-- A new child goes up the tree; a node that has been cut is not short. -/
theorem Sizes.insertIntoParent (fuel : ℕ) : (∀ {t : BPlusTree} {left : ℕ} {key : ℤ} {right : ℕ},
    Sizes m M t → ((t.nd left).type = .internal → m ≤ (t.nd left).size) →
      BPlusTree.insertIntoParent fuel t left key right = .ok t' → Sizes m M t') ∧
    ∀ {t : BPlusTree} {i : ℕ} {key : ℤ} {right : ℕ}, Sizes m M t → M ≤ (t.nd i).size →
      splitInternal fuel t i key right = .ok t' → Sizes m M t' := by
  -- The climb goes on in the node that was split, so both parts are proved together.
  induction fuel with
  | zero => exact ⟨fun _ _ hrun => (nomatch hrun), fun _ _ hrun => (nomatch hrun)⟩
  | succ fuel ih =>
    constructor
    · intro t left key right h hleft hrun
      rw [BPlusTree.insertIntoParent, Machine.bind_eq_ok] at hrun
      obtain ⟨node, hnode, hrun⟩ := hrun
      split at hrun
      case isTrue => exact h.growRoot (node_inv hnode).1 hleft hrun
      case isFalse =>
        simp only [Machine.bind_eq_ok] at hrun
        obtain ⟨p, -, parent, hparent, hrun⟩ := hrun
        split at hrun
        case isTrue =>
          obtain ⟨t₁, h₁, hrun⟩ := Machine.bind_eq_ok.mp hrun
          have hs₁ := h.modify h₁ fun n hn hn' => by
            obtain ⟨hlen, hsize, htype, hroot⟩ := insertChild_inv hn'
            exact hn.grow hlen hsize htype hroot
          exact (hs₁.keep hrun rfl rfl rfl rfl).1
        case isFalse hfull =>
          obtain ⟨t₁, h₁, hrun⟩ := Machine.bind_eq_ok.mp hrun
          obtain ⟨hs₁, hsame⟩ := h.keep h₁ rfl rfl rfl rfl
          refine ih.2 hs₁ ?_ hrun
          rw [(hsame p).1, ← (node_inv hparent).2, ← h.most]
          exact Nat.not_lt.mp hfull
    · intro t i key right h hfull hrun
      rw [splitInternal, Machine.bind_eq_ok] at hrun
      obtain ⟨⟨t₁, k, j⟩, h₁, hrun⟩ := hrun
      obtain ⟨hs₁, hleft⟩ := h.splitNode hfull h₁
      exact ih.1 hs₁ (fun _ => hleft) hrun

/-- A full leaf is cut into halves. -/
theorem Sizes.splitLeaf (h : Sizes m M t) (hleaf : (t.nd l).type = .leaf) {k : ℤ}
    (hrun : t.splitLeaf l key value = .ok (t', k, j)) : Sizes m M t' ∧ (t'.nd l).type = .leaf := by
  simp only [BPlusTree.splitLeaf, Machine.bind_eq_ok] at hrun
  obtain ⟨t₁, h₁, leaf, -, keys, -, values, -, t₂, h₂, t₃, h₃, leaf', -, t₄, h₄, t₅, h₅, newLeaf, -,
    promoteKey, -, leaf'', -, t₆, h₆, heq⟩ := hrun
  obtain ⟨rfl, -⟩ := Prod.mk.inj (Except.ok.inj heq)
  obtain ⟨hl, n₁, hn₁, rfl⟩ := modify_inv h₁
  obtain ⟨hlen, hsize, htype, hroot⟩ := insertEntry_inv hn₁
  have hs₁ := h.setNode hl ((h.cells l hl).grow hlen hsize htype hroot)
  obtain ⟨hs₂, -, hsame⟩ := hs₁.allocate h₂ fun n hn => by
    obtain rfl := Except.ok.inj hn
    exact ⟨rfl, fun htype => by cases htype⟩
  have hleaf₂ : (t₂.nd l).type = .leaf := by
    rw [hsame l (by rw [length_setNode]; exact hl), nd_setNode hl, if_pos rfl, htype]
    exact hleaf
  obtain ⟨hl₂, n₃, hn₃, rfl⟩ := modify_inv h₃
  have htrim : Sized m n₃ ∧ n₃.type = .leaf := by
    obtain rfl := Except.ok.inj hn₃
    refine ⟨⟨Vec.length_resize _ _ _, fun hint => ?_⟩, hleaf₂⟩
    rw [show (t₂.nd l).type = .internal from hint] at hleaf₂
    cases hleaf₂
  obtain ⟨hs₄, hsame₄⟩ := (hs₂.setNode hl₂ htrim.1).keep h₄ rfl rfl rfl rfl
  obtain ⟨hs₅, hsame₅⟩ := hs₄.keep h₅ rfl rfl rfl rfl
  obtain ⟨hs₆, hsame₆⟩ := hs₅.keep h₆ rfl rfl rfl rfl
  refine ⟨hs₆, ?_⟩
  rw [(hsame₆ l).2, (hsame₅ l).2, (hsame₄ l).2, nd_setNode hl₂, if_pos rfl]
  exact htrim.2

/-- The descent ends in a leaf. -/
theorem findLeaf_type (h : t.findLeaf key = .ok (some l)) : (t.nd l).type = .leaf := by
  have hfrom : ∀ {fuel i : ℕ}, findLeafFrom t key fuel i = .ok l → (t.nd l).type = .leaf := by
    intro fuel
    induction fuel with
    | zero => exact nofun
    | succ fuel ih =>
      intro i hi
      rw [findLeafFrom, Machine.bind_eq_ok] at hi
      obtain ⟨node, hnode, hi⟩ := hi
      split at hi
      case h_1 htype =>
        obtain rfl := Except.ok.inj hi
        rw [← (node_inv hnode).2]
        exact htype
      case h_2 =>
        simp only [Machine.bind_eq_ok] at hi
        obtain ⟨slot, -, child, -, hi⟩ := hi
        exact ih hi
  unfold findLeaf at h
  split at h
  case h_1 => cases h
  case h_2 root hroot =>
    obtain ⟨l', hl', heq⟩ := Machine.map_eq_ok.mp h
    obtain rfl := Option.some.inj heq
    exact hfrom hl'

/-- An insertion keeps the sizes. -/
theorem Sizes.insert (h : Sizes m M t) {b : Bool} (hrun : t.insert key value = .ok (t', b)) :
    Sizes m M t' := by
  rw [BPlusTree.insert, Machine.bind_eq_ok] at hrun
  obtain ⟨leafIdx, hfind, hrun⟩ := hrun
  split at hrun
  case h_1 =>
    simp only [plant, Machine.bind_eq_ok] at hrun
    obtain ⟨t₂, ⟨t₁, h₁, heq⟩, heq'⟩ := hrun
    obtain rfl := Except.ok.inj heq
    obtain ⟨rfl, -⟩ := Prod.mk.inj (Except.ok.inj heq')
    obtain ⟨hs₁, -, -⟩ := h.allocate h₁ fun n hn => by
      obtain rfl := Except.ok.inj hn
      exact ⟨rfl, fun htype => by cases htype⟩
    exact ⟨hs₁.least, hs₁.most, hs₁.half, hs₁.cells⟩
  case h_2 l =>
    simp only [Machine.bind_eq_ok] at hrun
    obtain ⟨leaf, -, found, -, hrun⟩ := hrun
    split at hrun
    case h_1 =>
      obtain ⟨rfl, -⟩ := Prod.mk.inj (Except.ok.inj hrun)
      exact h
    case h_2 =>
      have hcount : ∀ {t₁ : BPlusTree}, Sizes m M t₁ →
          Sizes m M { t₁ with entryCount := t₁.entryCount + 1 } := fun hs =>
        ⟨hs.least, hs.most, hs.half, hs.cells⟩
      split at hrun
      case isTrue =>
        obtain ⟨t₁, h₁, hrun⟩ := Machine.bind_eq_ok.mp hrun
        obtain ⟨rfl, -⟩ := Prod.mk.inj (Except.ok.inj hrun)
        refine hcount (h.modify h₁ fun n hn hn' => ?_)
        obtain ⟨hlen, hsize, htype, hroot⟩ := insertEntry_inv hn'
        exact hn.grow hlen hsize htype hroot
      case isFalse =>
        obtain ⟨t₁, h₁, hrun⟩ := Machine.bind_eq_ok.mp hrun
        obtain ⟨rfl, -⟩ := Prod.mk.inj (Except.ok.inj hrun)
        rw [splitLeafAndInsert, Machine.bind_eq_ok] at h₁
        obtain ⟨⟨t₂, k, j⟩, h₂, h₁⟩ := h₁
        obtain ⟨hs₂, hleaf⟩ := h.splitLeaf (findLeaf_type hfind) h₂
        refine hcount ((Sizes.insertIntoParent _).1 hs₂ (fun hint => ?_) h₁)
        rw [hint] at hleaf
        cases hleaf

/-! ## Removal -/

/-- Removing `key` takes an entry that its leaf cannot spare, no neighbour below the same parent has
one to lend, and the parent is not the root and has no key to lose. -/
def starves (t : BPlusTree) (key : ℤ) : Bool :=
  match t.findLeaf key with
  | .ok (some leafIdx) =>
    let leaf := t.nd leafIdx
    !leaf.isRoot && leaf.keys.contains key && leaf.size ≤ t.minLeafKeys &&
      match leaf.parentIdx with
      | some parentIdx =>
        let parent := t.nd parentIdx
        !parent.isRoot && parent.size ≤ t.minInternalKeys &&
          match parent.childIndices.idxOf? leafIdx with
          | some pos =>
            (pos == 0 || (t.nd (parent.childIndices.getD (pos - 1) 0)).size ≤ t.minLeafKeys) &&
            (pos + 1 == parent.childIndices.length ||
              (t.nd (parent.childIndices.getD (pos + 1) 0)).size ≤ t.minLeafKeys)
          | none => false
      | none => false
  | _ => false

/-- The children of the leaf's parent are leaves. -/
structure Siblings (t : BPlusTree) (l p : ℕ) : Prop where
  leaf : (t.nd l).type = .leaf
  parent : (t.nd l).parentIdx = some p
  internal : (t.nd p).type = .internal
  leaves : ∀ c ∈ (t.nd p).childIndices, (t.nd c).type = .leaf

theorem Siblings.ne {p : ℕ} (h : Siblings t l p) : p ≠ l := by
  rintro rfl
  have hint := h.internal
  rw [h.leaf] at hint
  cases hint

/-- Only the leaf has changed, and neither its type nor its parent. -/
theorem Siblings.congr {p : ℕ} (h : Siblings t l p) (hother : ∀ i, i ≠ l → t'.nd i = t.nd i)
    (htype : (t'.nd l).type = (t.nd l).type) (hparent : (t'.nd l).parentIdx = (t.nd l).parentIdx) :
    Siblings t' l p := by
  refine ⟨htype.trans h.leaf, hparent.trans h.parent, ?_, fun c hc => ?_⟩
  · rw [hother p h.ne]
    exact h.internal
  · rw [hother p h.ne] at hc
    by_cases hcl : c = l
    · rw [hcl, htype]
      exact h.leaf
    · rw [hother c hcl]
      exact h.leaves c hc

/-- A leaf may have any size. -/
theorem Sized.of_leaf (hkeys : n.keys.length = n.size) (htype : n.type = .leaf) : Sized m n := by
  refine ⟨hkeys, fun hint => ?_⟩
  rw [htype] at hint
  cases hint

/-- A change of a leaf. -/
theorem Sizes.modifyLeaf {f : BPlusNode → Except Fault BPlusNode} (h : Sizes m M t)
    (hrun : t.modify i f = .ok t') (hleaf : (t.nd i).type = .leaf)
    (hf : ∀ n, (t.nd i).keys.length = (t.nd i).size → f (t.nd i) = .ok n →
      n.keys.length = n.size ∧ n.type = (t.nd i).type) :
    Sizes m M t' ∧ ∀ j, (t'.nd j).type = (t.nd j).type := by
  obtain ⟨hi, n, hn, rfl⟩ := modify_inv hrun
  obtain ⟨hkeys, htype⟩ := hf n (h.cells i hi).1 hn
  refine ⟨h.setNode hi (.of_leaf hkeys (htype.trans hleaf)), fun j => ?_⟩
  rw [nd_setNode hi]
  split
  case isTrue hj => subst hj; exact htype
  case isFalse => rfl

/-- What a leaf gains or loses with one entry: its keys and its size change alike. -/
structure Counted (count : ℕ → ℕ) (n n' : BPlusNode) : Prop where
  keys : n'.keys.length = count n.keys.length
  size : n'.size = count n.size
  type : n'.type = n.type
  children : n'.childIndices = n.childIndices

/-- The leaf `l` gets an entry of a neighbour `s` below the same parent `p`, of which a separator is
replaced. -/
structure Lends (t : BPlusTree) (l p s : ℕ) (t₁ t₂ t' : BPlusTree) : Prop where
  leaf : (t.nd l).type = .leaf
  mem : s ∈ (t.nd p).childIndices
  borrow : ∃ f, t.modify l f = .ok t₁ ∧ ∀ n n', f n = .ok n' → Counted (· + 1) n n'
  lend : ∃ f, t₁.modify s f = .ok t₂ ∧ ∀ n n', f n = .ok n' → Counted (· - 1) n n'
  separator : ∃ pos sep,
    t₂.modify p (fun n => return { n with keys := ← Vec.set .access n.keys pos sep }) = .ok t'

theorem borrowLeft_inv {p pos : ℕ} (hrun : t.borrowLeft l p pos = .ok (some t')) :
    ∃ s t₁ t₂, Lends t l p s t₁ t₂ t' := by
  simp only [borrowLeft, Machine.bind_eq_ok] at hrun
  obtain ⟨node, hnode, parent, hparent, hrun⟩ := hrun
  obtain ⟨-, rfl⟩ := node_inv hnode
  obtain ⟨-, rfl⟩ := node_inv hparent
  split at hrun
  case isFalse => cases hrun
  case isTrue =>
    simp only [Machine.bind_eq_ok] at hrun
    obtain ⟨s, hs, sib, hsibling, hrun⟩ := hrun
    split at hrun
    case isFalse => cases hrun
    case isTrue hspare =>
      simp only [Machine.bind_eq_ok] at hrun
      obtain ⟨k, -, v, -, t₁, h₁, t₂, h₂, node, -, sep, -, t₃, h₃, heq⟩ := hrun
      obtain rfl := Option.some.inj (Except.ok.inj heq)
      refine ⟨s, t₁, t₂, hspare.1, Vec.mem_of_get hs, ⟨_, h₁, fun n n' hn => ?_⟩,
        ⟨_, h₂, fun n n' hn => ?_⟩, _, _, h₃⟩
      · obtain rfl := Except.ok.inj hn
        exact ⟨rfl, rfl, rfl, rfl⟩
      · simp only [Machine.bind_eq_ok] at hn
        obtain ⟨keys, hpop, values, -, hn⟩ := hn
        obtain rfl := Except.ok.inj hn
        exact ⟨Vec.length_of_popBack hpop, rfl, rfl, rfl⟩

theorem borrowRight_inv {p pos : ℕ} (hrun : t.borrowRight l p pos = .ok (some t')) :
    ∃ s t₁ t₂, Lends t l p s t₁ t₂ t' := by
  simp only [borrowRight, Machine.bind_eq_ok] at hrun
  obtain ⟨node, hnode, parent, hparent, hrun⟩ := hrun
  obtain ⟨-, rfl⟩ := node_inv hnode
  obtain ⟨-, rfl⟩ := node_inv hparent
  split at hrun
  case isFalse => cases hrun
  case isTrue =>
    simp only [Machine.bind_eq_ok] at hrun
    obtain ⟨s, hs, sib, hsibling, hrun⟩ := hrun
    split at hrun
    case isFalse => cases hrun
    case isTrue hspare =>
      simp only [Machine.bind_eq_ok] at hrun
      obtain ⟨k, -, v, -, t₁, h₁, t₂, h₂, node, -, sep, -, t₃, h₃, heq⟩ := hrun
      obtain rfl := Option.some.inj (Except.ok.inj heq)
      refine ⟨s, t₁, t₂, hspare.1, Vec.mem_of_get hs, ⟨_, h₁, fun n n' hn => ?_⟩,
        ⟨_, h₂, fun n n' hn => ?_⟩, _, _, h₃⟩
      · obtain rfl := Except.ok.inj hn
        exact ⟨List.length_append, rfl, rfl, rfl⟩
      · simp only [Machine.bind_eq_ok] at hn
        obtain ⟨keys, hpop, values, -, hn⟩ := hn
        obtain rfl := Except.ok.inj hn
        exact ⟨Vec.length_of_erase hpop, rfl, rfl, rfl⟩

/-- Borrowing changes two leaves, and a separator. -/
theorem Sizes.lend (h : Sizes m M t) {p s : ℕ} {t₁ t₂ : BPlusTree} (hsib : Siblings t l p)
    (hlend : Lends t l p s t₁ t₂ t') : Sizes m M t' := by
  obtain ⟨f, h₁, hf⟩ := hlend.borrow
  obtain ⟨hs₁, htype₁⟩ := h.modifyLeaf h₁ hsib.leaf fun n hkeys hn =>
    ⟨by rw [(hf _ n hn).keys, (hf _ n hn).size, hkeys], (hf _ n hn).type⟩
  obtain ⟨g, h₂, hg⟩ := hlend.lend
  have hleaf : (t₁.nd s).type = .leaf := (htype₁ s).trans (hsib.leaves s hlend.mem)
  obtain ⟨hs₂, -⟩ := hs₁.modifyLeaf h₂ hleaf fun n hkeys hn =>
    ⟨by rw [(hg _ n hn).keys, (hg _ n hn).size, hkeys], (hg _ n hn).type⟩
  obtain ⟨pos, sep, h₃⟩ := hlend.separator
  refine hs₂.modify h₃ fun n hn hn' => ?_
  obtain ⟨keys, hkeys, heq⟩ := Machine.bind_eq_ok.mp hn'
  obtain rfl := Except.ok.inj heq
  exact ⟨(Vec.length_of_set hkeys).trans hn.1, hn.2⟩

/-- The entries of a leaf appended to those of another one. -/
theorem Sizes.appendLeaf (h : Sizes m M t) {dst src : ℕ} (hdst : (t.nd dst).type = .leaf)
    (hrun : t.appendLeaf dst src = .ok t') : Sizes m M t' := by
  simp only [BPlusTree.appendLeaf, Machine.bind_eq_ok] at hrun
  obtain ⟨node, hnode, keys, hkeys, values, -, hrun⟩ := hrun
  refine (h.modifyLeaf hrun hdst fun n hn hn' => ?_).1
  obtain rfl := Except.ok.inj hn'
  exact ⟨by rw [List.length_append, hn, Vec.length_of_firstN hkeys], rfl⟩

/-- A child dropped from a node that is the root or has a key to lose. -/
theorem Sizes.dropChild (h : Sizes m M t) {p keyPos childPos : ℕ}
    (hspare : (t.nd p).isRoot = true ∨ m < (t.nd p).size)
    (hrun : t.dropChild p keyPos childPos = .ok t') : Sizes m M t' := by
  obtain ⟨hp, n, hn, rfl⟩ := modify_inv hrun
  simp only [Machine.bind_eq_ok] at hn
  obtain ⟨keys, hkeys, children, -, hn⟩ := hn
  obtain rfl := Except.ok.inj hn
  refine h.setNode hp ⟨?_, fun _ hroot => ?_⟩
  · show keys.length = (t.nd p).size - 1
    rw [Vec.length_of_erase hkeys, (h.cells p hp).1]
  · rcases hspare with hisRoot | hlt
    · rw [show (t.nd p).isRoot = false from hroot] at hisRoot
      cases hisRoot
    · exact Nat.le_sub_one_of_lt hlt

theorem dropChild_type {p keyPos childPos : ℕ} (hrun : t.dropChild p keyPos childPos = .ok t') :
    (t'.nd p).type = (t.nd p).type := by
  obtain ⟨hp, n, hn, rfl⟩ := modify_inv hrun
  simp only [Machine.bind_eq_ok] at hn
  obtain ⟨keys, -, children, -, hn⟩ := hn
  obtain rfl := Except.ok.inj hn
  rw [nd_setNode hp, if_pos rfl]

/-- Merging appends a leaf to another one and drops a child from their parent. -/
theorem mergeLeaf_inv {p pos : ℕ} (hsib : Siblings t l p) (hrun : t.mergeLeaf l p pos = .ok t') :
    ∃ dst src keyPos childPos t₁, (t.nd dst).type = .leaf ∧ t.appendLeaf dst src = .ok t₁ ∧
      t₁.nd p = t.nd p ∧ t₁.dropChild p keyPos childPos = .ok t' := by
  have hkeep : ∀ {dst src : ℕ} {t₁ : BPlusTree}, (t.nd dst).type = .leaf →
      t.appendLeaf dst src = .ok t₁ → t₁.nd p = t.nd p := by
    intro dst src t₁ hdst h₁
    simp only [appendLeaf, Machine.bind_eq_ok] at h₁
    obtain ⟨node, -, keys, -, values, -, h₁⟩ := h₁
    obtain ⟨hi, n, -, rfl⟩ := modify_inv h₁
    rw [nd_setNode hi, if_neg]
    rintro rfl
    rw [hsib.internal] at hdst
    cases hdst
  simp only [mergeLeaf, Machine.bind_eq_ok] at hrun
  obtain ⟨parent, hparent, hrun⟩ := hrun
  obtain ⟨-, rfl⟩ := node_inv hparent
  split at hrun
  case isTrue =>
    simp only [Machine.bind_eq_ok] at hrun
    obtain ⟨s, hs, t₁, h₁, h₂⟩ := hrun
    have hdst := hsib.leaves s (Vec.mem_of_get hs)
    exact ⟨s, l, _, _, t₁, hdst, h₁, hkeep hdst h₁, h₂⟩
  case isFalse =>
    simp only [Machine.bind_eq_ok] at hrun
    obtain ⟨s, -, t₁, h₁, h₂⟩ := hrun
    exact ⟨l, s, _, _, t₁, hsib.leaf, h₁, hkeep hsib.leaf h₁, h₂⟩

theorem mergeLeaf_type {p pos : ℕ} (hsib : Siblings t l p) (hrun : t.mergeLeaf l p pos = .ok t') :
    (t'.nd p).type = .internal := by
  obtain ⟨dst, src, keyPos, childPos, t₁, -, -, hp, h₂⟩ := mergeLeaf_inv hsib hrun
  rw [dropChild_type h₂, hp]
  exact hsib.internal

/-- Two leaves are merged below a node that is the root or has a key to lose. -/
theorem Sizes.mergeLeaf (h : Sizes m M t) {p pos : ℕ} (hsib : Siblings t l p)
    (hspare : (t.nd p).isRoot = true ∨ m < (t.nd p).size)
    (hrun : t.mergeLeaf l p pos = .ok t') : Sizes m M t' := by
  obtain ⟨dst, src, keyPos, childPos, t₁, hdst, h₁, hp, h₂⟩ := mergeLeaf_inv hsib hrun
  exact (h.appendLeaf hdst h₁).dropChild (by rw [hp]; exact hspare) h₂

/-- A left neighbour that does not lend has no entry to spare. -/
theorem borrowLeft_none_inv {p pos s : ℕ} (hleaf : (t.nd l).type = .leaf)
    (hrun : t.borrowLeft l p pos = .ok none) (hpos : 0 < pos)
    (hs : (t.nd p).childIndices[pos - 1]? = some s) : (t.nd s).size ≤ t.minLeafKeys := by
  simp only [BPlusTree.borrowLeft, Machine.bind_eq_ok, if_pos hpos] at hrun
  obtain ⟨node, hnode, parent, hparent, s', hs', sib, hsib, hrun⟩ := hrun
  obtain ⟨-, rfl⟩ := node_inv hnode
  obtain ⟨-, rfl⟩ := node_inv hparent
  obtain ⟨-, rfl⟩ := node_inv hsib
  obtain rfl := Except.ok.inj ((Vec.get_of_getElem? hs).symm.trans hs')
  split at hrun
  case isTrue =>
    simp only [Machine.bind_eq_ok] at hrun
    obtain ⟨_, -, _, -, _, -, _, -, _, -, _, -, _, -, heq⟩ := hrun
    cases heq
  case isFalse hno => exact Nat.not_lt.mp fun hlt => hno ⟨hleaf, hlt⟩

theorem borrowRight_none_inv {p pos s : ℕ} (hleaf : (t.nd l).type = .leaf)
    (hrun : t.borrowRight l p pos = .ok none) (hpos : pos < (t.nd p).childIndices.length - 1)
    (hs : (t.nd p).childIndices[pos + 1]? = some s) : (t.nd s).size ≤ t.minLeafKeys := by
  simp only [BPlusTree.borrowRight, Machine.bind_eq_ok] at hrun
  obtain ⟨node, hnode, parent, hparent, hrun⟩ := hrun
  obtain ⟨-, rfl⟩ := node_inv hnode
  obtain ⟨-, rfl⟩ := node_inv hparent
  rw [if_pos hpos] at hrun
  simp only [Machine.bind_eq_ok] at hrun
  obtain ⟨s', hs', sib, hsib, hrun⟩ := hrun
  obtain ⟨-, rfl⟩ := node_inv hsib
  obtain rfl := Except.ok.inj ((Vec.get_of_getElem? hs).symm.trans hs')
  split at hrun
  case isTrue =>
    simp only [Machine.bind_eq_ok] at hrun
    obtain ⟨_, -, _, -, _, -, _, -, _, -, _, -, _, -, heq⟩ := hrun
    cases heq
  case isFalse hno => exact Nat.not_lt.mp fun hlt => hno ⟨hleaf, hlt⟩

/-- A short leaf is repaired; when no neighbour lends it an entry, the parent is the root or has a
key to lose. -/
theorem Sizes.handleUnderflow (h : Sizes m M t) {p : ℕ} (hsib : Siblings t l p)
    (hspare : ∀ pos, (t.nd p).childIndices.idxOf? l = some pos →
      (0 < pos → ∀ s, (t.nd p).childIndices[pos - 1]? = some s → (t.nd s).size ≤ t.minLeafKeys) →
      (pos < (t.nd p).childIndices.length - 1 →
        ∀ s, (t.nd p).childIndices[pos + 1]? = some s → (t.nd s).size ≤ t.minLeafKeys) →
      (t.nd p).isRoot = true ∨ m < (t.nd p).size) {fuel : ℕ}
    (hrun : BPlusTree.handleUnderflow fuel t l = .ok t') : Sizes m M t' := by
  cases fuel with
  | zero => cases hrun
  | succ fuel =>
    rw [BPlusTree.handleUnderflow, Machine.bind_eq_ok] at hrun
    obtain ⟨node, hnode, hrun⟩ := hrun
    obtain ⟨-, rfl⟩ := node_inv hnode
    split at hrun
    case isTrue =>
      obtain rfl := Except.ok.inj hrun
      exact h
    case isFalse =>
      simp only [hsib.parent, index, Machine.ok_bind, Machine.bind_eq_ok] at hrun
      obtain ⟨parent, hparent, hrun⟩ := hrun
      obtain ⟨-, rfl⟩ := node_inv hparent
      split at hrun
      case h_1 =>
        obtain rfl := Except.ok.inj hrun
        exact h
      case h_2 pos hpos =>
        obtain ⟨borrowed, hleft, hrun⟩ := Machine.bind_eq_ok.mp hrun
        cases borrowed with
        | some t₁ =>
          obtain rfl := Except.ok.inj hrun
          obtain ⟨s, t₂, t₃, hlend⟩ := borrowLeft_inv hleft
          exact h.lend hsib hlend
        | none =>
          obtain ⟨borrowed, hright, hrun⟩ := Machine.bind_eq_ok.mp hrun
          cases borrowed with
          | some t₁ =>
            obtain rfl := Except.ok.inj hrun
            obtain ⟨s, t₂, t₃, hlend⟩ := borrowRight_inv hright
            exact h.lend hsib hlend
          | none =>
            simp only [hsib.leaf, Machine.bind_eq_ok] at hrun
            obtain ⟨t₁, h₁, parent, hparent, hrun⟩ := hrun
            have hs₁ := h.mergeLeaf hsib (hspare pos hpos
              (fun hlt s hs => borrowLeft_none_inv hsib.leaf hleft hlt hs)
              (fun hlt s hs => borrowRight_none_inv hsib.leaf hright hlt hs)) h₁
            obtain ⟨hp, rfl⟩ := node_inv hparent
            -- The parent is not short, so it is not looked at again.
            rw [if_neg] at hrun
            · obtain rfl := Except.ok.inj hrun
              exact hs₁
            · rw [hs₁.least]
              intro hshort
              simp only [Bool.and_eq_true, Bool.not_eq_true', decide_eq_true_eq] at hshort
              exact absurd ((hs₁.cells p hp).2 (mergeLeaf_type hsib h₁) hshort.1)
                (Nat.not_le.mpr hshort.2)

/-- The parent of a leaf that is not the root. -/
theorem WF.siblings {r H : ℕ} (h : WF t r H) (hfind : t.findLeaf key = .ok (some l))
    (hroot : (t.nd l).isRoot = false) :
    ∃ p, Siblings t l p ∧ (t.nd p).childIndices.Nodup ∧ l ∈ (t.nd p).childIndices := by
  obtain ⟨A, lo, l', B, hloc, hfind'⟩ := h.findLeaf_spec key
  obtain rfl := Option.some.inj (Except.ok.inj (hfind'.symm.trans hfind))
  have hlvl := hloc.level
  cases H with
  | zero =>
    have hmem : (lo, l') ∈ lvl t r 0 := by rw [hlvl]; simp
    obtain rfl := (Prod.mk.inj (List.mem_singleton.mp hmem)).2
    rw [h.spine.root] at hroot
    cases hroot
  | succ d =>
    obtain ⟨PA, plo, p, PB, C₁, C₂, hP, hx, -, -, hint, hlink, -⟩ := h.spine.exists_parent hlvl
    have hmem : (plo, p) ∈ lvl t r d := by rw [hP]; simp
    refine ⟨p, ⟨(h.leaf_at hlvl).type, hlink, hint.type, fun c hc => ?_⟩,
      h.spine.nodup_children hmem, ?_⟩
    · obtain ⟨b, hb, rfl⟩ := List.mem_map.mp (h.spine.mem_lvl_succ hmem hc)
      exact (h.row.leaf b hb).type
    · show l' ∈ t.cs p
      rw [(expand_split_at (a := (plo, p)) hint.children hx).1]
      simp

/-- What it means that a removal does not starve the parent of its leaf. -/
theorem spare_of_not_starves {p pos : ℕ} (hst : t.starves key = false)
    (hfind : t.findLeaf key = .ok (some l)) (hkey : key ∈ (t.nd l).keys)
    (hroot : (t.nd l).isRoot = false) (hshort : (t.nd l).size ≤ t.minLeafKeys)
    (hparent : (t.nd l).parentIdx = some p) (hpos : (t.nd p).childIndices.idxOf? l = some pos)
    (hleft : 0 < pos → ∀ s, (t.nd p).childIndices[pos - 1]? = some s →
      (t.nd s).size ≤ t.minLeafKeys)
    (hright : pos < (t.nd p).childIndices.length - 1 →
      ∀ s, (t.nd p).childIndices[pos + 1]? = some s → (t.nd s).size ≤ t.minLeafKeys) :
    (t.nd p).isRoot = true ∨ t.minInternalKeys < (t.nd p).size := by
  have hlt : pos < (t.nd p).childIndices.length := (List.idxOf?_eq_some_iff.mp hpos).1
  by_contra hno
  rw [not_or, Bool.not_eq_true, Nat.not_lt] at hno
  have hl : pos = 0 ∨ (t.nd ((t.nd p).childIndices[pos - 1]?.getD 0)).size ≤ t.minLeafKeys := by
    rcases Nat.eq_zero_or_pos pos with hzero | hpos'
    · exact Or.inl hzero
    · have hget := List.getElem?_eq_getElem (l := (t.nd p).childIndices) (i := pos - 1) (by omega)
      rw [hget]
      exact Or.inr (hleft hpos' _ hget)
  have hr : pos + 1 = (t.nd p).childIndices.length ∨
      (t.nd ((t.nd p).childIndices[pos + 1]?.getD 0)).size ≤ t.minLeafKeys := by
    rcases Nat.lt_or_ge (pos + 1) (t.nd p).childIndices.length with hpos' | hge
    · have hget := List.getElem?_eq_getElem hpos'
      rw [hget]
      exact Or.inr (hright (by omega) _ hget)
    · exact Or.inl (by omega)
  -- Neither neighbour can lend and the parent has no key to lose: this is what starving means.
  have htrue : t.starves key = true := by
    simp only [starves, hfind, hroot, hparent, hpos, hno.1, List.getD_eq_getElem?_getD]
    simp [hkey, hshort, hno.2, hl, hr]
  rw [hst] at htrue
  cases htrue

/-- A leaf with an entry taken out. -/
theorem removeFromLeaf_inv (hrun : t.removeFromLeaf l key = .ok (some t')) :
    l < t.nodes.length ∧ key ∈ (t.nd l).keys ∧ ∃ n, t' = t.setNode l n ∧
      n.keys.length = (t.nd l).keys.length - 1 ∧ n.size = (t.nd l).size - 1 ∧
      n.type = (t.nd l).type ∧ n.isRoot = (t.nd l).isRoot ∧ n.parentIdx = (t.nd l).parentIdx ∧
      n.childIndices = (t.nd l).childIndices := by
  rw [removeFromLeaf, Machine.bind_eq_ok] at hrun
  obtain ⟨leaf, hleaf, hrun⟩ := hrun
  obtain ⟨hl, rfl⟩ := node_inv hleaf
  split at hrun
  case h_1 => cases hrun
  case h_2 pos hpos =>
    simp only [Machine.bind_eq_ok] at hrun
    obtain ⟨keys, hkeys, values, -, hrun⟩ := hrun
    obtain rfl := Option.some.inj (Except.ok.inj hrun)
    have hmem : key ∈ (t.nd l).keys := by
      rw [← List.isSome_idxOf?, hpos]
      rfl
    exact ⟨hl, hmem, _, rfl, Vec.length_of_erase hkeys, rfl, rfl, rfl, rfl, rfl⟩

/-- The end of a removal. -/
theorem Sizes.finish (h : Sizes m M t) (hrun : t.collapseRoot = .ok t') : Sizes m M t' := by
  unfold collapseRoot at hrun
  split at hrun
  case h_1 =>
    obtain rfl := Except.ok.inj hrun
    exact h
  case h_2 root _ =>
    obtain ⟨node, -, hrun⟩ := Machine.bind_eq_ok.mp hrun
    split at hrun
    case isFalse =>
      obtain rfl := Except.ok.inj hrun
      exact h
    case isTrue =>
      simp only [Machine.bind_eq_ok] at hrun
      obtain ⟨newRoot, -, t₁, h₁, heq⟩ := hrun
      obtain rfl := Except.ok.inj heq
      have hs := h.modify h₁ fun n hn hn' => by
        obtain rfl := Except.ok.inj hn'
        exact ⟨hn.1, fun _ => nofun⟩
      exact ⟨hs.least, hs.most, hs.half, hs.cells⟩

theorem Sizes.clearRoot (h : Sizes m M t) (hrun : t.clearRoot = .ok t') : Sizes m M t' := by
  unfold BPlusTree.clearRoot at hrun
  split at hrun
  case h_1 =>
    obtain rfl := Except.ok.inj hrun
    exact h
  case h_2 root _ =>
    obtain ⟨node, -, hrun⟩ := Machine.bind_eq_ok.mp hrun
    split at hrun
    case isFalse =>
      obtain rfl := Except.ok.inj hrun
      exact h
    case isTrue =>
      obtain rfl := Except.ok.inj hrun
      exact ⟨h.least, h.most, h.half, h.cells⟩

/-- A removal that does not starve a node keeps the sizes. -/
theorem Sizes.remove (h : Sizes m M t) {map : Finmap fun _ : ℤ => RID} (hmodels : Models t map)
    (hst : t.starves key = false) {b : Bool} (hrun : t.remove key = .ok (t', b)) :
    Sizes m M t' := by
  rw [BPlusTree.remove, Machine.bind_eq_ok] at hrun
  obtain ⟨found, hfind, hrun⟩ := hrun
  cases found with
  | none =>
    obtain ⟨rfl, -⟩ := Prod.mk.inj (Except.ok.inj hrun)
    exact h
  | some l =>
    obtain ⟨removed, hremove, hrun⟩ := Machine.bind_eq_ok.mp hrun
    cases removed with
    | none =>
      obtain ⟨rfl, -⟩ := Prod.mk.inj (Except.ok.inj hrun)
      exact h
    | some t₁ =>
      obtain ⟨-, ⟨hnone, -⟩ | ⟨r, H, hwf, -⟩⟩ := hmodels
      · rw [findLeaf, hnone] at hfind
        cases hfind
      obtain ⟨hl, hkey, n, rfl, hkeys, hsize, htype, hroot, hparent, -⟩ := removeFromLeaf_inv hremove
      have hleaf := findLeaf_type hfind
      have hs₁ : Sizes m M { t.setNode l n with entryCount := (t.setNode l n).entryCount - 1 } := by
        have hs := h.setNode hl (.of_leaf (by rw [hkeys, hsize, (h.cells l hl).1]) (htype.trans hleaf))
        exact ⟨hs.least, hs.most, hs.half, hs.cells⟩
      simp only [Machine.bind_eq_ok] at hrun
      obtain ⟨leaf, hnode, hrun⟩ := hrun
      obtain ⟨-, rfl⟩ := node_inv hnode
      have hnd : ∀ i, i ≠ l → BPlusTree.nd
          { t.setNode l n with entryCount := (t.setNode l n).entryCount - 1 } i = t.nd i :=
        fun i hi => (nd_setNode hl).trans (if_neg hi)
      have hndl : BPlusTree.nd
          { t.setNode l n with entryCount := (t.setNode l n).entryCount - 1 } l = n :=
        (nd_setNode hl).trans (if_pos rfl)
      have hend : ∀ {t₂ : BPlusTree}, Sizes m M t₂ →
          (t₂.collapseRoot >>= fun t => t.clearRoot >>= fun t => pure (t, true)) = .ok (t', b) →
          Sizes m M t' := by
        intro t₂ hs₂ hrest
        simp only [Machine.bind_eq_ok] at hrest
        obtain ⟨t₃, h₃, t₄, h₄, heq⟩ := hrest
        obtain ⟨rfl, -⟩ := Prod.mk.inj (Except.ok.inj heq)
        exact (hs₂.finish h₃).clearRoot h₄
      split at hrun
      case isFalse => exact hend hs₁ hrun
      case isTrue hcond =>
        obtain ⟨t₂, h₂, hrun⟩ := Machine.bind_eq_ok.mp hrun
        refine hend ?_ hrun
        rw [hndl, hroot, hsize] at hcond
        simp only [Bool.and_eq_true, Bool.not_eq_true', decide_eq_true_eq] at hcond
        obtain ⟨p, hsib, hnodup, hmem⟩ := hwf.siblings hfind hcond.1
        have hpl := hsib.ne
        have hsib₁ : Siblings { t.setNode l n with entryCount := (t.setNode l n).entryCount - 1 } l p :=
          hsib.congr hnd (by rw [hndl, htype]) (by rw [hndl, hparent])
        refine hs₁.handleUnderflow hsib₁ (fun pos hpos hleft hright => ?_) h₂
        rw [hnd p hpl] at hpos hleft hright ⊢
        have hne : ∀ {k s : ℕ}, k ≠ pos → (t.nd p).childIndices[k]? = some s → s ≠ l := by
          rintro k s hk hs rfl
          obtain ⟨hlt, hget, -⟩ := List.idxOf?_eq_some_iff.mp hpos
          obtain ⟨hlt', hget'⟩ := List.getElem?_eq_some_iff.mp hs
          exact hk ((hnodup.getElem_inj_iff).mp (hget'.trans hget.symm))
        rw [← h.least]
        refine spare_of_not_starves hst hfind hkey hcond.1 (by have hlt := hcond.2; exact Nat.le_of_pred_lt hlt)
          hsib.parent hpos (fun hlt s hs => ?_) fun hlt s hs => ?_
        · have hle := hleft hlt s hs
          rwa [hnd s (hne (by omega) hs)] at hle
        · have hle := hright hlt s hs
          rwa [hnd s (hne (by omega) hs)] at hle

/-! ## Runs -/

/-- The internal nodes that are reached, but for the root, have their least number of keys. -/
def Occupied (t : BPlusTree) : Prop := ∀ {r d i : ℕ}, t.rootIdx = some r → Below t r d i →
  (t.nd i).type = .internal → i ≠ r → t.minInternalKeys ≤ (t.nd i).size

theorem Sizes.occupied (h : Sizes m M t) {map : Finmap fun _ : ℤ => RID} (hmodels : Models t map) :
    Occupied t := by
  intro r d i hr hb htype hne
  have hst := hmodels.structured hr
  rw [h.least]
  refine (h.cells i (hst.bound hb)).2 htype ?_
  cases hroot : (t.nd i).isRoot with
  | false => rfl
  | true => exact absurd ((hst.root hb).mp hroot) hne

/-- In every run from the empty tree in which no removal merges two leaves below a parent that has
no key to lose, the internal nodes are occupied after every call. -/
theorem calls_occupied {order : ℕ} (horder : 3 ≤ order) (cs : List Call)
    (hcalls : Machine.Meets (fun t c => ∀ key, c = .remove key → t.starves key = false) call
      (new order) cs) : ∀ cs₁, cs₁ <+: cs → ∀ t outs, calls (new order) cs₁ = .ok (t, outs) →
        t.minInternalKeys = (order + 1) / 2 - 1 ∧ Occupied t := by
  have hsim : Machine.Simulates (fun t c => ∀ key, c = .remove key → t.starves key = false) call
      (fun map c _ map' => map' = (mapCall map c).1)
      (fun t map => Models t map ∧ Sizes ((order + 1) / 2 - 1) (order - 1) t) (· = Fault.child) := by
    -- The map is carried along, since a removal needs the tree to be well-formed.
    rintro t map c ⟨hm, hs⟩ hc
    cases c with
    | insert key value =>
      obtain ⟨t', ht', hm', -⟩ := hm.insert_spec key value
      exact Or.inr ⟨t', _, _, ht', rfl, hm', hs.insert ht'⟩
    | remove key =>
      obtain ⟨hfault, hok⟩ := hm.remove_spec key
      cases hsole : t.soleChildUnderflow key with
      | true => exact Or.inl ⟨.child, rfl, hfault hsole⟩
      | false =>
        obtain ⟨t', ht', hm', -⟩ := hok hsole
        exact Or.inr ⟨t', _, _, ht', rfl, hm', hs.remove hm (hc key rfl) ht'⟩
  rintro cs₁ ⟨cs₂, rfl⟩ t outs hrun
  have hcalls₁ : Machine.Meets (fun t c => ∀ key, c = .remove key → t.starves key = false) call
      (new order) cs₁ := by
    intro as₁ a as₂ heq
    exact hcalls as₁ a (as₂ ++ cs₂) (by rw [heq]; simp)
  have hstart : Sizes ((order + 1) / 2 - 1) (order - 1) (new order) :=
    ⟨rfl, rfl, by omega, nofun⟩
  rcases Machine.run_simulates hsim cs₁ (new order) ∅ ⟨models_new horder, hstart⟩ hcalls₁ with
    ⟨e, -, he⟩ | ⟨t', outs', map, hrun', -, hm, hs⟩
  · rw [calls, he] at hrun
    cases hrun
  · obtain ⟨rfl, -⟩ := Prod.mk.inj (Except.ok.inj (hrun'.symm.trans hrun))
    exact ⟨hs.least, hs.occupied hm⟩

/-- Keys inserted in ascending order, from one on. -/
def ascendingInserts (n : ℕ) : List Call := (List.range n).map fun k => .insert (k + 1 : ℕ) ⟨0, k⟩

/-- Seven keys, and a removal for which a neighbour lends an entry. -/
theorem calls_occupied_order_three : ∃ t outs,
    calls (new 3) (ascendingInserts 7 ++ [.remove 7]) = .ok (t, outs) ∧ t.minInternalKeys = 1 ∧
      Occupied t := by
  have hmeets : Machine.Meets (fun t c => ∀ key, c = .remove key → t.starves key = false) call
      (new 3) (ascendingInserts 7 ++ [.remove 7]) := by
    rintro as₁ c as₂ heq t outs hrun key rfl
    have hnot : Call.remove key ∉ ascendingInserts 7 := by simp [ascendingInserts]
    obtain ⟨rfl, hlast⟩ : as₁ = ascendingInserts 7 ∧ [Call.remove 7] = .remove key :: as₂ := by
      rcases List.append_eq_append_iff.mp heq with ⟨rest, rfl, hrest⟩ | ⟨rest, hrest, htail⟩
      · cases rest with
        | nil => exact ⟨List.append_nil _, hrest⟩
        | cons c rest =>
          have hlen := congrArg List.length hrest
          simp at hlen
      · cases rest with
        | nil => exact ⟨by rw [hrest, List.append_nil], htail.symm⟩
        | cons c rest =>
          obtain ⟨rfl, -⟩ := List.cons.inj htail
          exact absurd (by rw [hrest]; simp) hnot
    obtain rfl := Call.remove.inj (List.cons.inj hlast).1
    have hno : ((calls (new 3) (ascendingInserts 7)).map fun r => r.1.starves 7).toOption =
        some false := by decide +kernel
    rw [calls, hrun] at hno
    exact Option.some.inj hno
  have hok : (calls (new 3) (ascendingInserts 7 ++ [.remove 7])).isOk = true := by decide +kernel
  cases hrun : calls (new 3) (ascendingInserts 7 ++ [.remove 7]) with
  | error e =>
    rw [hrun] at hok
    cases hok
  | ok r => exact ⟨r.1, r.2, rfl, calls_occupied (le_refl 3) _ hmeets _ (List.prefix_refl _) r.1 r.2 hrun⟩

/-- The last two of seven keys removed: the second removal merges two leaves and leaves their
parent, which is not the root, without a key. -/
theorem calls_starve : ∃ t outs,
    calls (new 3) (ascendingInserts 7 ++ [.remove 7, .remove 6]) = .ok (t, outs) ∧
      (t.nd 5).size = 0 ∧ t.minInternalKeys = 1 ∧ ¬ Occupied t := by
  have hcells : ((calls (new 3) (ascendingInserts 7 ++ [.remove 7, .remove 6])).map fun r =>
      (r.1.rootIdx, r.1.minInternalKeys, (r.1.nd 6).type, (r.1.nd 6).childIndices, (r.1.nd 5).type,
        (r.1.nd 5).size)).toOption = some (some 6, 1, .internal, [2, 5], .internal, 0) := by
    decide +kernel
  cases hrun : calls (new 3) (ascendingInserts 7 ++ [.remove 7, .remove 6]) with
  | error e =>
    rw [hrun] at hcells
    cases hcells
  | ok r =>
    rw [hrun] at hcells
    simp only [Except.map, Except.toOption, Option.some.injEq, Prod.mk.injEq] at hcells
    obtain ⟨hroot, hmin, htype, hchildren, htype', hsize⟩ := hcells
    refine ⟨r.1, r.2, rfl, hsize, hmin, fun hocc => ?_⟩
    have hb : Below r.1 6 1 5 := .child .refl htype (by rw [hchildren]; simp)
    have hle := hocc hroot hb htype' (by decide)
    omega

end MiniDB.BPlusTree
