import MiniDB.Index.Occupancy

/-!
# The cells of the tree

A node that was merged away keeps its cell, so the vector of nodes only grows, and one insertion may
split a node on every level. Still the tree never has more than twice as many cells as keys were
ever inserted. Every cell is counted with the children it has beyond those a half gets when it is
cut: a child that comes to a node pays for it in advance, and the cut of an overfull node sets free
at least the cell of its right half.

## Main definitions

* `Fanned`: the children of a node outnumber its keys, or it has none
* `credit`, `price`: the children of a node beyond a half, and all cells with their credit
* `Priced M c t`: the tree costs at most `c`

## Main results

* `Priced.insert`, `Priced.remove`: what the calls cost
* `calls_cells`: the cells after every run
-/

namespace MiniDB.BPlusTree

variable {t t' : BPlusTree} {M c i j l : ℕ} {n n' : BPlusNode} {key : ℤ} {value : RID}

/-- The children of a node outnumber its keys, or it has none, as a leaf. -/
structure Fanned (n : BPlusNode) : Prop where
  leaf : n.type = .leaf → n.childIndices = []
  size_lt : n.childIndices ≠ [] → n.size < n.childIndices.length
  keys_lt : n.childIndices ≠ [] → n.keys.length < n.childIndices.length

/-- The children of a node beyond those that a half gets. -/
def credit (M : ℕ) (n : BPlusNode) : ℕ := n.childIndices.length - ((M + 1) / 2 + 1)

/-- The number of cells, with their credit. -/
def price (M : ℕ) (t : BPlusTree) : ℕ := (t.nodes.map fun n => 1 + credit M n).sum

/-- A tree with room for `M` keys in an internal node that costs at most `c`. -/
structure Priced (M c : ℕ) (t : BPlusTree) : Prop where
  two_le : 2 ≤ M
  most : t.maxInternalKeys = M
  cells : ∀ i < t.nodes.length, Fanned (t.nd i)
  price_le : price M t ≤ c

theorem length_le_price : t.nodes.length ≤ price M t := by
  unfold price
  induction t.nodes with
  | nil => exact Nat.le_refl 0
  | cons n nodes ih =>
    rw [List.length_cons, List.map_cons, List.sum_cons]
    omega

/-- A node without children is fanned and has no credit. -/
theorem Fanned.of_nil (h : n.childIndices = []) : Fanned n :=
  ⟨fun _ => h, fun hne => absurd h hne, fun hne => absurd h hne⟩

theorem credit_nil (h : n.childIndices = []) : credit M n = 0 := by
  rw [credit, h, List.length_nil, Nat.zero_sub]

/-- The price after a change of one cell. -/
theorem price_setNode (hi : i < t.nodes.length) :
    price M (t.setNode i n) + credit M (t.nd i) = price M t + credit M n := by
  have hnd : t.nd i = t.nodes[i] := by simp [nd, hi]
  rw [hnd]
  show ((t.nodes.set i n).map _).sum + _ = (t.nodes.map _).sum + _
  generalize t.nodes = nodes at hi
  clear hnd
  induction nodes generalizing i with
  | nil => exact absurd hi (Nat.not_lt_zero i)
  | cons m nodes ih =>
    cases i with
    | zero =>
      simp only [List.set_cons_zero, List.map_cons, List.sum_cons, List.getElem_cons_zero]
      omega
    | succ i =>
      simp only [List.set_cons_succ, List.map_cons, List.sum_cons, List.getElem_cons_succ]
      have := ih (Nat.lt_of_succ_lt_succ hi)
      omega

/-- A node with one child more. -/
theorem insertChild_fanned {r : ℕ} (h : Fanned n) (hrun : BPlusNode.insertChild n key r = .ok n') :
    n'.childIndices.length = n.childIndices.length + 1 ∧ Fanned n' ∧
      n.size < n.childIndices.length ∧ n.keys.length < n.childIndices.length := by
  obtain ⟨hlen, hsize, htype, -⟩ := insertChild_inv hrun
  simp only [BPlusNode.insertChild, Machine.bind_eq_ok] at hrun
  obtain ⟨keys, -, children, hchildren, hn⟩ := hrun
  obtain rfl := Except.ok.inj hn
  have hne : n.childIndices ≠ [] := by
    intro hnil
    rw [hnil, Vec.insert, if_neg (by simp)] at hchildren
    cases hchildren
  have hgrown : children.length = n.childIndices.length + 1 := Vec.length_of_insert hchildren
  have h₁ := h.size_lt hne
  have h₂ := h.keys_lt hne
  refine ⟨hgrown, ⟨fun hleaf => absurd (h.leaf hleaf) hne, fun _ => ?_, fun _ => ?_⟩, h₁, h₂⟩
  · show n.size + 1 < children.length
    omega
  · rw [hlen]
    show _ < children.length
    omega

/-- A node that lends a key. -/
theorem Fanned.counted (h : Fanned n) (hcount : Counted (· - 1) n n') : Fanned n' := by
  refine ⟨fun hleaf => ?_, fun hne => ?_, fun hne => ?_⟩
  · rw [hcount.children]
    exact h.leaf (hcount.type ▸ hleaf)
  · rw [hcount.children] at hne ⊢
    rw [hcount.size]
    exact (Nat.sub_le _ 1).trans_lt (h.size_lt hne)
  · rw [hcount.children] at hne ⊢
    rw [hcount.keys]
    exact (Nat.sub_le _ 1).trans_lt (h.keys_lt hne)

theorem insertEntry_leaf (hrun : BPlusNode.insertEntry n key value = .ok n') :
    n'.childIndices = n.childIndices ∧ n'.type = n.type := by
  simp only [BPlusNode.insertEntry, Machine.bind_eq_ok] at hrun
  obtain ⟨keys, -, values, -, hn⟩ := hrun
  obtain rfl := Except.ok.inj hn
  exact ⟨rfl, rfl⟩

namespace Priced

theorem mono {c' : ℕ} (h : Priced M c t) (hle : c ≤ c') : Priced M c' t :=
  ⟨h.two_le, h.most, h.cells, h.price_le.trans hle⟩

/-- Fields that are neither bounds nor cells do not matter. -/
theorem congr (h : Priced M c t) (hnodes : t'.nodes = t.nodes)
    (hmost : t'.maxInternalKeys = t.maxInternalKeys) : Priced M c t' := by
  refine ⟨h.two_le, hmost.trans h.most, fun i hi => ?_, ?_⟩
  · rw [nd, hnodes]
    exact h.cells i (hnodes ▸ hi)
  · rw [price, hnodes]
    exact h.price_le

/-- A change of one cell: its credit is exchanged. -/
theorem setNode {c' : ℕ} (h : Priced M c t) (hi : i < t.nodes.length) (hn : Fanned n)
    (hpay : c + credit M n ≤ c' + credit M (t.nd i)) : Priced M c' (t.setNode i n) := by
  refine ⟨h.two_le, h.most, fun j hj => ?_, ?_⟩
  · rw [length_setNode] at hj
    rw [nd_setNode hi]
    split
    · exact hn
    · exact h.cells j hj
  · have hset := price_setNode (M := M) (n := n) hi
    have hle := h.price_le
    omega

/-- A change of one cell that gives it no child. -/
theorem modify {f : BPlusNode → Except Fault BPlusNode} (h : Priced M c t)
    (hrun : t.modify i f = .ok t')
    (hf : ∀ n, Fanned (t.nd i) → f (t.nd i) = .ok n →
      Fanned n ∧ n.childIndices.length ≤ (t.nd i).childIndices.length) : Priced M c t' := by
  obtain ⟨hi, n, hn, rfl⟩ := modify_inv hrun
  obtain ⟨hfan, hle⟩ := hf n (h.cells i hi) hn
  apply h.setNode hi hfan
  unfold credit
  omega

/-- A change of other fields. -/
theorem keep {f : BPlusNode → BPlusNode} (h : Priced M c t)
    (hrun : t.modify i (fun n => return f n) = .ok t')
    (hchildren : (f (t.nd i)).childIndices = (t.nd i).childIndices)
    (hkeys : (f (t.nd i)).keys = (t.nd i).keys) (hsize : (f (t.nd i)).size = (t.nd i).size)
    (htype : (f (t.nd i)).type = (t.nd i).type) :
    Priced M c t' ∧ ∀ j, (t'.nd j).size = (t.nd j).size ∧
      (t'.nd j).childIndices = (t.nd j).childIndices := by
  obtain ⟨hi, n, hn, rfl⟩ := modify_inv hrun
  obtain rfl := Except.ok.inj hn
  obtain ⟨hleaf, hsize_lt, hkeys_lt⟩ := h.cells i hi
  refine ⟨h.setNode hi ⟨?_, ?_, ?_⟩ ?_, fun j => ?_⟩
  · rw [htype, hchildren]
    exact hleaf
  · rw [hsize, hchildren]
    exact hsize_lt
  · rw [hkeys, hchildren]
    exact hkeys_lt
  · rw [credit, credit, hchildren]
  · rw [nd_setNode hi]
    split
    case isTrue hj => rw [hj]; exact ⟨hsize, hchildren⟩
    case isFalse => exact ⟨rfl, rfl⟩

/-- A change of a leaf. -/
theorem modifyLeaf {f : BPlusNode → Except Fault BPlusNode} (h : Priced M c t)
    (hrun : t.modify i f = .ok t') (hleaf : (t.nd i).type = .leaf)
    (hf : ∀ n, f (t.nd i) = .ok n → n.childIndices = (t.nd i).childIndices) : Priced M c t' := by
  refine h.modify hrun fun n hfan hn => ?_
  have hnil : n.childIndices = [] := (hf n hn).trans (hfan.leaf hleaf)
  exact ⟨.of_nil hnil, by rw [hnil]; exact Nat.zero_le _⟩

/-- A new cell, written at once. -/
theorem allocate (h : Priced M c t) {type : BNodeType} {f : BPlusNode → Except Fault BPlusNode}
    (hrun : (t.allocateNode type).1.modify t.nodes.length f = .ok t')
    (hf : ∀ n, f { type := type, pageId := t.nodes.length } = .ok n →
      Fanned n ∧ credit M n = j) :
    Priced M (c + 1 + j) t' ∧ ∀ k < t.nodes.length, t'.nd k = t.nd k := by
  obtain ⟨hi, n, hn, rfl⟩ := modify_inv hrun
  have hnew : (t.allocateNode type).1.nd t.nodes.length = { type := type, pageId := t.nodes.length } := by
    rw [nd_allocateNode_eq, Function.update_self]
  obtain ⟨hfan, hcredit⟩ := hf n (hnew ▸ hn)
  have halloc : Priced M (c + 1) (t.allocateNode type).1 := by
    refine ⟨h.two_le, h.most, fun k hk => ?_, ?_⟩
    · rw [length_allocateNode] at hk
      rcases Nat.lt_succ_iff_lt_or_eq.mp hk with hk | rfl
      · rw [nd_allocateNode_eq, Function.update_of_ne (Nat.ne_of_lt hk)]
        exact h.cells k hk
      · rw [hnew]
        exact .of_nil rfl
    · have hle := h.price_le
      show ((t.nodes ++ [_]).map _).sum ≤ _
      rw [List.map_append, List.sum_append, List.map_singleton, List.sum_singleton, credit_nil rfl]
      exact Nat.add_le_add_right hle 1
  constructor
  · apply halloc.setNode hi hfan
    rw [hcredit, hnew, credit_nil rfl]
    exact Nat.le_refl _
  · intro k hk
    rw [nd_setNode hi, if_neg (Nat.ne_of_lt hk), nd_allocateNode_eq,
      Function.update_of_ne (Nat.ne_of_lt hk)]

/-! ## Insertion -/

theorem adopt {p : ℕ} : ∀ {children : List ℕ} {t : BPlusTree}, Priced M c t →
    t.adopt children p = .ok t' →
      Priced M c t' ∧ ∀ j, (t'.nd j).childIndices = (t.nd j).childIndices := by
  intro children
  induction children with
  | nil =>
    intro t h hrun
    obtain rfl := Except.ok.inj hrun
    exact ⟨h, fun _ => rfl⟩
  | cons child children ih =>
    intro t h hrun
    rw [BPlusTree.adopt, List.foldlM_cons, Machine.bind_eq_ok] at hrun
    obtain ⟨t₁, h₁, hrun⟩ := hrun
    obtain ⟨hp₁, hsame₁⟩ := h.keep h₁ rfl rfl rfl rfl
    obtain ⟨hp, hsame⟩ := ih hp₁ hrun
    exact ⟨hp, fun j => (hsame j).trans (hsame₁ j).2⟩

/-- An overfull internal node is cut into halves, at no cost. -/
theorem splitNode (h : Priced M c t) (hfull : M ≤ (t.nd i).size) {k : ℤ} {r : ℕ}
    (hrun : t.splitNode i key r = .ok (t', k, j)) : Priced M c t' := by
  simp only [BPlusTree.splitNode, Machine.bind_eq_ok] at hrun
  obtain ⟨t₁, h₁, node, hnode, promoteKey, -, keys, hkeys, children, hchildren, t₂, h₂, t₃, h₃, t₄, h₄,
    node', -, t₅, h₅, heq⟩ := hrun
  obtain ⟨rfl, -⟩ := Prod.mk.inj (Except.ok.inj heq)
  obtain ⟨hi, n₁, hn₁, rfl⟩ := modify_inv h₁
  obtain ⟨hgrown, hfan, hmany⟩ := insertChild_fanned (h.cells i hi) hn₁
  obtain ⟨hlen, hsize, -, -⟩ := insertChild_inv hn₁
  obtain rfl : node = n₁ := by
    rw [(node_inv hnode).2, nd_setNode hi, if_pos rfl]
  have htwo := h.two_le
  -- The child pays for itself,
  have hp₁ : Priced M (c + 1) (t.setNode i node) := by
    apply h.setNode hi hfan
    unfold credit
    omega
  -- the right half is a new cell,
  obtain ⟨hp₂, hsame₂⟩ := hp₁.allocate h₂ (j := children.length - ((M + 1) / 2 + 1)) fun n hn => by
    obtain rfl := Except.ok.inj hn
    have hright := Vec.length_of_suffix hchildren
    have hright' := Vec.length_of_suffix hkeys
    refine ⟨⟨fun htype => (by cases htype), fun _ => ?_, fun _ => ?_⟩, rfl⟩
    · show keys.length < children.length
      omega
    · show keys.length < children.length
      omega
  -- and the left half gives up its credit.
  obtain ⟨hp₃, hsame₃⟩ := hp₂.adopt h₃
  obtain ⟨hi₄, n₄, hn₄, rfl⟩ := modify_inv h₄
  have hbefore : (t₃.nd i).childIndices = node.childIndices := by
    rw [hsame₃ i, hsame₂ i (by rw [length_setNode]; exact hi), nd_setNode hi, if_pos rfl]
  obtain rfl := Except.ok.inj hn₄
  have hleft : (Vec.resize (t₃.nd i).childIndices (node.size / 2 + 1) 0).length = node.size / 2 + 1 :=
    Vec.length_resize _ _ _
  have hright := Vec.length_of_suffix hchildren
  refine ((hp₃.setNode hi₄ ⟨fun htype => ?_, fun _ => ?_, fun _ => ?_⟩ ?_).keep h₅ rfl rfl rfl rfl).1
  · have hnil := (hp₃.cells i hi₄).leaf htype
    rw [hbefore, ← List.length_eq_zero_iff] at hnil
    omega
  · show node.size / 2 < _
    rw [hleft]
    omega
  · show (Vec.resize _ _ _).length < _
    rw [hleft, Vec.length_resize]
    omega
  · unfold credit
    show _ + ((Vec.resize _ _ _).length - _) ≤ _
    rw [hleft, hbefore]
    omega

/-- A new root costs its cell. -/
theorem growRoot (h : Priced M c t) {left right : ℕ}
    (hrun : t.growRoot left key right = .ok t') : Priced M (c + 1) t' := by
  simp only [BPlusTree.growRoot, Machine.bind_eq_ok] at hrun
  obtain ⟨t₁, h₁, t₂, h₂, t₃, h₃, heq⟩ := hrun
  obtain rfl := Except.ok.inj heq
  have htwo := h.two_le
  obtain ⟨hp₁, -⟩ := h.allocate h₁ (j := 0) fun n hn => by
    obtain rfl := Except.ok.inj hn
    refine ⟨⟨fun htype => (by cases htype), fun _ => Nat.one_lt_two, fun _ => Nat.one_lt_two⟩, ?_⟩
    show 2 - ((M + 1) / 2 + 1) = 0
    omega
  exact ((hp₁.keep h₂ rfl rfl rfl rfl).1.keep h₃ rfl rfl rfl rfl).1.congr rfl rfl

/-- A new child costs one unit, however far up the tree is cut. -/
theorem insertIntoParent (fuel : ℕ) : (∀ {c : ℕ} {t : BPlusTree} {left : ℕ} {key : ℤ} {right : ℕ},
    Priced M c t → BPlusTree.insertIntoParent fuel t left key right = .ok t' →
      Priced M (c + 1) t') ∧
    ∀ {c : ℕ} {t : BPlusTree} {i : ℕ} {key : ℤ} {right : ℕ}, Priced M c t → M ≤ (t.nd i).size →
      splitInternal fuel t i key right = .ok t' → Priced M (c + 1) t' := by
  -- The climb goes on in the node that was split, so both parts are proved together.
  induction fuel with
  | zero =>
    refine ⟨fun _ hrun => ?_, fun _ _ hrun => ?_⟩
    · rw [BPlusTree.insertIntoParent] at hrun
      cases hrun
    · rw [splitInternal] at hrun
      cases hrun
  | succ fuel ih =>
    constructor
    · intro c t left key right h hrun
      rw [BPlusTree.insertIntoParent, Machine.bind_eq_ok] at hrun
      obtain ⟨node, hnode, hrun⟩ := hrun
      split at hrun
      case isTrue => exact h.growRoot hrun
      case isFalse =>
        simp only [Machine.bind_eq_ok] at hrun
        obtain ⟨p, -, parent, hparent, hrun⟩ := hrun
        split at hrun
        case isTrue =>
          obtain ⟨t₁, h₁, hrun⟩ := Machine.bind_eq_ok.mp hrun
          obtain ⟨hi, n, hn, rfl⟩ := modify_inv h₁
          obtain ⟨hgrown, hfan, -⟩ := insertChild_fanned (h.cells p hi) hn
          refine ((h.setNode hi hfan ?_).keep hrun rfl rfl rfl rfl).1
          unfold credit
          omega
        case isFalse hfull =>
          obtain ⟨t₁, h₁, hrun⟩ := Machine.bind_eq_ok.mp hrun
          obtain ⟨hp₁, hsame⟩ := h.keep h₁ rfl rfl rfl rfl
          refine ih.2 hp₁ ?_ hrun
          rw [(hsame p).1, ← (node_inv hparent).2, ← h.most]
          exact Nat.not_lt.mp hfull
    · intro c t i key right h hfull hrun
      rw [splitInternal, Machine.bind_eq_ok] at hrun
      obtain ⟨⟨t₁, k, j⟩, h₁, hrun⟩ := hrun
      exact ih.1 (h.splitNode hfull h₁) hrun

/-- A full leaf is cut into halves, at the cost of a cell. -/
theorem splitLeaf (h : Priced M c t) (hleaf : (t.nd l).type = .leaf) {k : ℤ}
    (hrun : t.splitLeaf l key value = .ok (t', k, j)) : Priced M (c + 1) t' := by
  simp only [BPlusTree.splitLeaf, Machine.bind_eq_ok] at hrun
  obtain ⟨t₁, h₁, leaf, -, keys, -, values, -, t₂, h₂, t₃, h₃, leaf', -, t₄, h₄, t₅, h₅, newLeaf, -,
    promoteKey, -, leaf'', -, t₆, h₆, heq⟩ := hrun
  obtain ⟨rfl, -⟩ := Prod.mk.inj (Except.ok.inj heq)
  have hp₁ := h.modifyLeaf h₁ hleaf fun n hn => (insertEntry_leaf hn).1
  obtain ⟨hl, n₁, hn₁, rfl⟩ := modify_inv h₁
  obtain ⟨hp₂, hsame⟩ := hp₁.allocate h₂ (j := 0) fun n hn => by
    obtain rfl := Except.ok.inj hn
    exact ⟨.of_nil rfl, credit_nil rfl⟩
  have hleaf₂ : (t₂.nd l).type = .leaf := by
    rw [hsame l (by rw [length_setNode]; exact hl), nd_setNode hl, if_pos rfl, (insertEntry_leaf hn₁).2]
    exact hleaf
  have hp₃ := hp₂.modifyLeaf h₃ hleaf₂ fun n hn => by
    obtain rfl := Except.ok.inj hn
    rfl
  exact (((hp₃.keep h₄ rfl rfl rfl rfl).1.keep h₅ rfl rfl rfl rfl).1.keep h₆ rfl rfl rfl rfl).1

/-- An insertion costs at most two units, and one that finds its key nothing. -/
theorem insert (h : Priced M c t) {b : Bool} (hrun : t.insert key value = .ok (t', b)) :
    Priced M (c + if b then 2 else 0) t' := by
  rw [BPlusTree.insert, Machine.bind_eq_ok] at hrun
  obtain ⟨leafIdx, hfind, hrun⟩ := hrun
  split at hrun
  case h_1 =>
    simp only [plant, Machine.bind_eq_ok] at hrun
    obtain ⟨t₂, ⟨t₁, h₁, heq⟩, heq'⟩ := hrun
    obtain rfl := Except.ok.inj heq
    obtain ⟨rfl, rfl⟩ := Prod.mk.inj (Except.ok.inj heq')
    obtain ⟨hp₁, -⟩ := h.allocate h₁ (j := 0) fun n hn => by
      obtain rfl := Except.ok.inj hn
      exact ⟨.of_nil rfl, credit_nil rfl⟩
    exact (hp₁.mono (Nat.le_succ (c + 1))).congr rfl rfl
  case h_2 l =>
    simp only [Machine.bind_eq_ok] at hrun
    obtain ⟨leaf, -, found, -, hrun⟩ := hrun
    split at hrun
    case h_1 =>
      obtain ⟨rfl, rfl⟩ := Prod.mk.inj (Except.ok.inj hrun)
      exact h.mono (Nat.le_add_right ..)
    case h_2 =>
      have hleaf := findLeaf_type hfind
      split at hrun
      case isTrue =>
        obtain ⟨t₁, h₁, hrun⟩ := Machine.bind_eq_ok.mp hrun
        obtain ⟨rfl, rfl⟩ := Prod.mk.inj (Except.ok.inj hrun)
        have hp₁ := h.modifyLeaf h₁ hleaf fun n hn => (insertEntry_leaf hn).1
        exact (hp₁.mono (Nat.le_add_right c 2)).congr rfl rfl
      case isFalse =>
        obtain ⟨t₁, h₁, hrun⟩ := Machine.bind_eq_ok.mp hrun
        obtain ⟨rfl, rfl⟩ := Prod.mk.inj (Except.ok.inj hrun)
        rw [splitLeafAndInsert, Machine.bind_eq_ok] at h₁
        obtain ⟨⟨t₂, k, j⟩, h₂, h₁⟩ := h₁
        exact ((insertIntoParent _).1 (h.splitLeaf hleaf h₂) h₁).congr rfl rfl

/-! ## Removal -/

/-- A borrowed entry costs nothing. -/
theorem lend (h : Priced M c t) {p s : ℕ} {t₁ t₂ : BPlusTree} (hlend : Lends t l p s t₁ t₂ t') :
    Priced M c t' := by
  obtain ⟨f, h₁, hf⟩ := hlend.borrow
  have hp₁ := h.modifyLeaf h₁ hlend.leaf fun n hn => (hf _ n hn).children
  obtain ⟨g, h₂, hg⟩ := hlend.lend
  have hp₂ := hp₁.modify h₂ fun n hfan hn =>
    ⟨hfan.counted (hg _ n hn), by rw [(hg _ n hn).children]⟩
  obtain ⟨pos, sep, h₃⟩ := hlend.separator
  refine hp₂.modify h₃ fun n hfan hn => ?_
  obtain ⟨keys, hkeys, heq⟩ := Machine.bind_eq_ok.mp hn
  obtain rfl := Except.ok.inj heq
  exact ⟨⟨hfan.leaf, hfan.size_lt, fun hne => (Vec.length_of_set hkeys).trans_lt (hfan.keys_lt hne)⟩,
    Nat.le_refl _⟩

theorem appendLeaf (h : Priced M c t) {dst src : ℕ} (hdst : (t.nd dst).type = .leaf)
    (hrun : t.appendLeaf dst src = .ok t') : Priced M c t' := by
  simp only [BPlusTree.appendLeaf, Machine.bind_eq_ok] at hrun
  obtain ⟨node, -, keys, -, values, -, hrun⟩ := hrun
  refine h.modifyLeaf hrun hdst fun n hn => ?_
  obtain rfl := Except.ok.inj hn
  rfl

/-- A child that goes gives its credit back. -/
theorem dropChild (h : Priced M c t) {p keyPos childPos : ℕ}
    (hrun : t.dropChild p keyPos childPos = .ok t') : Priced M c t' := by
  refine h.modify hrun fun n hfan hn => ?_
  simp only [Machine.bind_eq_ok] at hn
  obtain ⟨keys, hkeys, children, hchildren, hn⟩ := hn
  obtain rfl := Except.ok.inj hn
  have hne : (t.nd p).childIndices ≠ [] := by
    intro hnil
    rw [hnil, Vec.erase, List.length_nil, if_neg (Nat.not_lt_zero _)] at hchildren
    cases hchildren
  have hlen := Vec.length_of_erase hchildren
  have hlen' := Vec.length_of_erase hkeys
  have h₁ := hfan.size_lt hne
  have h₂ := hfan.keys_lt hne
  refine ⟨⟨fun hleaf => absurd (hfan.leaf hleaf) hne, fun hnew => ?_, fun hnew => ?_⟩, ?_⟩
  · have hpos : 0 < children.length := List.length_pos_iff.mpr hnew
    show (t.nd p).size - 1 < children.length
    omega
  · have hpos : 0 < children.length := List.length_pos_iff.mpr hnew
    show keys.length < children.length
    omega
  · show children.length ≤ _
    omega

/-- Neither does repairing a leaf cost anything; an internal node is not repaired. -/
theorem handleUnderflow {fuel : ℕ} : ∀ {t : BPlusTree} {i : ℕ}, Priced M c t →
    ((t.nd i).type = .leaf → ∃ p, Siblings t i p) →
      BPlusTree.handleUnderflow fuel t i = .ok t' → Priced M c t' := by
  induction fuel with
  | zero =>
    intro t i h hsib hrun
    rw [BPlusTree.handleUnderflow] at hrun
    cases hrun
  | succ fuel ih =>
    intro t i h hsib hrun
    rw [BPlusTree.handleUnderflow, Machine.bind_eq_ok] at hrun
    obtain ⟨node, hnode, hrun⟩ := hrun
    obtain ⟨-, rfl⟩ := node_inv hnode
    split at hrun
    case isTrue =>
      obtain rfl := Except.ok.inj hrun
      exact h
    case isFalse =>
      simp only [Machine.bind_eq_ok] at hrun
      obtain ⟨p, hp, parent, hparent, hrun⟩ := hrun
      split at hrun
      case h_1 =>
        obtain rfl := Except.ok.inj hrun
        exact h
      case h_2 pos _ =>
        obtain ⟨borrowed, hleft, hrun⟩ := Machine.bind_eq_ok.mp hrun
        cases borrowed with
        | some t₁ =>
          obtain rfl := Except.ok.inj hrun
          obtain ⟨s, t₂, t₃, hlend⟩ := borrowLeft_inv hleft
          exact h.lend hlend
        | none =>
          obtain ⟨borrowed, hright, hrun⟩ := Machine.bind_eq_ok.mp hrun
          cases borrowed with
          | some t₁ =>
            obtain rfl := Except.ok.inj hrun
            obtain ⟨s, t₂, t₃, hlend⟩ := borrowRight_inv hright
            exact h.lend hlend
          | none =>
            cases htype : (t.nd i).type with
            | internal =>
              simp only [htype] at hrun
              obtain rfl := Except.ok.inj hrun
              exact h
            | leaf =>
              obtain ⟨q, hsiblings⟩ := hsib htype
              obtain rfl : q = p := by
                rw [hsiblings.parent] at hp
                exact Except.ok.inj hp
              simp only [htype, Machine.bind_eq_ok] at hrun
              obtain ⟨t₁, h₁, parent', hparent', hrun⟩ := hrun
              obtain ⟨dst, src, keyPos, childPos, t₂, hdst, h₂, -, h₃⟩ := mergeLeaf_inv hsiblings h₁
              have hp₁ := (h.appendLeaf hdst h₂).dropChild h₃
              split at hrun
              case isFalse =>
                obtain rfl := Except.ok.inj hrun
                exact hp₁
              case isTrue =>
                apply ih hp₁ ?_ hrun
                intro hleaf
                rw [mergeLeaf_type hsiblings h₁] at hleaf
                cases hleaf

/-- Nor does the end of a removal. -/
theorem collapseRoot (h : Priced M c t) (hrun : t.collapseRoot = .ok t') : Priced M c t' := by
  unfold BPlusTree.collapseRoot at hrun
  split at hrun
  case h_1 =>
    obtain rfl := Except.ok.inj hrun
    exact h
  case h_2 root _ =>
    obtain ⟨node, -, hrun⟩ := Machine.bind_eq_ok.mp hrun
    split at hrun
    case isFalse =>
      obtain rfl := Except.ok.inj hrun
      exact h
    case isTrue =>
      simp only [Machine.bind_eq_ok] at hrun
      obtain ⟨newRoot, -, t₁, h₁, heq⟩ := hrun
      obtain rfl := Except.ok.inj heq
      exact (h.keep h₁ rfl rfl rfl rfl).1.congr rfl rfl

theorem clearRoot (h : Priced M c t) (hrun : t.clearRoot = .ok t') : Priced M c t' := by
  unfold BPlusTree.clearRoot at hrun
  split at hrun
  case h_1 =>
    obtain rfl := Except.ok.inj hrun
    exact h
  case h_2 root _ =>
    obtain ⟨node, -, hrun⟩ := Machine.bind_eq_ok.mp hrun
    split at hrun
    case isFalse =>
      obtain rfl := Except.ok.inj hrun
      exact h
    case isTrue =>
      obtain rfl := Except.ok.inj hrun
      exact h.congr rfl rfl

/-- A removal costs nothing. -/
theorem remove (h : Priced M c t) {map : Finmap fun _ : ℤ => RID} (hmodels : Models t map) {b : Bool}
    (hrun : t.remove key = .ok (t', b)) : Priced M c t' := by
  rw [BPlusTree.remove, Machine.bind_eq_ok] at hrun
  obtain ⟨found, hfind, hrun⟩ := hrun
  cases found with
  | none =>
    obtain ⟨rfl, -⟩ := Prod.mk.inj (Except.ok.inj hrun)
    exact h
  | some l =>
    obtain ⟨removed, hremove, hrun⟩ := Machine.bind_eq_ok.mp hrun
    cases removed with
    | none =>
      obtain ⟨rfl, -⟩ := Prod.mk.inj (Except.ok.inj hrun)
      exact h
    | some t₁ =>
      obtain ⟨-, ⟨hnone, -⟩ | ⟨r, H, hwf, -⟩⟩ := hmodels
      · rw [findLeaf, hnone] at hfind
        cases hfind
      obtain ⟨hl, -, n, rfl, -, -, htype, hroot, hparent, hchildren⟩ := removeFromLeaf_inv hremove
      have hnil : n.childIndices = [] := hchildren.trans ((h.cells l hl).leaf (findLeaf_type hfind))
      have hp₁ : Priced M c { t.setNode l n with entryCount := (t.setNode l n).entryCount - 1 } :=
        (h.setNode hl (.of_nil hnil)
          (by rw [credit_nil hnil]; exact Nat.le_add_right _ _)).congr rfl rfl
      simp only [Machine.bind_eq_ok] at hrun
      obtain ⟨leaf, hnode, hrun⟩ := hrun
      obtain ⟨-, rfl⟩ := node_inv hnode
      have hend : ∀ {t₂ : BPlusTree}, Priced M c t₂ →
          (t₂.collapseRoot >>= fun t => t.clearRoot >>= fun t => pure (t, true)) = .ok (t', b) →
          Priced M c t' := by
        intro t₂ hp₂ hrest
        simp only [Machine.bind_eq_ok] at hrest
        obtain ⟨t₃, h₃, t₄, h₄, heq⟩ := hrest
        obtain ⟨rfl, -⟩ := Prod.mk.inj (Except.ok.inj heq)
        exact (hp₂.collapseRoot h₃).clearRoot h₄
      split at hrun
      case isFalse => exact hend hp₁ hrun
      case isTrue hcond =>
        obtain ⟨t₂, h₂, hrun⟩ := Machine.bind_eq_ok.mp hrun
        have hndl : BPlusTree.nd
            { t.setNode l n with entryCount := (t.setNode l n).entryCount - 1 } l = n :=
          (nd_setNode hl).trans (if_pos rfl)
        rw [hndl, hroot] at hcond
        simp only [Bool.and_eq_true, Bool.not_eq_true'] at hcond
        obtain ⟨p, hsib, -, -⟩ := hwf.siblings hfind hcond.1
        apply hend (hp₁.handleUnderflow (fun _ => ⟨p, ?_⟩) h₂) hrun
        apply hsib.congr
        · intro i hi
          exact (nd_setNode hl).trans (if_neg hi)
        · rw [hndl, htype]
        · rw [hndl, hparent]

end Priced

/-! ## Runs -/

/-- Whether a call is an insertion that returned `true`. -/
def Call.inserted : Call → Bool → ℕ
  | .insert _ _, true => 1
  | _, _ => 0

/-- In every run from the empty tree, there are at most two cells for every insertion that returned
`true`. -/
theorem calls_cells {order : ℕ} (horder : 3 ≤ order) {cs : List Call} {outs : List Bool}
    (hrun : calls (new order) cs = .ok (t, outs)) :
    t.nodes.length ≤ 2 * (List.zipWith Call.inserted cs outs).sum := by
  -- The map is carried along, since a removal needs the tree to be well-formed.
  have hstep : ∀ {s s' : BPlusTree} {a : Call} {b : Bool}, call s a = .ok (s', b) →
      ((∃ map, Models s map) ∧ Priced (order - 1) (price (order - 1) s) s) →
      ((∃ map, Models s' map) ∧ Priced (order - 1) (price (order - 1) s') s') ∧
        price (order - 1) s' ≤ price (order - 1) s + 2 * a.inserted b := by
    rintro s s' a b hcall ⟨⟨map, hm⟩, hp⟩
    have hp' : Priced (order - 1) (price (order - 1) s + 2 * a.inserted b) s' := by
      cases a with
      | insert key value =>
        cases b with
        | false => exact hp.insert hcall
        | true => exact hp.insert hcall
      | remove key => exact (hp.remove hm hcall).mono (Nat.le_add_right ..)
    exact ⟨⟨⟨_, (call_refines.of_ok hm trivial hcall).1⟩, hp'.two_le, hp'.most, hp'.cells, Nat.le_refl _⟩,
      hp'.price_le⟩
  have hstart : Priced (order - 1) (price (order - 1) (new order)) (new order) :=
    ⟨by omega, rfl, nofun, Nat.le_refl _⟩
  obtain ⟨-, hle⟩ := Machine.run_amortized hstep hrun ⟨⟨∅, models_new horder⟩, hstart⟩
  calc t.nodes.length ≤ price (order - 1) t := length_le_price
    _ ≤ 0 + (List.zipWith (fun a b => 2 * Call.inserted a b) cs outs).sum := hle
    _ = 2 * (List.zipWith Call.inserted cs outs).sum := by
      rw [Nat.zero_add, ← List.map_zipWith (f := fun k => 2 * k), List.sum_map_mul_left, List.map_id']

/-- Seven keys in order three, of which two are removed again. -/
theorem calls_cells_order_three : ∃ t outs,
    calls (new 3) (ascendingInserts 7 ++ [.remove 7, .remove 6]) = .ok (t, outs) ∧
      t.nodes.length ≤ 14 := by
  have houts : ((calls (new 3) (ascendingInserts 7 ++ [.remove 7, .remove 6])).map fun r =>
      r.2).toOption = some (List.replicate 9 true) := by decide +kernel
  cases hrun : calls (new 3) (ascendingInserts 7 ++ [.remove 7, .remove 6]) with
  | error e =>
    rw [hrun] at houts
    cases houts
  | ok r =>
    rw [hrun] at houts
    have hall : r.2 = List.replicate 9 true := Option.some.inj houts
    have hle := calls_cells (le_refl 3) hrun
    rw [hall] at hle
    exact ⟨r.1, r.2, rfl, hle.trans (by decide)⟩

end MiniDB.BPlusTree
