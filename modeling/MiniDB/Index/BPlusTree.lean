import MiniDB.Common
import MiniDB.Foundations.Machine
import MiniDB.Foundations.Vec

/-!
# The B+ tree index

`BPlusTree.h` and `BPlusTree.cpp`: a B+ tree from integer keys to record identifiers. All nodes
live in one vector and name each other by their index in it, so a reference `BPlusNode &x =
nodes_[i]` is read as the cell `i`: every use reads the cell again and every change writes it back.
The index `-1` is `none`. Every vector access is checked. A loop or a recursion of the source runs
on fuel, and running out of it is a fault of its own, so that a call which returns is a call that
terminates.

## Main definitions

* `BPlusNode`, `BPlusTree`: the nodes and the tree
* `Fault`: an access to a child list out of range, another access out of range, and fuel
* `search`, `insert`, `remove`, `rangeScan`, `getSize`: the public operations
-/

namespace MiniDB

/-- B+ tree node types. -/
inductive BNodeType
  | internal
  | leaf
deriving DecidableEq, Repr

/-- A B+ tree node, with the initial values of its constructor. -/
structure BPlusNode where
  type : BNodeType := .leaf
  isRoot : Bool := false
  pageId : ℕ := 0
  parentIdx : Option ℕ := none
  size : ℕ := 0
  keys : List ℤ := []
  values : List RID := []
  childIndices : List ℕ := []
  nextLeafIdx : Option ℕ := none
deriving DecidableEq, Repr, Inhabited

/-- The tree: its bounds, its nodes, its root and the number of its entries. -/
structure BPlusTree where
  order : ℕ
  maxLeafKeys : ℕ
  minLeafKeys : ℕ
  maxInternalKeys : ℕ
  minInternalKeys : ℕ
  nodes : List BPlusNode
  rootIdx : Option ℕ
  entryCount : ℕ
deriving DecidableEq, Repr

namespace BPlusTree

/-- What stops a call: a child list accessed out of range, any other vector accessed out of
range, or a loop that outlives its fuel. -/
inductive Fault
  | child
  | access
  | fuel
deriving DecidableEq, Repr

/-- `BPlusTree::BPlusTree(order)`. -/
def new (order : ℕ) : BPlusTree where
  order := order
  maxLeafKeys := order - 1
  minLeafKeys := (order - 1 + 1) / 2
  maxInternalKeys := order - 1
  minInternalKeys := (order + 1) / 2 - 1
  nodes := []
  rootIdx := none
  entryCount := 0

/-- The cell `nodes_[i]`. -/
def node (t : BPlusTree) (i : ℕ) : Except Fault BPlusNode := Vec.get .access t.nodes i

/-- The cell `nodes_[i]` overwritten. -/
def setNode (t : BPlusTree) (i : ℕ) (n : BPlusNode) : BPlusTree :=
  { t with nodes := t.nodes.set i n }

/-- A change made through a reference to the cell `nodes_[i]`. -/
def modify (t : BPlusTree) (i : ℕ) (f : BPlusNode → Except Fault BPlusNode) :
    Except Fault BPlusTree := do
  let n ← t.node i
  return t.setNode i (← f n)

/-- An index that must not be `-1`. -/
def index : Option ℕ → Except Fault ℕ
  | some i => .ok i
  | none => .error .access

/-- `std::lower_bound` on ascending keys: the position of the first key not below `key`. -/
def lowerBound (keys : List ℤ) (key : ℤ) : ℕ := keys.findIdx fun k => key ≤ k

/-- `BPlusTree::allocateNode`. -/
def allocateNode (t : BPlusTree) (type : BNodeType) : BPlusTree × ℕ :=
  ({ t with nodes := t.nodes ++ [{ type := type, pageId := t.nodes.length }] }, t.nodes.length)

/-! ## Search -/

/-- The inner loop of `findLeaf`: from position `i`, skip the keys at most `key`, looking at `n`
more of them. -/
def childSlot (keys : List ℤ) (key : ℤ) : ℕ → ℕ → Except Fault ℕ
  | 0, i => .ok i
  | n + 1, i => do
    let k ← Vec.get .access keys i
    if k ≤ key then childSlot keys key n (i + 1) else return i

/-- The loop of `findLeaf`, from the node `current`. -/
def findLeafFrom (t : BPlusTree) (key : ℤ) : ℕ → ℕ → Except Fault ℕ
  | 0, _ => .error .fuel
  | fuel + 1, current => do
    let node ← t.node current
    match node.type with
    | .leaf => return current
    | .internal =>
      let i ← childSlot node.keys key node.size 0
      let child ← Vec.get .child node.childIndices i
      findLeafFrom t key fuel child

/-- `BPlusTree::findLeaf`. -/
def findLeaf (t : BPlusTree) (key : ℤ) : Except Fault (Option ℕ) :=
  match t.rootIdx with
  | none => return none
  | some root => some <$> findLeafFrom t key t.nodes.length root

/-- The loop of `search` and `insert` over a leaf's keys: the position of `key`, from `i` on among
`n` more keys. -/
def findKey (keys : List ℤ) (key : ℤ) : ℕ → ℕ → Except Fault (Option ℕ)
  | 0, _ => .ok none
  | n + 1, i => do
    let k ← Vec.get .access keys i
    if k = key then return some i else findKey keys key n (i + 1)

/-- `BPlusTree::search`. -/
def search (t : BPlusTree) (key : ℤ) : Except Fault (Option RID) := do
  match ← t.findLeaf key with
  | none => return none
  | some leafIdx =>
    let leaf ← t.node leafIdx
    match ← findKey leaf.keys key leaf.size 0 with
    | none => return none
    | some i => some <$> Vec.get .access leaf.values i

/-! ## Insertion -/

/-- A key and its value at their position in a leaf. -/
def BPlusNode.insertEntry (leaf : BPlusNode) (key : ℤ) (value : RID) : Except Fault BPlusNode := do
  let pos := lowerBound leaf.keys key
  return { leaf with
    keys := ← Vec.insert .access leaf.keys pos key
    values := ← Vec.insert .access leaf.values pos value
    size := leaf.size + 1 }

/-- A separator and the child after it at their position in an internal node. -/
def BPlusNode.insertChild (node : BPlusNode) (key : ℤ) (rightIdx : ℕ) :
    Except Fault BPlusNode := do
  let pos := lowerBound node.keys key
  return { node with
    keys := ← Vec.insert .access node.keys pos key
    childIndices := ← Vec.insert .child node.childIndices (pos + 1) rightIdx
    size := node.size + 1 }

/-- `BPlusTree::insertIntoLeaf`. -/
def insertIntoLeaf (t : BPlusTree) (leafIdx : ℕ) (key : ℤ) (value : RID) :
    Except Fault BPlusTree :=
  t.modify leafIdx fun leaf => BPlusNode.insertEntry leaf key value

/-- The parent links of the children moved to a new internal node. -/
def adopt (t : BPlusTree) (children : List ℕ) (parentIdx : ℕ) : Except Fault BPlusTree :=
  children.foldlM (fun t c => t.modify c fun n => return { n with parentIdx := some parentIdx }) t

/-- The body of `splitInternal` up to its last call: the tree, the promoted key and the new
node. -/
def splitNode (t : BPlusTree) (nodeIdx : ℕ) (key : ℤ) (rightChildIdx : ℕ) :
    Except Fault (BPlusTree × ℤ × ℕ) := do
  let t ← t.modify nodeIdx fun node => BPlusNode.insertChild node key rightChildIdx
  let node ← t.node nodeIdx
  let mid := node.size / 2
  let promoteKey ← Vec.get .access node.keys mid
  let (t, newNodeIdx) := t.allocateNode .internal
  let keys ← Vec.suffix .access node.keys (mid + 1)
  let children ← Vec.suffix .child node.childIndices (mid + 1)
  let t ← t.modify newNodeIdx fun n =>
    return { n with keys := keys, childIndices := children, size := keys.length }
  let t ← t.adopt children newNodeIdx
  let t ← t.modify nodeIdx fun n => return { n with
    keys := Vec.resize n.keys mid 0
    childIndices := Vec.resize n.childIndices (mid + 1) 0
    size := mid }
  let node ← t.node nodeIdx
  let t ← t.modify newNodeIdx fun n => return { n with parentIdx := node.parentIdx }
  return (t, promoteKey, newNodeIdx)

/-- The first branch of `insertIntoParent`: a new root over `leftIdx` and `rightIdx`. -/
def growRoot (t : BPlusTree) (leftIdx : ℕ) (key : ℤ) (rightIdx : ℕ) : Except Fault BPlusTree := do
  let (t, newRootIdx) := t.allocateNode .internal
  let t ← t.modify newRootIdx fun n => return { n with
    isRoot := true
    keys := n.keys ++ [key]
    childIndices := n.childIndices ++ [leftIdx, rightIdx]
    size := 1 }
  let t ← t.modify leftIdx fun n =>
    return { n with isRoot := false, parentIdx := some newRootIdx }
  let t ← t.modify rightIdx fun n => return { n with parentIdx := some newRootIdx }
  return { t with rootIdx := some newRootIdx }

mutual

/-- `BPlusTree::insertIntoParent`. -/
def insertIntoParent : ℕ → BPlusTree → ℕ → ℤ → ℕ → Except Fault BPlusTree
  | 0, _, _, _, _ => .error .fuel
  | fuel + 1, t, leftIdx, key, rightIdx => do
    let left ← t.node leftIdx
    if left.isRoot then
      t.growRoot leftIdx key rightIdx
    else
      let parentIdx ← index left.parentIdx
      let parent ← t.node parentIdx
      if parent.size < t.maxInternalKeys then
        let t ← t.modify parentIdx fun parent => BPlusNode.insertChild parent key rightIdx
        t.modify rightIdx fun n => return { n with parentIdx := some parentIdx }
      else
        let t ← t.modify rightIdx fun n => return { n with parentIdx := some parentIdx }
        splitInternal fuel t parentIdx key rightIdx

/-- `BPlusTree::splitInternal`. -/
def splitInternal : ℕ → BPlusTree → ℕ → ℤ → ℕ → Except Fault BPlusTree
  | 0, _, _, _, _ => .error .fuel
  | fuel + 1, t, nodeIdx, key, rightChildIdx => do
    let (t, promoteKey, newNodeIdx) ← t.splitNode nodeIdx key rightChildIdx
    insertIntoParent fuel t nodeIdx promoteKey newNodeIdx

end

/-- The body of `splitLeafAndInsert` up to its last call: the tree, the promoted key and the new
leaf. -/
def splitLeaf (t : BPlusTree) (leafIdx : ℕ) (key : ℤ) (value : RID) :
    Except Fault (BPlusTree × ℤ × ℕ) := do
  let t ← t.modify leafIdx fun leaf => BPlusNode.insertEntry leaf key value
  let (t, newLeafIdx) := t.allocateNode .leaf
  let leaf ← t.node leafIdx
  let splitPoint := (leaf.size + 1) / 2
  let keys ← Vec.suffix .access leaf.keys splitPoint
  let values ← Vec.suffix .access leaf.values splitPoint
  let t ← t.modify newLeafIdx fun n =>
    return { n with keys := keys, values := values, size := keys.length }
  let t ← t.modify leafIdx fun n => return { n with
    keys := Vec.resize n.keys splitPoint 0
    values := Vec.resize n.values splitPoint ⟨0, 0⟩
    size := splitPoint }
  let leaf ← t.node leafIdx
  let t ← t.modify newLeafIdx fun n => return { n with nextLeafIdx := leaf.nextLeafIdx }
  let t ← t.modify leafIdx fun n => return { n with nextLeafIdx := some newLeafIdx }
  let newLeaf ← t.node newLeafIdx
  let promoteKey ← Vec.get .access newLeaf.keys 0
  let leaf ← t.node leafIdx
  let t ← t.modify newLeafIdx fun n => return { n with parentIdx := leaf.parentIdx }
  return (t, promoteKey, newLeafIdx)

/-- `BPlusTree::splitLeafAndInsert`. -/
def splitLeafAndInsert (t : BPlusTree) (leafIdx : ℕ) (key : ℤ) (value : RID) :
    Except Fault BPlusTree := do
  let fuel := 2 * t.nodes.length + 1
  let (t, promoteKey, newLeafIdx) ← t.splitLeaf leafIdx key value
  insertIntoParent fuel t leafIdx promoteKey newLeafIdx

/-- The first branch of `insert`: a root leaf with one entry. -/
def plant (t : BPlusTree) (key : ℤ) (value : RID) : Except Fault BPlusTree := do
  let (t, rootIdx) := t.allocateNode .leaf
  let t ← t.modify rootIdx fun n => return { n with
    isRoot := true
    keys := n.keys ++ [key]
    values := n.values ++ [value]
    size := 1 }
  return { t with rootIdx := some rootIdx, entryCount := t.entryCount + 1 }

/-- `BPlusTree::insert`: the tree after the call and the value it returns. -/
def insert (t : BPlusTree) (key : ℤ) (value : RID) : Except Fault (BPlusTree × Bool) := do
  match ← t.findLeaf key with
  | none => return (← t.plant key value, true)
  | some leafIdx =>
    let leaf ← t.node leafIdx
    match ← findKey leaf.keys key leaf.size 0 with
    | some _ => return (t, false)
    | none =>
      let t ← if leaf.size < t.maxLeafKeys then t.insertIntoLeaf leafIdx key value
        else t.splitLeafAndInsert leafIdx key value
      return ({ t with entryCount := t.entryCount + 1 }, true)

/-! ## Removal -/

/-- `BPlusTree::removeFromLeaf`. -/
def removeFromLeaf (t : BPlusTree) (leafIdx : ℕ) (key : ℤ) : Except Fault (Option BPlusTree) := do
  let leaf ← t.node leafIdx
  match leaf.keys.idxOf? key with
  | none => return none
  | some pos =>
    let keys ← Vec.erase .access leaf.keys pos
    let values ← Vec.erase .access leaf.values pos
    return some (t.setNode leafIdx { leaf with
      keys := keys, values := values, size := leaf.size - 1 })

/-- `handleUnderflow`, borrowing from the left sibling; `none` when it does not borrow. -/
def borrowLeft (t : BPlusTree) (nodeIdx parentIdx childPos : ℕ) :
    Except Fault (Option BPlusTree) := do
  let node ← t.node nodeIdx
  let parent ← t.node parentIdx
  if 0 < childPos then
    let leftSibIdx ← Vec.get .child parent.childIndices (childPos - 1)
    let leftSib ← t.node leftSibIdx
    if node.type = .leaf ∧ t.minLeafKeys < leftSib.size then
      let key ← Vec.back .access leftSib.keys
      let value ← Vec.back .access leftSib.values
      let t ← t.modify nodeIdx fun n => return { n with
        keys := key :: n.keys, values := value :: n.values, size := n.size + 1 }
      let t ← t.modify leftSibIdx fun n => return { n with
        keys := ← Vec.popBack .access n.keys
        values := ← Vec.popBack .access n.values
        size := n.size - 1 }
      let node ← t.node nodeIdx
      let sep ← Vec.get .access node.keys 0
      let t ← t.modify parentIdx fun n =>
        return { n with keys := ← Vec.set .access n.keys (childPos - 1) sep }
      return some t
    else return none
  else return none

/-- `handleUnderflow`, borrowing from the right sibling; `none` when it does not borrow. -/
def borrowRight (t : BPlusTree) (nodeIdx parentIdx childPos : ℕ) :
    Except Fault (Option BPlusTree) := do
  let node ← t.node nodeIdx
  let parent ← t.node parentIdx
  if childPos < parent.childIndices.length - 1 then
    let rightSibIdx ← Vec.get .child parent.childIndices (childPos + 1)
    let rightSib ← t.node rightSibIdx
    if node.type = .leaf ∧ t.minLeafKeys < rightSib.size then
      let key ← Vec.get .access rightSib.keys 0
      let value ← Vec.get .access rightSib.values 0
      let t ← t.modify nodeIdx fun n => return { n with
        keys := n.keys ++ [key], values := n.values ++ [value], size := n.size + 1 }
      let t ← t.modify rightSibIdx fun n => return { n with
        keys := ← Vec.erase .access n.keys 0
        values := ← Vec.erase .access n.values 0
        size := n.size - 1 }
      let rightSib ← t.node rightSibIdx
      let sep ← Vec.get .access rightSib.keys 0
      let t ← t.modify parentIdx fun n =>
        return { n with keys := ← Vec.set .access n.keys childPos sep }
      return some t
    else return none
  else return none

/-- The entries of `srcIdx` appended to those of `dstIdx`, which takes over its next leaf. -/
def appendLeaf (t : BPlusTree) (dstIdx srcIdx : ℕ) : Except Fault BPlusTree := do
  let src ← t.node srcIdx
  let keys ← Vec.firstN .access src.keys src.size
  let values ← Vec.firstN .access src.values src.size
  t.modify dstIdx fun n => return { n with
    keys := n.keys ++ keys
    values := n.values ++ values
    size := n.size + src.size
    nextLeafIdx := src.nextLeafIdx }

/-- The separator at `keyPos` and the child at `childPos` removed from the parent. -/
def dropChild (t : BPlusTree) (parentIdx keyPos childPos : ℕ) : Except Fault BPlusTree :=
  t.modify parentIdx fun n => return { n with
    keys := ← Vec.erase .access n.keys keyPos
    childIndices := ← Vec.erase .child n.childIndices childPos
    size := n.size - 1 }

/-- `handleUnderflow`, merging a leaf with a sibling. -/
def mergeLeaf (t : BPlusTree) (nodeIdx parentIdx childPos : ℕ) : Except Fault BPlusTree := do
  let parent ← t.node parentIdx
  if 0 < childPos then
    let leftSibIdx ← Vec.get .child parent.childIndices (childPos - 1)
    let t ← t.appendLeaf leftSibIdx nodeIdx
    t.dropChild parentIdx (childPos - 1) childPos
  else
    let rightSibIdx ← Vec.get .child parent.childIndices (childPos + 1)
    let t ← t.appendLeaf nodeIdx rightSibIdx
    t.dropChild parentIdx childPos (childPos + 1)

/-- `BPlusTree::handleUnderflow`. -/
def handleUnderflow : ℕ → BPlusTree → ℕ → Except Fault BPlusTree
  | 0, _, _ => .error .fuel
  | fuel + 1, t, nodeIdx => do
    let node ← t.node nodeIdx
    if node.isRoot then return t
    else
      let parentIdx ← index node.parentIdx
      let parent ← t.node parentIdx
      match parent.childIndices.idxOf? nodeIdx with
      | none => return t
      | some childPos =>
        match ← t.borrowLeft nodeIdx parentIdx childPos with
        | some t => return t
        | none =>
          match ← t.borrowRight nodeIdx parentIdx childPos with
          | some t => return t
          | none =>
            match node.type with
            | .internal => return t
            | .leaf =>
              let t ← t.mergeLeaf nodeIdx parentIdx childPos
              let parent ← t.node parentIdx
              if !parent.isRoot && parent.size < t.minInternalKeys then
                handleUnderflow fuel t parentIdx
              else return t

/-- `remove`, the root's only child promoted when the root is internal and has no key. -/
def collapseRoot (t : BPlusTree) : Except Fault BPlusTree :=
  match t.rootIdx with
  | none => return t
  | some rootIdx => do
    let root ← t.node rootIdx
    if root.type = .internal ∧ root.size = 0 then
      let newRoot ← Vec.get .child root.childIndices 0
      let t ← t.modify newRoot fun n => return { n with isRoot := true, parentIdx := none }
      return { t with rootIdx := some newRoot }
    else return t

/-- `remove`, the root given up when it is a leaf without keys. -/
def clearRoot (t : BPlusTree) : Except Fault BPlusTree :=
  match t.rootIdx with
  | none => return t
  | some rootIdx => do
    let root ← t.node rootIdx
    if root.size = 0 ∧ root.type = .leaf then return { t with rootIdx := none } else return t

/-- `BPlusTree::remove`: the tree after the call and the value it returns. -/
def remove (t : BPlusTree) (key : ℤ) : Except Fault (BPlusTree × Bool) := do
  match ← t.findLeaf key with
  | none => return (t, false)
  | some leafIdx =>
    match ← t.removeFromLeaf leafIdx key with
    | none => return (t, false)
    | some t =>
      let t := { t with entryCount := t.entryCount - 1 }
      let leaf ← t.node leafIdx
      let t ← if !leaf.isRoot && leaf.size < t.minLeafKeys then
          handleUnderflow t.nodes.length t leafIdx
        else pure t
      let t ← t.collapseRoot
      let t ← t.clearRoot
      return (t, true)

/-! ## Range scan -/

/-- The inner loop of `rangeScan`: the results so far, and whether a key above `highKey` ended
the scan. -/
def scanLeaf (leaf : BPlusNode) (lowKey highKey : ℤ) :
    ℕ → ℕ → List RID → Except Fault (List RID × Bool)
  | 0, _, results => .ok (results, false)
  | n + 1, i, results => do
    let k ← Vec.get .access leaf.keys i
    let results ← if lowKey ≤ k ∧ k ≤ highKey then
        pure (results ++ [← Vec.get .access leaf.values i])
      else pure results
    if highKey < k then return (results, true)
    else scanLeaf leaf lowKey highKey n (i + 1) results

/-- The outer loop of `rangeScan`, from the leaf `current`. -/
def scanFrom (t : BPlusTree) (lowKey highKey : ℤ) :
    ℕ → Option ℕ → List RID → Except Fault (List RID)
  | _, none, results => .ok results
  | 0, some _, _ => .error .fuel
  | fuel + 1, some current, results => do
    let leaf ← t.node current
    let (results, stop) ← scanLeaf leaf lowKey highKey leaf.size 0 results
    if stop then return results else scanFrom t lowKey highKey fuel leaf.nextLeafIdx results

/-- `BPlusTree::rangeScan`: the results with those of the scan appended. -/
def rangeScan (t : BPlusTree) (lowKey highKey : ℤ) (results : List RID) :
    Except Fault (List RID) := do
  match ← t.findLeaf lowKey with
  | none => return results
  | some leafIdx => scanFrom t lowKey highKey t.nodes.length (some leafIdx) results

/-- `BPlusTree::getSize`. -/
def getSize (t : BPlusTree) : ℕ := t.entryCount

/-! ## Runs -/

/-- A call that changes the tree. -/
inductive Call
  | insert (key : ℤ) (value : RID)
  | remove (key : ℤ)
deriving DecidableEq, Repr

/-- One call: the tree after it and the value it returns. -/
def call (t : BPlusTree) : Call → Except Fault (BPlusTree × Bool)
  | .insert key value => t.insert key value
  | .remove key => t.remove key

/-- The calls one after another: the tree after them and the values they return. -/
def calls (t : BPlusTree) (cs : List Call) : Except Fault (BPlusTree × List Bool) :=
  Machine.run call t cs

end BPlusTree

end MiniDB
