import MiniDB.Index.Rows
import MiniDB.Index.Split

/-!
# Insertion

`insert` puts a new entry into the leaf its key belongs to, or splits that leaf and lets the split
climb. Both ways the tree afterwards is well formed, and its entries are the old ones with the new
one at its key's place.

## Main definitions

* `WF t r H`: a well-formed tree of depth `H`, its leaves filled and its entries counted

## Main results

* `insertIntoLeaf_spec`, `splitLeafAndInsert_spec`: the two ways to insert
* `WF.insert_spec`: `insert` on a tree that is not empty
* `plant_spec`: `insert` on an empty tree
-/

namespace MiniDB.BPlusTree

open Levels BlockList SortedMap

/-- The least number of entries of a leaf in a tree of depth `H`. -/
def fill (t : BPlusTree) (H : ℕ) : ℕ := if H = 0 then 1 else t.minLeafKeys

/-- Every leaf has its least number of entries. -/
def Filled (t : BPlusTree) (r H : ℕ) : Prop :=
  ∀ b ∈ t.blocks (lvl t r H), t.fill H ≤ b.2.length

/-- A well-formed tree: its shape, filled leaves, and the number of its entries. -/
structure WF (t : BPlusTree) (r H : ℕ) : Prop extends Shape t r H where
  filled : Filled t r H
  count : t.entryCount = (entries t r H).length

variable {t t' : BPlusTree} {r H l : ℕ} {key : ℤ} {value : RID} {A B : List (WithBot ℤ × ℕ)}
  {lo : WithBot ℤ} {E₁ E₂ : List (ℤ × RID)}

theorem Bounds.fill_pos (h : Bounds t) : 0 < t.fill H := by
  have := h.minLeafKeys_pos
  rw [fill]
  split_ifs <;> omega

theorem Bounds.fill_le (h : Bounds t) : t.fill H ≤ t.minLeafKeys := by
  have := h.minLeafKeys_pos
  rw [fill]
  split_ifs <;> omega

/-- In a row of more than one leaf every leaf has the least number of entries of an inner tree. -/
theorem Filled.min_le_of_around (h : Filled t r H) (hL : lvl t r H = A ++ (lo, l) :: B)
    {b : WithBot ℤ × List (ℤ × RID)} (hb : b ∈ t.blocks A ++ t.blocks B) :
    t.minLeafKeys ≤ b.2.length := by
  have hH : H ≠ 0 := by
    rintro rfl
    rw [lvl_zero] at hL
    have hlen := congrArg List.length hL
    simp only [List.length_nil, List.length_append, List.length_cons] at hlen
    obtain rfl : A = [] := List.eq_nil_of_length_eq_zero (by omega)
    obtain rfl : B = [] := List.eq_nil_of_length_eq_zero (by omega)
    simp [blocks] at hb
  have := h b (by rw [hL, blocks_append, blocks_cons]; exact mem_around_of_mem hb)
  rwa [fill, if_neg hH] at this

/-- A new entry in a leaf, at its key's place. -/
theorem insertEntry_spec (value : RID) (h : Leaf t l) (hE : t.entriesOf l = E₁ ++ E₂)
    (h₁ : ∀ e ∈ E₁, e.1 < key) (h₂ : ∀ e ∈ E₂, key < e.1) :
    BPlusNode.insertEntry (t.nd l) key value = .ok { t.nd l with
      keys := (E₁ ++ (key, value) :: E₂).map Prod.fst
      values := (E₁ ++ (key, value) :: E₂).map Prod.snd
      size := (E₁ ++ (key, value) :: E₂).length } := by
  have hpos : lowerBound (t.nd l).keys key = E₁.length := by
    rw [h.keys_eq, hE, List.map_append, lowerBound_eq, List.length_map]
    · intro k hk
      obtain ⟨e, he, rfl⟩ := List.mem_map.mp hk
      exact h₁ e he
    · intro k hk
      obtain ⟨e, he, rfl⟩ := List.mem_map.mp hk
      exact h₂ e he
  have hins : ∀ {α : Type} (f : ℤ × RID → α), Vec.insert Fault.access ((E₁ ++ E₂).map f) E₁.length
      (f (key, value)) = .ok ((E₁ ++ (key, value) :: E₂).map f) := by
    intro α f
    rw [Vec.insert_of_le (by simp), List.map_append, ← List.length_map f, insertIdx_append]
    simp
  have hkeys : Vec.insert Fault.access (t.nd l).keys E₁.length key =
      .ok ((E₁ ++ (key, value) :: E₂).map Prod.fst) := by
    rw [h.keys_eq, hE]
    exact hins Prod.fst
  have hvals : Vec.insert Fault.access (t.nd l).values E₁.length value =
      .ok ((E₁ ++ (key, value) :: E₂).map Prod.snd) := by
    rw [h.values_eq, hE]
    exact hins Prod.snd
  simp only [BPlusNode.insertEntry, hpos, hkeys, hvals, Machine.ok_bind, Machine.pure_eq_ok]
  congr 2
  rw [h.size_eq, hE]
  simp
  omega

/-- The outcome of an insertion: the entries with the new one at its key's place. -/
structure Inserted (t : BPlusTree) (E : List (ℤ × RID)) (t' : BPlusTree) (r' H' : ℕ) : Prop where
  shape : Shape t' r' H'
  filled : Filled t' r' H'
  params : t'.params = t.params
  entries : entries t' r' H' = E

/-- A leaf with room takes the new entry. -/
theorem insertIntoLeaf_spec (h : Shape t r H) (hf : Filled t r H)
    (hloc : Located t r H key A lo l B) (hE : t.entriesOf l = E₁ ++ E₂)
    (h₁ : ∀ e ∈ E₁, e.1 < key) (h₂ : ∀ e ∈ E₂, key < e.1) (hroom : (t.nd l).size < t.maxLeafKeys) :
    ∃ t', t.insertIntoLeaf l key value = .ok t' ∧ Inserted t ((t.blocks A).flatMap Prod.snd ++
      (E₁ ++ (key, value) :: E₂ ++ (t.blocks B).flatMap Prod.snd)) t' r H := by
  have hL := hloc.level
  have hl := h.lt_length hL
  have hleaf := h.leaf_at hL
  have hne := h.spine.ne_of_mem_around hL
  set E := E₁ ++ (key, value) :: E₂ with hEdef
  set n : BPlusNode := { t.nd l with keys := E.map Prod.fst, values := E.map Prod.snd
                                     size := E.length } with hn
  set t' := t.setNode l n with ht'
  have hnd : ∀ i, t'.nd i = if i = l then n else t.nd i := fun i => nd_setNode hl
  have hndl : t'.nd l = n := by rw [hnd, if_pos rfl]
  have hsame : ∀ i, i ≠ l → t'.nd i = t.nd i := fun i hi => by rw [hnd, if_neg hi]
  have hp : t'.params = t.params := rfl
  obtain ⟨hspine, hlvls⟩ : Spine t' r H ∧ ∀ e ≤ H, lvl t' r e = lvl t r e := h.spine.touch
    length_setNode.ge hp (fun i hi => by
      rw [hsame i]
      rintro rfl
      exact h.spine.not_above_of_mem (by rw [hL]; simp) hi)
    (fun i _ => by
      rw [hnd]
      split_ifs with hi
      · subst hi; exact ⟨rfl, rfl⟩
      · exact ⟨rfl, rfl⟩)
  have hlvl := hlvls H le_rfl
  have hsize : E.length ≤ t'.maxLeafKeys := by
    have : (t.nd l).size + 1 = E.length := by rw [hleaf.size_eq, hE, hEdef]; simp; omega
    have hmax : t'.maxLeafKeys = t.maxLeafKeys := rfl
    omega
  obtain ⟨hleaf', hent⟩ := Leaf.of_entries (t := t') (i := l) (E := E)
    (by rw [hndl]; exact hleaf.type) (by rw [hndl]) (by rw [hndl]) (by rw [hndl]) hsize
  have hblk := h.blocks_at hL
  rw [hE] at hblk
  have hblk' := hblk.insert (v := value) hloc.lower (fun b hb => by
    obtain ⟨a, ha, hab⟩ := mem_blocks hb
    exact hab ▸ hloc.upper a ha) h₁ h₂
  have hcore : ∀ a ∈ A ++ B, core (t'.nd a.2) = core (t.nd a.2) := fun a ha => by
    rw [hsame a.2 (hne a ha)]
  have hrow := h.row
  rw [hL] at hrow
  have hrow' : Row t' (A ++ (lo, l) :: B) := hrow.update hp hcore hleaf'
    (by rw [next, next, hndl]) (by rw [hent]; exact hblk')
  obtain ⟨-, hA, hB, -, -⟩ := hrow.rest (by simp) hp hcore
  refine ⟨t', ?_, ⟨h.bounds.congr hp, h.rootIdx, hspine, by rw [hlvl, hL]; exact hrow'⟩, ?_, hp, ?_⟩
  · rw [insertIntoLeaf, modify_ok hl (insertEntry_spec value hleaf hE h₁ h₂)]
  · intro b hb
    rw [hlvl, hL, blocks_append, blocks_cons, hA, hB, hent] at hb
    rw [Filled, hL, blocks_append, blocks_cons, hE] at hf
    have hfill : t'.fill H = t.fill H := rfl
    rw [hfill]
    rcases mem_around hb with rfl | hb
    · have := hf (lo, E₁ ++ E₂) (by simp)
      simp only [hEdef, List.length_append, List.length_cons] at this ⊢
      omega
    · exact hf b (mem_around_of_mem hb)
  · rw [Shape.entries_at (hlvl.trans hL), hA, hB, hent]

/-- The cells of the tree with the leaf `l` cut in two. -/
theorem splitLeaf_nd {n : BPlusNode} {F₁ F₂ : List (ℤ × RID)} {k : ℤ} {w : RID}
    (hl : l < t.nodes.length) (hn : BPlusNode.insertEntry (t.nd l) key value = .ok n)
    (hk : n.keys = (F₁ ++ (k, w) :: F₂).map Prod.fst)
    (hv : n.values = (F₁ ++ (k, w) :: F₂).map Prod.snd) (hmid : (n.size + 1) / 2 = F₁.length) :
    ∃ t', t.splitLeaf l key value = .ok (t', k, t.nodes.length) ∧
      t'.nodes.length = t.nodes.length + 1 ∧ t'.params = t.params ∧ t'.rootIdx = t.rootIdx ∧
      t'.nd = Function.update
        (Function.update t.nd l { n with
          keys := F₁.map Prod.fst
          values := F₁.map Prod.snd
          size := F₁.length
          nextLeafIdx := some t.nodes.length })
        t.nodes.length {
          type := .leaf
          pageId := t.nodes.length
          keys := ((k, w) :: F₂).map Prod.fst
          values := ((k, w) :: F₂).map Prod.snd
          size := ((k, w) :: F₂).length
          nextLeafIdx := n.nextLeafIdx
          parentIdx := n.parentIdx } := by
  -- The states between the updates, in the order of the source.
  set N := t.nodes.length with hN
  set right : BPlusNode := { type := .leaf, pageId := N, keys := ((k, w) :: F₂).map Prod.fst
                             values := ((k, w) :: F₂).map Prod.snd
                             size := ((k, w) :: F₂).length } with hright
  set left : BPlusNode := { n with keys := F₁.map Prod.fst, values := F₁.map Prod.snd
                                   size := F₁.length } with hleft
  set t₁ := t.setNode l n with ht₁
  set t₂ := (t₁.allocateNode .leaf).1 with ht₂
  set t₃ := t₂.setNode N right with ht₃
  set t₄ := t₃.setNode l left with ht₄
  set t₅ := t₄.setNode N { right with nextLeafIdx := n.nextLeafIdx } with ht₅
  set t₆ := t₅.setNode l { left with nextLeafIdx := some N } with ht₆
  have hlen₁ : t₁.nodes.length = N := length_setNode
  have hlen₂ : t₂.nodes.length = N + 1 := by rw [ht₂, length_allocateNode, hlen₁]
  have hlen₃ : t₃.nodes.length = N + 1 := by rw [ht₃, length_setNode, hlen₂]
  have hlen₄ : t₄.nodes.length = N + 1 := by rw [ht₄, length_setNode, hlen₃]
  have hlen₅ : t₅.nodes.length = N + 1 := by rw [ht₅, length_setNode, hlen₄]
  have hlen₆ : t₆.nodes.length = N + 1 := by rw [ht₆, length_setNode, hlen₅]
  -- The cells of each state; the updates are at two different places, so they commute.
  have hlN : l ≠ N := hl.ne
  have hnd₂ : t₂.nd = Function.update (Function.update t.nd l n) N { type := .leaf, pageId := N } := by
    rw [ht₂, nd_allocateNode_eq, hlen₁, ht₁, nd_setNode_eq hl]
  have hnd₃ : t₃.nd = Function.update (Function.update t.nd l n) N right := by
    rw [ht₃, nd_setNode_eq (by omega), hnd₂, Function.update_idem]
  have hnd₄ : t₄.nd = Function.update (Function.update t.nd l left) N right := by
    rw [ht₄, nd_setNode_eq (by omega), hnd₃, Function.update_comm hlN.symm, Function.update_idem]
  have hnd₅ : t₅.nd = Function.update (Function.update t.nd l left) N
      { right with nextLeafIdx := n.nextLeafIdx } := by
    rw [ht₅, nd_setNode_eq (by omega), hnd₄, Function.update_idem]
  have hnd₆ : t₆.nd = Function.update
      (Function.update t.nd l { left with nextLeafIdx := some N }) N
      { right with nextLeafIdx := n.nextLeafIdx } := by
    rw [ht₆, nd_setNode_eq (by omega), hnd₅, Function.update_comm hlN.symm, Function.update_idem]
  refine ⟨t₆.setNode N { right with nextLeafIdx := n.nextLeafIdx, parentIdx := n.parentIdx },
    ?_, by rw [length_setNode, hlen₆], ?_, ?_, ?_⟩
  · have hm₁ : t.modify l (fun leaf => BPlusNode.insertEntry leaf key value) = .ok t₁ :=
      modify_ok hl hn
    have hn₂ : t₂.node l = .ok n := by
      rw [node_eq (by omega), hnd₂, Function.update_of_ne hlN, Function.update_self]
    have hm₃ : t₂.modify N (fun m => pure { m with
        keys := ((k, w) :: F₂).map Prod.fst
        values := ((k, w) :: F₂).map Prod.snd
        size := (((k, w) :: F₂).map Prod.fst).length }) = .ok t₃ := by
      refine modify_ok (by omega) ?_
      rw [hnd₂, Function.update_self, List.length_map]
      rfl
    have hm₄ : t₃.modify l (fun m => pure { m with
        keys := Vec.resize m.keys F₁.length 0
        values := Vec.resize m.values F₁.length ⟨0, 0⟩
        size := F₁.length }) = .ok t₄ := by
      refine modify_ok (by omega) ?_
      rw [hnd₃, Function.update_of_ne hlN, Function.update_self, hk, hv,
        Vec.resize_of_le (by simp), Vec.resize_of_le (by simp), ← List.map_take, ← List.map_take,
        List.take_left]
      rfl
    have hn₄ : t₄.node l = .ok left := by
      rw [node_eq (by omega), hnd₄, Function.update_of_ne hlN, Function.update_self]
    have hm₅ : t₄.modify N (fun m => pure { m with nextLeafIdx := left.nextLeafIdx }) = .ok t₅ := by
      refine modify_ok (by omega) ?_
      rw [hnd₄, Function.update_self]
      rfl
    have hm₆ : t₅.modify l (fun m => pure { m with nextLeafIdx := some N }) = .ok t₆ := by
      refine modify_ok (by omega) ?_
      rw [hnd₅, Function.update_of_ne hlN, Function.update_self]
      rfl
    have hn₆ : t₆.node N = .ok { right with nextLeafIdx := n.nextLeafIdx } := by
      rw [node_eq (by omega), hnd₆, Function.update_self]
    have hn₆l : t₆.node l = .ok { left with nextLeafIdx := some N } := by
      rw [node_eq (by omega), hnd₆, Function.update_of_ne hlN, Function.update_self]
    have hm₇ : t₆.modify N (fun m => pure { m with parentIdx := left.parentIdx }) = .ok
        (t₆.setNode N { right with nextLeafIdx := n.nextLeafIdx, parentIdx := n.parentIdx }) := by
      refine modify_ok (by omega) ?_
      rw [hnd₆, Function.update_self]
      rfl
    have hget : Vec.get Fault.access right.keys 0 = .ok k := rfl
    have hsuf : ∀ {α : Type} (f : ℤ × RID → α), Vec.suffix Fault.access
        ((F₁ ++ (k, w) :: F₂).map f) F₁.length = .ok (((k, w) :: F₂).map f) := by
      intro α f
      rw [Vec.suffix_of_le (by simp), ← List.map_drop, List.drop_left]
    simp only [splitLeaf]
    rw [hm₁, Machine.ok_bind, allocateNode_snd, hlen₁, ← ht₂, hn₂, Machine.ok_bind, hmid, hk, hv,
      hsuf, Machine.ok_bind, hsuf, Machine.ok_bind, hm₃, Machine.ok_bind, hm₄, Machine.ok_bind,
      hn₄, Machine.ok_bind, hm₅, Machine.ok_bind, hm₆, Machine.ok_bind, hn₆, Machine.ok_bind,
      hget, Machine.ok_bind, hn₆l, Machine.ok_bind, hm₇]
    rfl
  · simp only [ht₆, ht₅, ht₄, ht₃, ht₂, ht₁, params_setNode, params_allocateNode]
  · simp only [ht₆, ht₅, ht₄, ht₃, ht₂, ht₁, rootIdx_setNode, rootIdx_allocateNode]
  · rw [nd_setNode_eq (by omega), hnd₆, Function.update_idem]

/-- A full leaf is split, and the split climbs. -/
theorem splitLeafAndInsert_spec (h : Shape t r H) (hf : Filled t r H)
    (hloc : Located t r H key A lo l B) (hE : t.entriesOf l = E₁ ++ E₂)
    (h₁ : ∀ e ∈ E₁, e.1 < key) (h₂ : ∀ e ∈ E₂, key < e.1)
    (hfull : ¬ (t.nd l).size < t.maxLeafKeys) :
    ∃ t' r' H', t.splitLeafAndInsert l key value = .ok t' ∧
      Inserted t ((t.blocks A).flatMap Prod.snd ++
        (E₁ ++ (key, value) :: E₂ ++ (t.blocks B).flatMap Prod.snd)) t' r' H' := by
  have hL := hloc.level
  have hl := h.lt_length hL
  have hleaf := h.leaf_at hL
  have hne := h.spine.ne_of_mem_around hL
  have hbounds := h.bounds
  set N := t.nodes.length with hN
  set E := E₁ ++ (key, value) :: E₂ with hEdef
  have hElen : E.length = t.order := by
    have h₃ := hleaf.size_le
    have h₄ : (t.nd l).size + 1 = E.length := by rw [hleaf.size_eq, hE, hEdef]; simp; omega
    have h₅ := hbounds.order
    rw [hleaf.size] at hfull h₄
    rw [hbounds.maxLeafKeys] at h₃ hfull
    omega
  obtain ⟨F₁, k, w, F₂, hF, hF₁⟩ : ∃ F₁ k w F₂, E = F₁ ++ (k, w) :: F₂ ∧
      F₁.length = (E.length + 1) / 2 := by
    have hlt : (E.length + 1) / 2 < E.length := by have := hbounds.order; omega
    exact ⟨E.take ((E.length + 1) / 2), _, _, E.drop ((E.length + 1) / 2 + 1),
      by rw [Prod.mk.eta, ← List.drop_eq_getElem_cons hlt, List.take_append_drop],
      by rw [List.length_take]; omega⟩
  have hF₂ : F₂.length + 1 = t.order / 2 := by
    have := congrArg List.length hF
    simp only [List.length_append, List.length_cons] at this
    omega
  have hins := insertEntry_spec value hleaf hE h₁ h₂
  rw [← hEdef] at hins
  obtain ⟨t₂, ht₂, hlen₂, hp₂, hroot₂, hnd₂⟩ := splitLeaf_nd hl hins
    (show _ = (F₁ ++ (k, w) :: F₂).map Prod.fst by rw [hF]) (by rw [hF]) hF₁.symm
  have hndN := congrFun hnd₂ N
  rw [Function.update_self] at hndN
  have hndl := congrFun hnd₂ l
  rw [Function.update_of_ne hl.ne, Function.update_self] at hndl
  have hsame : ∀ i, i ≠ l → i ≠ N → t₂.nd i = t.nd i := fun i hil hiN => by
    rw [hnd₂, Function.update_of_ne hiN, Function.update_of_ne hil]
  have hmax₂ : t₂.maxLeafKeys = t.maxLeafKeys := (params_eq_iff.mp hp₂).2.1
  have hord := hbounds.order
  have hmaxeq := hbounds.maxLeafKeys
  obtain ⟨hleafl, hentl⟩ := Leaf.of_entries (t := t₂) (i := l) (E := F₁)
    (by rw [hndl]; exact hleaf.type) (by rw [hndl]) (by rw [hndl]) (by rw [hndl]) (by omega)
  obtain ⟨hleafN, hentN⟩ := Leaf.of_entries (t := t₂) (i := N) (E := (k, w) :: F₂)
    (by rw [hndN]) (by rw [hndN]) (by rw [hndN]) (by rw [hndN])
    (by rw [List.length_cons]; omega)
  have hNa : ∀ e ≤ H, N ∉ (lvl t r e).map Prod.snd := by
    intro e he hm
    obtain ⟨a, ha, haN⟩ := List.mem_map.mp hm
    exact (h.spine.bound e he a ha).ne haN
  have hcore : ∀ a ∈ A ++ B, core (t₂.nd a.2) = core (t.nd a.2) := by
    intro a ha
    have haL : a ∈ lvl t r H := by rw [hL]; exact mem_around_of_mem ha
    rw [hsame a.2 (hne a ha) fun heq => hNa H le_rfl (heq ▸ List.mem_map_of_mem haL)]
  have hblk := h.blocks_at hL
  rw [hE] at hblk
  have hblk' := hblk.insert (v := value) hloc.lower (fun b hb => by
    obtain ⟨a, ha, hab⟩ := mem_blocks hb
    exact hab ▸ hloc.upper a ha) h₁ h₂
  rw [← hEdef, hF] at hblk'
  have hF₁ne : F₁ ≠ [] := fun hnil => by rw [hnil, List.length_nil] at hF₁; omega
  have hsplit := hblk'.split hF₁ne
  have hrow := h.row
  rw [hL] at hrow
  have hrow₂ : Row t₂ (A ++ (lo, l) :: (↑k, N) :: B) := by
    refine hrow.split hp₂ hcore hleafl hleafN ?_ ?_ ?_
    · rw [next, hndl]
    · rw [next, hndN]; rfl
    · rw [hentl, hentN]; exact hsplit
  have hasc : Ascending (A ++ (lo, l) :: (↑k, N) :: B) := by
    have := hrow₂.blocks.apart
    rw [blocks, List.pairwise_map] at this
    exact this.imp fun hab => hab.1
  obtain ⟨hspine₂, hlvls₂⟩ : Spine t₂ r H ∧ ∀ e ≤ H, lvl t₂ r e = lvl t r e := by
    refine h.spine.touch (by omega) hp₂ (fun i hi => ?_) (fun i hi => ?_)
    · rw [hsame i]
      · rintro rfl
        exact h.spine.not_above_of_mem (by rw [hL]; simp) hi
      · exact (h.spine.above_lt hi).ne
    · by_cases hil : i = l
      · subst hil
        rw [hndl]
        exact ⟨rfl, rfl⟩
      · rw [hsame i hil hi.ne]
        exact ⟨rfl, rfl⟩
  have hlvl₂ := hlvls₂ H le_rfl
  have hNa₂ : ¬ Above t₂ r H N := by
    rintro ⟨e, he, a, ha, haN⟩
    rw [hlvls₂ e he.le] at ha
    exact hNa e he.le (haN ▸ List.mem_map_of_mem ha)
  obtain ⟨t₃, r₃, H₃, ht₃, hg⟩ := insertIntoParent_spec H (2 * N + 1) t₂
    (by have := h.spine.depth_lt; omega)
    (by rw [(params_eq_iff.mp hp₂).2.2.2.1, hbounds.maxInternalKeys]; omega)
    (hroot₂.trans h.rootIdx) hspine₂ (hlvl₂.trans hL) hasc (by omega) (by rw [hndN])
    (by rw [hlvl₂]; exact hNa H le_rfl) hNa₂
  have hp₃ : t₃.params = t.params := hg.params.trans hp₂
  have hcore₃ : ∀ a ∈ A ++ (lo, l) :: ((k : WithBot ℤ), N) :: B,
      core (t₃.nd a.2) = core (t₂.nd a.2) := by
    intro a ha
    rcases mem_insert.mp (List.mem_map_of_mem ha) with hm | hm
    · rw [← hL, ← hlvl₂] at hm
      exact hg.core a.2 (hspine₂.lt_of_mem hm) (hspine₂.not_above_of_mem hm)
    · rw [hm]
      exact hg.core N (by omega) hNa₂
  have hrow₃ := hrow₂.congr hg.params hcore₃
  have hblocks : t₃.blocks (lvl t₃ r₃ H₃) =
      t.blocks A ++ (lo, F₁) :: (↑k, (k, w) :: F₂) :: t.blocks B := by
    obtain ⟨-, hA, hB, -, -⟩ := hrow.rest (by simp) hp₂ hcore
    rw [hg.level, hrow₂.blocks_eq hg.params hcore₃, blocks_append, blocks_cons, blocks_cons, hA, hB,
      hentl, hentN]
  refine ⟨t₃, r₃, H₃, ?_, ⟨hbounds.congr hp₃, hg.rootIdx, hg.spine, by rw [hg.level]; exact hrow₃⟩,
    ?_, hp₃, ?_⟩
  · rw [splitLeafAndInsert, ht₂]
    exact ht₃
  · have hfill : t₃.fill H₃ ≤ t.minLeafKeys := by
      rw [← (params_eq_iff.mp hp₃).2.2.1]
      exact (hbounds.congr hp₃).fill_le
    have hmin := hbounds.minLeafKeys
    intro b hb
    rw [hblocks] at hb
    rcases mem_around hb with rfl | hb
    · show t₃.fill H₃ ≤ F₁.length
      omega
    rcases mem_around hb with rfl | hb
    · show t₃.fill H₃ ≤ ((k, w) :: F₂).length
      rw [List.length_cons]
      omega
    · exact hfill.trans (hf.min_le_of_around hL hb)
  · rw [entries, hblocks]
    simp [hF]

variable {m : Finmap fun _ : ℤ => RID}

/-- The shape of a tree does not depend on its entry counter. -/
theorem Shape.setCount (h : Shape t r H) (c : ℕ) : Shape { t with entryCount := c } r H := by
  have hspine := h.spine
  have hrow := h.row
  exact ⟨⟨h.bounds.order, h.bounds.maxLeafKeys, h.bounds.minLeafKeys, h.bounds.maxInternalKeys⟩,
    h.rootIdx,
    ⟨hspine.bound, hspine.nodup, hspine.disjoint, fun i hi =>
      ⟨(hspine.internal i hi).type, (hspine.internal i hi).children, (hspine.internal i hi).size,
        (hspine.internal i hi).size_le⟩, hspine.parent, hspine.root⟩,
    ⟨fun a ha => ⟨(hrow.leaf a ha).type, (hrow.leaf a ha).values, (hrow.leaf a ha).size,
      (hrow.leaf a ha).size_le⟩, hrow.blocks, hrow.linked⟩⟩

/-- The tree an insertion leaves, with its entries counted. -/
theorem Inserted.wf {E : List (ℤ × RID)} {r' H' : ℕ} (h : Inserted t E t' r' H') {c : ℕ}
    (hc : c = E.length) : WF { t' with entryCount := c } r' H' ∧
      BPlusTree.entries { t' with entryCount := c } r' H' = E :=
  ⟨⟨h.shape.setCount c, h.filled, hc.trans (congrArg List.length h.entries.symm)⟩, h.entries⟩

/-- `insert` on a tree that is not empty: an absent key is added, a present one is refused. -/
theorem WF.insert_spec (h : WF t r H) (hm : Represents (entries t r H) m) (key : ℤ) (value : RID) :
    (m.lookup key = none → ∃ t' r' H', t.insert key value = .ok (t', true) ∧ WF t' r' H' ∧
      Represents (entries t' r' H') (m.insert key value) ∧ t'.order = t.order) ∧
    (m.lookup key ≠ none → t.insert key value = .ok (t, false)) := by
  obtain ⟨A, lo, l, B, hloc, hfind⟩ := h.toShape.findLeaf_spec key
  have hL := hloc.level
  have hleaf := h.toShape.leaf_at hL
  have hl := h.toShape.lt_length hL
  have hkeys := (h.toShape.mem_keys_iff hloc)
  constructor
  · intro hnone
    have hk : key ∉ (t.entriesOf l).map Prod.fst := by
      rw [← hkeys]
      exact hm.lookup_eq_none.mp hnone
    have hblk := h.toShape.blocks_at hL
    have hsorted : ((t.entriesOf l).map Prod.fst).Pairwise (· < ·) :=
      hblk.sorted (lo, t.entriesOf l) (by simp)
    obtain ⟨E₁, E₂, hE, h₁, h₂⟩ := exists_place hsorted hk
    have hrep : Represents ((t.blocks A).flatMap Prod.snd ++
        (E₁ ++ (key, value) :: E₂ ++ (t.blocks B).flatMap Prod.snd)) (m.insert key value) := by
      rw [Shape.entries_at hL, hE] at hm
      have hm' : Represents (((t.blocks A).flatMap Prod.snd ++ E₁) ++
          (E₂ ++ (t.blocks B).flatMap Prod.snd)) m := by simpa using hm
      have := hm'.insert (k := key) (v := value) (fun e he => ?_) (fun e he => ?_)
      · simpa using this
      · rcases List.mem_append.mp he with he | he
        · exact hblk.before hloc.lower e he
        · exact h₁ e he
      · rcases List.mem_append.mp he with he | he
        · exact h₂ e he
        · refine hblk.after (fun b hb => ?_) e he
          obtain ⟨a, ha, hab⟩ := mem_blocks hb
          exact hab ▸ hloc.upper a ha
    have hcount : t.entryCount + 1 = ((t.blocks A).flatMap Prod.snd ++
        (E₁ ++ (key, value) :: E₂ ++ (t.blocks B).flatMap Prod.snd)).length := by
      rw [h.count, Shape.entries_at hL, hE]
      simp only [List.length_append, List.length_cons]
      omega
    have hstep : ∃ t' r' H', (if (t.nd l).size < t.maxLeafKeys then t.insertIntoLeaf l key value
        else t.splitLeafAndInsert l key value) = .ok t' ∧ Inserted t ((t.blocks A).flatMap Prod.snd ++
          (E₁ ++ (key, value) :: E₂ ++ (t.blocks B).flatMap Prod.snd)) t' r' H' := by
      split_ifs with hroom
      · obtain ⟨t', ht', hins⟩ :=
          insertIntoLeaf_spec h.toShape h.filled hloc hE h₁ h₂ hroom
        exact ⟨t', r, H, ht', hins⟩
      · exact splitLeafAndInsert_spec h.toShape h.filled hloc hE h₁ h₂ hroom
    obtain ⟨t', r', H', ht', hins⟩ := hstep
    have hc' : t'.entryCount = t.entryCount := (params_eq_iff.mp hins.params).2.2.2.2.2
    obtain ⟨hwf, hent⟩ := hins.wf ((congrArg (· + 1) hc').trans hcount)
    refine ⟨{ t' with entryCount := t'.entryCount + 1 }, r', H', ?_, hwf, by rw [hent]; exact hrep,
      (params_eq_iff.mp hins.params).1⟩
    simp only [insert, hfind, Machine.ok_bind, node_eq hl, hleaf.findKey_eq,
      hleaf.idxOf?_eq_none hk]
    split_ifs at ht' ⊢ with hroom
    · rw [ht']
      rfl
    · rw [ht']
      rfl
  · intro hsome
    have hk : key ∈ (t.entriesOf l).map Prod.fst := by
      rw [← hkeys]
      by_contra hk
      exact hsome (hm.lookup_eq_none.mpr hk)
    obtain ⟨E₁, v, E₂, -, hidx⟩ := hleaf.exists_split hk
    simp only [insert, hfind, Machine.ok_bind, node_eq hl, hleaf.findKey_eq, hidx]
    rfl

/-- `insert` on an empty tree: a root leaf with one entry. -/
theorem plant_spec (hb : Bounds t) (hroot : t.rootIdx = none) (hcount : t.entryCount = 0) (key : ℤ)
    (value : RID) : ∃ t' r, t.insert key value = .ok (t', true) ∧ WF t' r 0 ∧
      entries t' r 0 = [(key, value)] ∧ t'.order = t.order := by
  set N := t.nodes.length with hN
  set t₁ := (t.allocateNode .leaf).1 with ht₁
  have hlen₁ : t₁.nodes.length = N + 1 := length_allocateNode _
  have hnd₁ : t₁.nd N = { type := .leaf, pageId := N } := by
    rw [ht₁, nd_allocateNode_eq, Function.update_self]
  set root : BPlusNode := { type := .leaf, pageId := N, isRoot := true, keys := [key]
                            values := [value], size := 1 } with hrootdef
  set t' : BPlusTree := { t₁.setNode N root with
    rootIdx := some N, entryCount := t.entryCount + 1 } with ht'
  have hnd : t'.nd N = root := by
    have : t'.nd N = (t₁.setNode N root).nd N := rfl
    rw [this, nd_setNode (by omega), if_pos rfl]
  have hlvl : lvl t' N 0 = [(⊥, N)] := lvl_zero
  have hlen' : t'.nodes.length = N + 1 := by
    show (t₁.setNode N root).nodes.length = _
    rw [length_setNode, hlen₁]
  have hbounds : Bounds t' := ⟨hb.order, hb.maxLeafKeys, hb.minLeafKeys, hb.maxInternalKeys⟩
  have hmax : 1 ≤ t'.maxLeafKeys := by
    have := hbounds.order
    rw [hbounds.maxLeafKeys]
    omega
  obtain ⟨hleaf, hent⟩ := Leaf.of_entries (t := t') (i := N) (E := [(key, value)])
    (by rw [hnd]) (by rw [hnd]; rfl) (by rw [hnd]; rfl) (by rw [hnd]; rfl) hmax
  have hspine : Spine t' N 0 := by
    refine ⟨fun e he a ha => ?_, fun e he => ?_, fun e he a ha => ?_,
      fun i hi => absurd hi not_above_zero, fun i hi => absurd hi not_above_zero, by rw [hnd]⟩
    · obtain rfl : e = 0 := by omega
      rw [lvl_zero, List.mem_singleton] at ha
      rw [ha, hlen']
      exact Nat.lt_succ_self N
    · obtain rfl : e = 0 := by omega
      simp [lvl_zero]
    · obtain rfl : e = 0 := by omega
      exact not_above_zero
  have hrow : Row t' [(⊥, N)] := by
    refine ⟨fun a ha => ?_, ?_, ?_⟩
    · rw [List.mem_singleton] at ha
      rw [ha]
      exact hleaf
    · rw [blocks, List.map_singleton, hent]
      exact ⟨by simp, by simp, by simp⟩
    · exact ⟨by rw [next, hnd]; rfl, trivial⟩
  have hentries : entries t' N 0 = [(key, value)] := by
    simp [entries, hlvl, blocks, hent]
  refine ⟨t', N, ?_, ⟨⟨hbounds, rfl, hspine, by rw [hlvl]; exact hrow⟩, ?_, ?_⟩, hentries, rfl⟩
  · have hm : t₁.modify N (fun n => .ok { n with
        isRoot := true
        keys := n.keys ++ [key]
        values := n.values ++ [value]
        size := 1 }) = .ok (t₁.setNode N root) := by
      refine modify_ok (by omega) ?_
      rw [hnd₁]
      rfl
    simp only [insert, findLeaf, hroot, Machine.pure_eq_ok, Machine.ok_bind, plant,
      allocateNode_snd]
    rw [← ht₁, ← hN, hm]
    rfl
  · intro b hbm
    rw [hlvl, blocks, List.map_singleton, List.mem_singleton, hent] at hbm
    rw [hbm, fill, if_pos rfl]
    rfl
  · rw [hentries, ht']
    show t.entryCount + 1 = 1
    rw [hcount]

end MiniDB.BPlusTree
