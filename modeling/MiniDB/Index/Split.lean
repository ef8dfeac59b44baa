import MiniDB.Index.Spine

/-!
# Splits climbing the tree

`insertIntoParent` puts a new right neighbour `q` next to a cell `l`: into the parent when it has
room, into one half of the split parent otherwise, and over a new root when `l` was the root. The
outcome is the same in all three cases: the level of `l` reads as before with `q` right after `l`,
and the cells that are not above that level keep everything but their links upward.

## Main definitions

* `Grown t r d L t' r' d'`: the outcome, with the level `L` in place of the old level `d`

## Main results

* `growRoot_spec`, `insertChild_spec`, `splitNode_spec`: the three ways to make room
* `insertIntoParent_spec`: the outcome of a climb, by induction on the depth
-/

namespace MiniDB.BPlusTree

open Levels

/-- The tree `t'` reads `L` at its depth `d'`, and differs from `t` only above the old depth `d`,
in new cells, and in the upward links of the cells of `L`. -/
structure Grown (t : BPlusTree) (r d : ℕ) (L : List (WithBot ℤ × ℕ)) (t' : BPlusTree) (r' d' : ℕ) :
    Prop where
  rootIdx : t'.rootIdx = some r'
  spine : Spine t' r' d'
  level : lvl t' r' d' = L
  length_le : t.nodes.length ≤ t'.nodes.length
  params : t'.params = t.params
  core : ∀ i < t.nodes.length, ¬ Above t r d i → core (t'.nd i) = core (t.nd i)
  same : ∀ i < t.nodes.length, ¬ Above t r d i → i ∉ L.map Prod.snd → t'.nd i = t.nd i
  above : ∀ i, Above t' r' d' i → Above t r d i ∨ t.nodes.length ≤ i

variable {t : BPlusTree} {r d l q : ℕ} {key : ℤ}

/-- The cells of the tree with a new root over `l` and `q`. -/
theorem growRoot_nd (key : ℤ) (hl : l < t.nodes.length) (hq : q < t.nodes.length) (hlq : l ≠ q) :
    ∃ t', t.growRoot l key q = .ok t' ∧ t'.nodes.length = t.nodes.length + 1 ∧
      t'.params = t.params ∧ t'.rootIdx = some t.nodes.length ∧
      ∀ i ≤ t.nodes.length, t'.nd i =
        if i = t.nodes.length then
          { type := .internal, pageId := t.nodes.length, isRoot := true, keys := [key]
            childIndices := [l, q], size := 1 }
        else if i = l then { t.nd l with isRoot := false, parentIdx := some t.nodes.length }
        else if i = q then { t.nd q with parentIdx := some t.nodes.length }
        else t.nd i := by
  set N := t.nodes.length with hN
  set t₁ := (t.allocateNode .internal).1 with ht₁
  have hlen₁ : t₁.nodes.length = N + 1 := length_allocateNode _
  set root : BPlusNode := { type := .internal, pageId := N, isRoot := true, keys := [key]
                            childIndices := [l, q], size := 1 } with hroot
  set t₂ := t₁.setNode N root with ht₂
  set left : BPlusNode := { t.nd l with isRoot := false, parentIdx := some N } with hleft
  set t₃ := t₂.setNode l left with ht₃
  set right : BPlusNode := { t.nd q with parentIdx := some N } with hright
  have hnd₁ : ∀ i ≤ N, t₁.nd i = if i = N then { type := .internal, pageId := N } else t.nd i :=
    fun i hi => nd_allocateNode _ hi
  have hnd₂ : ∀ i ≤ N, t₂.nd i = if i = N then root else t.nd i := by
    intro i hi
    rw [nd_setNode (by omega), hnd₁ i hi]
    split_ifs <;> rfl
  have hnd₃ : ∀ i ≤ N, t₃.nd i = if i = N then root else if i = l then left else t.nd i := by
    intro i hi
    rw [nd_setNode (by rw [length_setNode]; omega), hnd₂ i hi]
    by_cases hiN : i = N
    · rw [if_neg (by omega), if_pos hiN, if_pos hiN]
    · simp [hiN]
  refine ⟨{ t₃.setNode q right with rootIdx := some N }, ?_, ?_, ?_, rfl, fun i hi => ?_⟩
  · have hm₁ : t₁.modify N (fun n => pure { n with
        isRoot := true
        keys := n.keys ++ [key]
        childIndices := n.childIndices ++ [l, q]
        size := 1 }) = .ok t₂ := by
      refine modify_ok (by omega) ?_
      rw [hnd₁ N le_rfl, if_pos rfl]
      rfl
    have hm₂ : t₂.modify l (fun n => pure { n with isRoot := false, parentIdx := some N }) =
        .ok t₃ := by
      refine modify_ok (by rw [length_setNode]; omega) ?_
      rw [hnd₂ l hl.le, if_neg (by omega)]
      rfl
    have hm₃ : t₃.modify q (fun n => pure { n with parentIdx := some N }) =
        .ok (t₃.setNode q right) := by
      refine modify_ok (by rw [length_setNode, length_setNode]; omega) ?_
      rw [hnd₃ q hq.le, if_neg (by omega), if_neg (Ne.symm hlq)]
      rfl
    simp only [growRoot, allocateNode_snd]
    rw [← ht₁, ← hN, hm₁, Machine.ok_bind, hm₂, Machine.ok_bind, hm₃]
    rfl
  · simp [ht₃, ht₂, hlen₁, setNode]
  · simp only [params, setNode, ht₃, ht₂, ht₁, allocateNode]
  · have hnd : (({ t₃.setNode q right with rootIdx := some N } : BPlusTree)).nd i =
        (t₃.setNode q right).nd i := rfl
    rw [hnd, nd_setNode (by rw [length_setNode, length_setNode]; omega), hnd₃ i hi]
    by_cases hiq : i = q
    · subst hiq
      rw [if_pos rfl, if_neg (by omega), if_neg (Ne.symm hlq), if_pos rfl]
    · simp [hiq]

/-- A new root over the old root `l` and its new neighbour `q`. -/
theorem growRoot_spec (key : ℤ) (h : Spine t l 0) (hmax : 1 ≤ t.maxInternalKeys) (hq : q < t.nodes.length)
    (hlq : l ≠ q) (hqr : (t.nd q).isRoot = false) :
    ∃ t', t.growRoot l key q = .ok t' ∧
      Grown t l 0 [(⊥, l), (↑key, q)] t' t.nodes.length 1 := by
  have hl : l < t.nodes.length := h.bound 0 le_rfl (⊥, l) (by simp [lvl_zero])
  obtain ⟨t', ht', hlen, hpar, hroot, hnd⟩ := growRoot_nd key hl hq hlq
  have hN := hnd t.nodes.length le_rfl
  rw [if_pos rfl] at hN
  have hkN : t'.ks t.nodes.length = [key] := by rw [ks, hN]
  have hcN : t'.cs t.nodes.length = [l, q] := by rw [cs, hN]
  have hndl := hnd l hl.le
  rw [if_neg (by omega), if_pos rfl] at hndl
  have hndq := hnd q hq.le
  rw [if_neg (by omega), if_neg (Ne.symm hlq), if_pos rfl] at hndq
  have hlvl : lvl t' t.nodes.length 1 = [(⊥, l), (↑key, q)] := level_one_of_pair _ _ hkN hcN
  have habove : ∀ i, Above t' t.nodes.length 1 i → i = t.nodes.length := by
    rintro i ⟨e, he, a, ha, rfl⟩
    obtain rfl : e = 0 := by omega
    rw [lvl_zero, List.mem_singleton] at ha
    rw [ha]
  -- The new root alone is a spine of one level, which the old root and `q` extend.
  have hspine₀ : Spine t' t.nodes.length 0 := by
    refine ⟨fun e he a ha => ?_, fun e he => ?_, fun e he a ha => ?_, fun i hi => ?_,
      fun i hi => ?_, by rw [hN]⟩
    · obtain rfl : e = 0 := by omega
      rw [lvl_zero, List.mem_singleton] at ha
      rw [ha]; omega
    · obtain rfl : e = 0 := by omega
      simp [lvl_zero]
    · obtain rfl : e = 0 := by omega
      exact not_above_zero
    · exact absurd hi not_above_zero
    · exact absurd hi not_above_zero
  refine ⟨t', ht', hroot, hspine₀.succ ?_ ?_ ?_ ?_ ?_, hlvl, by omega, hpar, ?_, ?_, ?_⟩
  · intro a ha
    rw [lvl_zero, List.mem_singleton] at ha
    subst ha
    have hmax' := (params_eq_iff.mp hpar).2.2.2.1
    exact ⟨by rw [hN], by rw [hcN, hkN]; rfl, by rw [hkN, hN]; rfl,
      by rw [hkN, hmax']; exact hmax⟩
  · intro a ha c hc
    rw [lvl_zero, List.mem_singleton] at ha
    subst ha
    rw [hcN] at hc
    rcases List.mem_pair.mp hc with rfl | rfl
    · rw [hndl]; exact ⟨rfl, rfl⟩
    · rw [hndq]; exact ⟨rfl, hqr⟩
  · intro a ha
    rw [hlvl] at ha
    rcases List.mem_pair.mp ha with rfl | rfl
    · show l < _; omega
    · show q < _; omega
  · rw [hlvl]
    simp [hlq]
  · intro a ha hab
    have haN := habove _ hab
    rw [hlvl] at ha
    rcases List.mem_pair.mp ha with rfl | rfl
    · exact hl.ne haN
    · exact hq.ne haN
  · intro i hi _
    rw [hnd i hi.le, if_neg hi.ne]
    split_ifs with h₁ h₂
    · subst h₁; rfl
    · subst h₂; rfl
    · rfl
  · intro i hi _ hmem
    simp only [List.map_cons, List.map_nil, List.mem_cons, List.not_mem_nil, or_false,
      not_or] at hmem
    rw [hnd i hi.le, if_neg hi.ne, if_neg hmem.1, if_neg hmem.2]
  · intro i hi
    exact Or.inr (habove i hi).ge

/-- A new child in an internal node, at its separator's place. -/
theorem insertChild_spec {n : BPlusNode} {K₁ K₂ : List ℤ} {c₁ c₂ : List ℕ}
    (hk : n.keys = K₁ ++ K₂) (hc : n.childIndices = c₁ ++ l :: c₂) (hlen : c₁.length = K₁.length)
    (h₁ : ∀ k ∈ K₁, k < key) (h₂ : ∀ k ∈ K₂, key < k) :
    BPlusNode.insertChild n key q = .ok { n with
      keys := K₁ ++ key :: K₂
      childIndices := c₁ ++ l :: q :: c₂
      size := n.size + 1 } := by
  have hc' : n.childIndices = (c₁ ++ [l]) ++ c₂ := by simp [hc]
  have hpos : K₁.length + 1 = (c₁ ++ [l]).length := by simp [hlen]
  have hkeys : Vec.insert Fault.access n.keys K₁.length key = .ok (K₁ ++ key :: K₂) := by
    rw [hk, Vec.insert_of_le (by simp), insertIdx_append]
  have hkids : Vec.insert Fault.child n.childIndices (K₁.length + 1) q =
      .ok (c₁ ++ l :: q :: c₂) := by
    rw [hc', hpos, Vec.insert_of_le (by simp), insertIdx_append]
    simp
  simp only [BPlusNode.insertChild]
  rw [show lowerBound n.keys key = K₁.length by rw [hk]; exact lowerBound_eq h₁ h₂, hkeys, hkids]
  rfl

/-- The cells of the tree with the node `p` cut in two at its middle separator. -/
theorem splitNode_nd {p : ℕ} {n : BPlusNode} {K₁ K₂ : List ℤ} {k : ℤ} {c₁ c₂ : List ℕ}
    (hp : p < t.nodes.length) (hn : BPlusNode.insertChild (t.nd p) key q = .ok n)
    (hk : n.keys = K₁ ++ k :: K₂) (hc : n.childIndices = c₁ ++ c₂) (hmid : n.size / 2 = K₁.length)
    (hlen : c₁.length = K₁.length + 1) (hpar : n.parentIdx = (t.nd p).parentIdx)
    (hc₂ : ∀ c ∈ c₂, c < t.nodes.length) (hpc : p ∉ c₂) :
    ∃ t', t.splitNode p key q = .ok (t', k, t.nodes.length) ∧
      t'.nodes.length = t.nodes.length + 1 ∧ t'.params = t.params ∧ t'.rootIdx = t.rootIdx ∧
      ∀ i ≤ t.nodes.length, t'.nd i =
        if i = t.nodes.length then
          { type := .internal, pageId := t.nodes.length, keys := K₂, childIndices := c₂
            size := K₂.length, parentIdx := (t.nd p).parentIdx }
        else if i = p then { n with keys := K₁, childIndices := c₁, size := K₁.length }
        else if i ∈ c₂ then { t.nd i with parentIdx := some t.nodes.length }
        else t.nd i := by
  -- The states between the updates, in the order of the source.
  set N := t.nodes.length with hN
  set t₁ := t.setNode p n with ht₁
  set t₂ := (t₁.allocateNode .internal).1 with ht₂
  set right : BPlusNode := { type := .internal, pageId := N, keys := K₂, childIndices := c₂
                             size := K₂.length } with hright
  set t₃ := t₂.setNode N right with ht₃
  have hlen₁ : t₁.nodes.length = N := length_setNode
  have hlen₂ : t₂.nodes.length = N + 1 := by rw [ht₂, length_allocateNode, hlen₁]
  have hlen₃ : t₃.nodes.length = N + 1 := by rw [ht₃, length_setNode, hlen₂]
  have hnd₁ : ∀ i, t₁.nd i = if i = p then n else t.nd i := fun i => nd_setNode hp
  have hnd₂ : ∀ i ≤ N, t₂.nd i =
      if i = N then { type := .internal, pageId := N } else t₁.nd i := fun i hi => by
    rw [ht₂, nd_allocateNode _ (by omega), hlen₁]
  have hnd₃ : ∀ i ≤ N, t₃.nd i = if i = N then right else t₁.nd i := by
    intro i hi
    rw [nd_setNode (by omega), hnd₂ i hi]
    split_ifs <;> rfl
  obtain ⟨t₄, ht₄, hlen₄, hpar₄, hroot₄, hnd₄⟩ := adopt_spec N c₂ t₃ fun c hcm => by
    have := hc₂ c hcm
    omega
  have hNc : N ∉ c₂ := fun hm => (hc₂ N hm).ne rfl
  set left : BPlusNode := { n with keys := K₁, childIndices := c₁, size := K₁.length } with hleft
  set t₅ := t₄.setNode p left with ht₅
  have hnd₄p : t₄.nd p = n := by
    rw [hnd₄, if_neg hpc, hnd₃ p hp.le, if_neg hp.ne, hnd₁, if_pos rfl]
  have hnd₅ : ∀ i, t₅.nd i = if i = p then left else t₄.nd i := fun i =>
    nd_setNode (by rw [hlen₄, hlen₃]; omega)
  have hnd₅N : t₅.nd N = right := by
    rw [hnd₅, if_neg hp.ne', hnd₄, if_neg hNc, hnd₃ N le_rfl, if_pos rfl]
  have hlen₅ : t₅.nodes.length = N + 1 := by rw [ht₅, length_setNode, hlen₄, hlen₃]
  refine ⟨t₅.setNode N { right with parentIdx := n.parentIdx }, ?_, ?_, ?_, ?_, fun i hi => ?_⟩
  · have hm₁ : t.modify p (fun node => BPlusNode.insertChild node key q) = .ok t₁ :=
      modify_ok hp hn
    have hn₁ : t₁.node p = .ok n := by
      rw [node_eq (by omega), hnd₁, if_pos rfl]
    have hm₃ : t₂.modify N (fun m => pure { m with
        keys := K₂, childIndices := c₂, size := K₂.length }) = .ok t₃ := by
      refine modify_ok (by omega) ?_
      rw [hnd₂ N le_rfl, if_pos rfl]
      rfl
    have hm₅ : t₄.modify p (fun m => pure { m with
        keys := Vec.resize m.keys K₁.length 0
        childIndices := Vec.resize m.childIndices (K₁.length + 1) 0
        size := K₁.length }) = .ok t₅ := by
      refine modify_ok (by omega) ?_
      rw [hnd₄p, hk, hc, Vec.resize_of_le (by simp), Vec.resize_of_le (by simp [← hlen]),
        List.take_left, ← hlen, List.take_left]
      rfl
    have hn₅ : t₅.node p = .ok left := by
      rw [node_eq (by omega), hnd₅, if_pos rfl]
    have hm₆ : t₅.modify N (fun m => pure { m with parentIdx := left.parentIdx }) =
        .ok (t₅.setNode N { right with parentIdx := n.parentIdx }) := by
      refine modify_ok (by omega) ?_
      rw [hnd₅N]
      rfl
    simp only [splitNode]
    rw [hm₁, Machine.ok_bind, hn₁, Machine.ok_bind, hmid, hk, Vec.get_append_cons,
      Machine.ok_bind, hc, Vec.suffix_of_le (by simp), Machine.ok_bind,
      Vec.suffix_of_le (by simp [← hlen]), Machine.ok_bind, ← hlen, List.drop_left,
      show (K₁ ++ k :: K₂).drop c₁.length = K₂ by rw [hlen]; simp, allocateNode_snd, hlen₁, ← ht₂,
      hm₃, Machine.ok_bind, ht₄, Machine.ok_bind, hlen, hm₅, Machine.ok_bind, hn₅,
      Machine.ok_bind, hm₆]
    rfl
  · rw [length_setNode, hlen₅]
  · rw [params_setNode, ht₅, params_setNode, hpar₄, ht₃, params_setNode, ht₂, params_allocateNode,
      ht₁, params_setNode]
  · rw [rootIdx_setNode, ht₅, rootIdx_setNode, hroot₄, ht₃, rootIdx_setNode, ht₂,
      rootIdx_allocateNode, ht₁, rootIdx_setNode]
  · rw [nd_setNode (by omega), hnd₅]
    by_cases hiN : i = N
    · rw [if_pos hiN, if_pos hiN, hpar]
    · rw [if_neg hiN, if_neg hiN]
      by_cases hip : i = p
      · rw [if_pos hip, if_pos hip]
      · rw [if_neg hip, if_neg hip, hnd₄, hnd₃ i hi, if_neg hiN, hnd₁, if_neg hip]

section Climb

variable {A B PA PB C₁ C₂ : List (WithBot ℤ × ℕ)} {lo plo : WithBot ℤ} {p : ℕ}

/-- The cells of a level with a new neighbour are distinct. -/
theorem nodup_insert (hnd : ((A ++ (lo, l) :: B).map Prod.snd).Nodup)
    (hq : q ∉ (A ++ (lo, l) :: B).map Prod.snd) :
    ((A ++ (lo, l) :: (↑key, q) :: B).map Prod.snd).Nodup := by
  have hperm : ((A ++ (lo, l) :: ((key : WithBot ℤ), q) :: B).map Prod.snd).Perm
      (q :: (A ++ (lo, l) :: B).map Prod.snd) := by
    have : (A ++ [(lo, l)] ++ ((key : WithBot ℤ), q) :: B).Perm
        (((key : WithBot ℤ), q) :: (A ++ [(lo, l)] ++ B)) := List.perm_middle
    simpa using this.map Prod.snd
  exact hperm.nodup_iff.mpr (List.nodup_cons.mpr ⟨hq, hnd⟩)

theorem mem_insert {i : ℕ} : i ∈ (A ++ (lo, l) :: (↑key, q) :: B).map Prod.snd ↔
    i ∈ (A ++ (lo, l) :: B).map Prod.snd ∨ i = q := by
  simp only [List.map_append, List.map_cons]
  exact mem_around₂

/-- The other cells of a level of distinct cells. -/
theorem ne_of_nodup (h : ((PA ++ (plo, p) :: PB).map Prod.snd).Nodup) :
    ∀ a ∈ PA ++ PB, a.2 ≠ p := by
  intro a ha heq
  have hperm : (PA ++ (plo, p) :: PB).Perm ((plo, p) :: (PA ++ PB)) := List.perm_middle
  have hnd := (hperm.map Prod.snd).nodup_iff.mp h
  have hmem : a.2 ∈ (PA ++ PB).map Prod.snd := List.mem_map_of_mem ha
  exact (List.nodup_cons.mp hnd).1 (heq ▸ hmem)

/-- The cells of a level other than the one at a given place. -/
theorem Spine.ne_of_mem_around (h : Spine t r d) (hL : lvl t r d = A ++ (lo, l) :: B) :
    ∀ a ∈ A ++ B, a.2 ≠ l := by
  have hnd := h.nodup d le_rfl
  rw [hL] at hnd
  exact ne_of_nodup hnd

/-- The children of `p` around `l` and `q` lie next to each other in their level. -/
theorem around_sublist {f : WithBot ℤ × ℕ → List (WithBot ℤ × ℕ)} {x : List (WithBot ℤ × ℕ)}
    (hA : A = PA.flatMap f ++ C₁) (hB : B = C₂ ++ PB.flatMap f) :
    (C₁ ++ x ++ C₂).Sublist (A ++ x ++ B) := by
  rw [hA, hB]
  exact ((List.sublist_append_right _ _).append (List.Sublist.refl x)).append
    (List.sublist_append_left _ _)

/-- The parent `p` of `l` with the new child `q` in it: a well-formed node but for its size. -/
theorem exists_insertChild (key : ℤ) (q : ℕ) (hp : Internal t p)
    (hx : expand t.ks t.cs (plo, p) = C₁ ++ (lo, l) :: C₂)
    (hs : Ascending (C₁ ++ (lo, l) :: (↑key, q) :: C₂)) :
    ∃ K c, BPlusNode.insertChild (t.nd p) key q = .ok { t.nd p with
        keys := K, childIndices := c, size := K.length } ∧
      K.length = (t.ks p).length + 1 ∧ c.length = K.length + 1 ∧
      c = C₁.map Prod.snd ++ l :: q :: C₂.map Prod.snd ∧
      (plo :: K.map WithBot.some).zip c = C₁ ++ (lo, l) :: (↑key, q) :: C₂ := by
  obtain ⟨h₁, h₂⟩ := expand_between (a := (plo, p)) hp.children hx hs
  obtain ⟨-, -, hle⟩ := expand_halves (a := (plo, p)) hp.children hx
  have hc := (expand_split_at (a := (plo, p)) hp.children hx).1
  have hzip := zip_insert (a := (plo, p)) hp.children hx key q
  dsimp only at h₁ h₂ hle hc hzip
  have hchild := hp.children
  have hlen : (C₁.map Prod.snd).length = ((t.ks p).take C₁.length).length := by
    rw [List.length_map, List.length_take, min_eq_left hle]
  have hK : ((t.ks p).take C₁.length ++ key :: (t.ks p).drop C₁.length).length =
      (t.ks p).length + 1 := by
    rw [List.length_append, List.length_cons, List.length_take, List.length_drop, min_eq_left hle]
    omega
  refine ⟨(t.ks p).take C₁.length ++ key :: (t.ks p).drop C₁.length,
    C₁.map Prod.snd ++ l :: q :: C₂.map Prod.snd, ?_, hK, ?_, rfl, hzip⟩
  · rw [insertChild_spec (List.take_append_drop C₁.length _).symm hc hlen h₁ h₂, hp.size, hK]
    rfl
  · rw [hK, ← hchild, hc]
    simp only [List.length_append, List.length_cons]
    omega

/-- Changing only the node `p` at depth `d` and the upward links of cells below it keeps the spine
down to depth `d`. -/
theorem spine_of_touch (t' : BPlusTree) (touched : ℕ → Prop) (h : Spine t r (d + 1))
    (hp : p ∈ (lvl t r d).map Prod.snd) (hlen : t.nodes.length ≤ t'.nodes.length)
    (hpar : t'.params = t.params)
    (hlink : (t'.nd p).parentIdx = (t.nd p).parentIdx ∧ (t'.nd p).isRoot = (t.nd p).isRoot)
    (htouch : ∀ i, touched i → ¬ Above t r (d + 1) i)
    (hsame : ∀ i < t.nodes.length, i ≠ p → ¬ touched i → t'.nd i = t.nd i) :
    Spine t' r d ∧ ∀ e ≤ d, lvl t' r e = lvl t r e := by
  have hup : ∀ i, Above t r d i → t'.nd i = t.nd i := fun i hi =>
    hsame i (h.pred.above_lt hi) (fun heq => h.pred.not_above_of_mem hp (heq ▸ hi))
      fun ht => htouch i ht (hi.mono (Nat.le_succ d))
  have hflags : ∀ c, Above t r (d + 1) c → (t'.nd c).parentIdx = (t.nd c).parentIdx ∧
      (t'.nd c).isRoot = (t.nd c).isRoot := by
    intro c hc
    by_cases hcp : c = p
    · subst hcp; exact hlink
    · rw [hsame c (h.above_lt hc) hcp fun ht => htouch c ht hc]
      exact ⟨rfl, rfl⟩
  refine ⟨h.pred.transfer hlen hpar (fun i hi => by rw [hup i hi]) (fun i hi c hc => ?_) ?_,
    lvl_congr fun i hi => by rw [ks, cs, hup i hi]; exact ⟨rfl, rfl⟩⟩
  · obtain ⟨e, he, lo, hb⟩ := h.pred.child_mem hi hc
    exact hflags c ⟨e + 1, by omega, _, hb, rfl⟩
  · rw [(hflags r ⟨0, Nat.succ_pos d, (⊥, r), by simp [lvl_zero], rfl⟩).2]
    exact h.root

/-- The parent has room: `q` becomes its child right after `l`. -/
theorem roomInParent_spec (h : Spine t r (d + 1)) (hroot : t.rootIdx = some r)
    (hL : lvl t r d = PA ++ (plo, p) :: PB)
    (hx : expand t.ks t.cs (plo, p) = C₁ ++ (lo, l) :: C₂) (hp : Internal t p)
    (hlvl : lvl t r (d + 1) = A ++ (lo, l) :: B) (hA : A = PA.flatMap (expand t.ks t.cs) ++ C₁)
    (hB : B = C₂ ++ PB.flatMap (expand t.ks t.cs))
    (hs : Ascending (A ++ (lo, l) :: (↑key, q) :: B)) (hq : q < t.nodes.length)
    (hqr : (t.nd q).isRoot = false) (hqL : q ∉ (lvl t r (d + 1)).map Prod.snd)
    (hqa : ¬ Above t r (d + 1) q) (hroom : (t.nd p).size < t.maxInternalKeys) :
    ∃ t₁ t₂, t.modify p (fun n => BPlusNode.insertChild n key q) = .ok t₁ ∧
      t₁.modify q (fun n => pure { n with parentIdx := some p }) = .ok t₂ ∧
      Grown t r (d + 1) (A ++ (lo, l) :: (↑key, q) :: B) t₂ r (d + 1) := by
  have hpm : (plo, p) ∈ lvl t r d := by simp [hL]
  have hpL : p ∈ (lvl t r d).map Prod.snd := List.mem_map_of_mem hpm
  have hpa : Above t r (d + 1) p := above_of_mem hpm
  have hpt : p < t.nodes.length := h.above_lt hpa
  have hpq : p ≠ q := fun heq => hqa (heq ▸ hpa)
  obtain ⟨K, c, hn, hK, hcK, hc, hzip⟩ := exists_insertChild key q hp hx
    (hs.sublist (by simpa using around_sublist (x := [(lo, l), (↑key, q)]) hA hB))
  set n : BPlusNode := { t.nd p with keys := K, childIndices := c, size := K.length } with hndef
  set qn : BPlusNode := { t.nd q with parentIdx := some p } with hqn
  set t₁ := t.setNode p n with ht₁
  set t₂ := t₁.setNode q qn with ht₂
  have hlen₁ : t₁.nodes.length = t.nodes.length := length_setNode
  have hnd₁ : ∀ i, t₁.nd i = if i = p then n else t.nd i := fun i => nd_setNode hpt
  have hnd : ∀ i, t₂.nd i = if i = q then qn else if i = p then n else t.nd i := fun i => by
    rw [ht₂, nd_setNode (by omega), hnd₁]
  have hlen : t₂.nodes.length = t.nodes.length := by rw [ht₂, length_setNode, hlen₁]
  have hother : ∀ i, i ≠ q → i ≠ p → t₂.nd i = t.nd i := fun i hiq hip => by
    rw [hnd, if_neg hiq, if_neg hip]
  have hndp : t₂.nd p = n := by rw [hnd, if_neg hpq, if_pos rfl]
  have hndq : t₂.nd q = qn := by rw [hnd, if_pos rfl]
  obtain ⟨hsp, hlv⟩ := spine_of_touch t₂ (· = q) h hpL hlen.ge rfl
    (by rw [hndp]; exact ⟨rfl, rfl⟩) (by rintro i rfl; exact hqa)
    fun i _ hip hiq => hother i hiq hip
  have hnotp : ∀ a ∈ PA ++ PB, a.2 ≠ p := ne_of_nodup (hL ▸ h.nodup d (Nat.le_succ d))
  have hlvl₂ : lvl t₂ r (d + 1) = A ++ (lo, l) :: (↑key, q) :: B := by
    have hexp : ∀ a ∈ PA ++ PB, expand t₂.ks t₂.cs a = expand t.ks t.cs a := by
      intro a ha
      have haL : a ∈ lvl t r d := hL ▸ mem_around_of_mem ha
      have haq : a.2 ≠ q := fun heq => hqa (heq ▸ above_of_mem haL)
      rw [expand, expand, ks, cs, hother a.2 haq (hnotp a ha)]
      rfl
    have hexpp : expand t₂.ks t₂.cs (plo, p) = C₁ ++ (lo, l) :: (↑key, q) :: C₂ := by
      rw [← hzip, expand, ks, cs, hndp]
    rw [lvl_succ, hlv d le_rfl, hL, List.flatMap_append, List.flatMap_cons, hexpp,
      List.flatMap_congr fun a ha => hexp a (List.mem_append_left _ ha),
      List.flatMap_congr fun a ha => hexp a (List.mem_append_right _ ha), hA, hB]
    simp
  have hab : ∀ i, Above t₂ r (d + 1) i ↔ Above t r (d + 1) i := by
    intro i
    constructor <;> rintro ⟨e, he, a, ha, rfl⟩
    · exact ⟨e, he, a, hlv e (by omega) ▸ ha, rfl⟩
    · exact ⟨e, he, a, (hlv e (by omega)).symm ▸ ha, rfl⟩
  refine ⟨t₁, t₂, modify_ok hpt hn, modify_ok (by omega) ?_, hroot, hsp.succ ?_ ?_ ?_ ?_ ?_, hlvl₂,
    hlen.ge, rfl, ?_, ?_, fun i hi => Or.inl ((hab i).mp hi)⟩
  · rw [hnd₁, if_neg (Ne.symm hpq)]
    rfl
  · intro a ha
    rw [hlv d le_rfl] at ha
    by_cases hap : a.2 = p
    · rw [hap]
      have hsize := hp.size
      refine ⟨by rw [hndp]; exact hp.type, ?_, by rw [ks, hndp], ?_⟩
      · rw [cs, ks, hndp]; exact hcK
      · rw [ks, hndp]
        show K.length ≤ t.maxInternalKeys
        omega
    · have haq : a.2 ≠ q := fun heq => hqa (heq ▸ above_of_mem ha)
      exact (h.internal a.2 (above_of_mem ha)).congr rfl (by rw [hother a.2 haq hap])
  · intro a ha x hxm
    rw [hlv d le_rfl] at ha
    have hold : x ∈ t.cs a.2 → (t₂.nd x).parentIdx = some a.2 ∧ (t₂.nd x).isRoot = false := by
      intro hxa
      have hxL := h.mem_lvl_succ ha hxa
      rw [hother x (fun heq => hqL (heq ▸ hxL))
        (fun heq => h.not_above_of_mem hxL (heq ▸ hpa))]
      exact h.parent a.2 (above_of_mem ha) x hxa
    by_cases hap : a.2 = p
    · rw [hap, cs, hndp] at hxm
      change x ∈ c at hxm
      rw [hc] at hxm
      have hcs := (expand_split_at (a := (plo, p)) hp.children hx).1
      rcases eq_or_ne x q with rfl | hxq
      · rw [hndq, hap]
        exact ⟨rfl, hqr⟩
      · refine hold ?_
        rw [hap, hcs]
        exact (mem_around₂.mp hxm).resolve_right hxq
    · have haq : a.2 ≠ q := fun heq => hqa (heq ▸ above_of_mem ha)
      rw [cs, hother a.2 haq hap] at hxm
      exact hold hxm
  · intro a ha
    rw [hlvl₂] at ha
    have : a.2 ∈ (A ++ (lo, l) :: B).map Prod.snd ∨ a.2 = q := mem_insert.mp (List.mem_map_of_mem ha)
    rw [hlen]
    rcases this with hm | hm
    · exact h.lt_of_mem (hlvl ▸ hm)
    · omega
  · rw [hlvl₂]
    exact nodup_insert (hlvl ▸ h.nodup (d + 1) le_rfl) (hlvl ▸ hqL)
  · intro a ha
    rw [hlvl₂] at ha
    rw [hab]
    rcases mem_insert.mp (List.mem_map_of_mem ha) with hm | hm
    · exact h.not_above_of_mem (hlvl ▸ hm)
    · rw [hm]; exact hqa
  · intro i _ hia
    have hip : i ≠ p := fun heq => hia (heq ▸ hpa)
    by_cases hiq : i = q
    · rw [hiq, hndq]; rfl
    · rw [hother i hiq hip]
  · intro i _ hia hiL
    have hip : i ≠ p := fun heq => hia (heq ▸ hpa)
    exact hother i (fun heq => hiL (mem_insert.mpr (Or.inr heq))) hip

/-- The tree `t₂` in which the full parent `p` has been cut in two at `k`, with the new cell for
the right half not yet in its level. -/
structure Cut (t : BPlusTree) (r d : ℕ) (L L' : List (WithBot ℤ × ℕ)) (t₂ : BPlusTree) : Prop where
  length : t₂.nodes.length = t.nodes.length + 1
  params : t₂.params = t.params
  rootIdx : t₂.rootIdx = t.rootIdx
  spine : Spine t₂ r d
  levels : ∀ e ≤ d, lvl t₂ r e = lvl t r e
  flat : L'.flatMap (expand t₂.ks t₂.cs) = L
  internal : ∀ a ∈ L', Internal t₂ a.2
  parent : ∀ a ∈ L', ∀ c ∈ t₂.cs a.2, (t₂.nd c).parentIdx = some a.2 ∧ (t₂.nd c).isRoot = false
  fresh : (t₂.nd t.nodes.length).isRoot = false
  core : ∀ i < t.nodes.length, ¬ Above t r (d + 1) i → core (t₂.nd i) = core (t.nd i)
  same : ∀ i < t.nodes.length, ¬ Above t r (d + 1) i → i ∉ L.map Prod.snd → t₂.nd i = t.nd i

/-- The parent is full: with `q` next to `l` it is cut in two. -/
theorem splitParent_spec (h : Spine t r (d + 1)) (hmax : 2 ≤ t.maxInternalKeys)
    (hL : lvl t r d = PA ++ (plo, p) :: PB)
    (hx : expand t.ks t.cs (plo, p) = C₁ ++ (lo, l) :: C₂) (hp : Internal t p)
    (hlvl : lvl t r (d + 1) = A ++ (lo, l) :: B) (hA : A = PA.flatMap (expand t.ks t.cs) ++ C₁)
    (hB : B = C₂ ++ PB.flatMap (expand t.ks t.cs))
    (hs : Ascending (A ++ (lo, l) :: (↑key, q) :: B)) (hq : q < t.nodes.length)
    (hqr : (t.nd q).isRoot = false) (hqL : q ∉ (lvl t r (d + 1)).map Prod.snd)
    (hqa : ¬ Above t r (d + 1) q) (hfull : ¬ (t.nd p).size < t.maxInternalKeys) :
    ∃ t₁ t₂ k, t.modify q (fun n => pure { n with parentIdx := some p }) = .ok t₁ ∧
      t₁.splitNode p key q = .ok (t₂, k, t.nodes.length) ∧
      Cut t r d (A ++ (lo, l) :: (↑key, q) :: B)
        (PA ++ (plo, p) :: (↑k, t.nodes.length) :: PB) t₂ := by
  have hpm : (plo, p) ∈ lvl t r d := by simp [hL]
  have hpL : p ∈ (lvl t r d).map Prod.snd := List.mem_map_of_mem hpm
  have hpa : Above t r (d + 1) p := above_of_mem hpm
  have hpt : p < t.nodes.length := h.above_lt hpa
  have hpq : p ≠ q := fun heq => hqa (heq ▸ hpa)
  obtain ⟨K, c, hn, hK, hcK, hc, hzip⟩ := exists_insertChild key q hp hx
    (hs.sublist (by simpa using around_sublist (x := [(lo, l), (↑key, q)]) hA hB))
  have hsize := hp.size
  have hsize_le := hp.size_le
  have hcs := (expand_split_at (a := (plo, p)) hp.children hx).1
  dsimp only at hcs
  have hmemc : ∀ x, x ∈ c ↔ x ∈ t.cs p ∨ x = q := by
    intro x
    rw [hc, hcs]
    exact mem_around₂
  have hcL : ∀ x ∈ c, x ∈ (lvl t r (d + 1)).map Prod.snd ∨ x = q := fun x hxc =>
    ((hmemc x).mp hxc).imp (h.mem_lvl_succ hpm) id
  have hca : ∀ x ∈ c, ¬ Above t r (d + 1) x := by
    intro x hxc
    rcases hcL x hxc with hm | rfl
    · exact h.not_above_of_mem hm
    · exact hqa
  have hct : ∀ x ∈ c, x < t.nodes.length := by
    intro x hxc
    rcases hcL x hxc with hm | rfl
    · exact h.lt_of_mem hm
    · exact hq
  have hcnd : c.Nodup := by
    have hperm : c.Perm (q :: t.cs p) := by
      have : (C₁.map Prod.snd ++ [l] ++ q :: C₂.map Prod.snd).Perm
          (q :: (C₁.map Prod.snd ++ [l] ++ C₂.map Prod.snd)) := List.perm_middle
      simpa [hc, hcs] using this
    exact hperm.nodup_iff.mpr (List.nodup_cons.mpr
      ⟨fun hm => hqL (h.mem_lvl_succ hpm hm), h.nodup_children hpm⟩)
  obtain ⟨K₁, k, K₂, hKeq, hK₁⟩ : ∃ K₁ k K₂, K = K₁ ++ k :: K₂ ∧ K.length / 2 = K₁.length := by
    have hlt : K.length / 2 < K.length := by omega
    exact ⟨K.take (K.length / 2), K[K.length / 2], K.drop (K.length / 2 + 1),
      by rw [List.getElem_cons_drop, List.take_append_drop],
      by rw [List.length_take, min_eq_left hlt.le]⟩
  obtain ⟨c₁, c₂, hceq, hc₁⟩ : ∃ c₁ c₂, c = c₁ ++ c₂ ∧ c₁.length = K₁.length + 1 :=
    ⟨c.take (K₁.length + 1), c.drop (K₁.length + 1), (List.take_append_drop _ _).symm, by
      rw [List.length_take, min_eq_left (by omega)]⟩
  have hKlen : K₁.length + (K₂.length + 1) = K.length := by simp [hKeq]
  have hclen : c₁.length + c₂.length = c.length := by simp [hceq]
  have hc₁m : ∀ x ∈ c₁, x ∈ c := fun x hm => hceq ▸ List.mem_append_left _ hm
  have hc₂m : ∀ x ∈ c₂, x ∈ c := fun x hm => hceq ▸ List.mem_append_right _ hm
  have hc₁₂ : ∀ x ∈ c₁, x ∉ c₂ := fun x h₁ h₂ =>
    (List.nodup_append.mp (hceq ▸ hcnd)).2.2 x h₁ x h₂ rfl
  set qn : BPlusNode := { t.nd q with parentIdx := some p } with hqn
  set t₁ := t.setNode q qn with ht₁
  have hlen₁ : t₁.nodes.length = t.nodes.length := length_setNode
  have hnd₁ : ∀ i, t₁.nd i = if i = q then qn else t.nd i := fun i => nd_setNode hq
  have hnd₁p : t₁.nd p = t.nd p := by rw [hnd₁, if_neg hpq]
  have hn₁ : BPlusNode.insertChild (t₁.nd p) key q = .ok { t.nd p with
      keys := K, childIndices := c, size := K.length } := by
    rw [hnd₁p]
    exact hn
  have hlink₁ : (t.nd p).parentIdx = (t₁.nd p).parentIdx := by rw [hnd₁p]
  obtain ⟨t₂, ht₂, hlen₂, hpar₂, hroot₂, hnd₂⟩ :=
    splitNode_nd (hlen₁ ▸ hpt) hn₁ hKeq hceq hK₁ hc₁ hlink₁
      (fun x hm => by rw [hlen₁]; exact hct x (hc₂m x hm)) fun hm => hca p (hc₂m p hm) hpa
  rw [hlen₁] at hlen₂ ht₂ hnd₂
  have hm₁ : t.modify q (fun n => pure { n with parentIdx := some p }) = .ok t₁ := modify_ok hq rfl
  have hndN := hnd₂ t.nodes.length le_rfl
  rw [if_pos rfl] at hndN
  have hndp := hnd₂ p hpt.le
  rw [if_neg hpt.ne, if_pos rfl] at hndp
  have hcore : ∀ i < t.nodes.length, i ≠ p → BPlusTree.core (t₂.nd i) = BPlusTree.core (t.nd i) := by
    intro i hi hip
    rw [hnd₂ i hi.le, if_neg hi.ne, if_neg hip, hnd₁]
    by_cases hiq : i = q
    · subst hiq
      split_ifs <;> rfl
    · rw [if_neg hiq]
      split_ifs <;> rfl
  have hother : ∀ i < t.nodes.length, i ≠ p → i ∉ c → t₂.nd i = t.nd i := by
    intro i hi hip hic
    rw [hnd₂ i hi.le, if_neg hi.ne, if_neg hip, if_neg fun hm => hic (hc₂m i hm), hnd₁,
      if_neg fun heq => hic ((hmemc i).mpr (Or.inr heq))]
  obtain ⟨hsp, hlv⟩ := spine_of_touch t₂ (· ∈ c) h hpL (by omega) hpar₂
    (by rw [hndp]; exact ⟨rfl, rfl⟩) hca hother
  have hnotp : ∀ a ∈ PA ++ PB, a.2 ≠ p := ne_of_nodup (hL ▸ h.nodup d (Nat.le_succ d))
  have hmemL : ∀ a ∈ PA ++ PB, a ∈ lvl t r d := fun a ha => hL ▸ mem_around_of_mem ha
  have hL' : ∀ a ∈ PA ++ (plo, p) :: ((k : WithBot ℤ), t.nodes.length) :: PB,
      a ∈ PA ++ PB ∨ a.2 = p ∨ a.2 = t.nodes.length := by
    intro a ha
    rcases mem_around₂.mp ha with ha | rfl
    · exact (mem_around ha).elim (fun heq => Or.inr (Or.inl (by rw [heq]))) Or.inl
    · exact Or.inr (Or.inr rfl)
  refine ⟨t₁, t₂, k, hm₁, ht₂, hlen₂, hpar₂, hroot₂, hsp, hlv, ?_, ?_, ?_, by rw [hndN], ?_, ?_⟩
  · have hexp : ∀ a ∈ PA ++ PB, expand t₂.ks t₂.cs a = expand t.ks t.cs a := by
      intro a ha
      have hc' := hcore a.2 (h.above_lt (above_of_mem (hmemL a ha))) (hnotp a ha)
      rw [expand, expand, ks_eq_of_core hc', cs_eq_of_core hc']
    have hcut : expand t₂.ks t₂.cs (plo, p) ++ expand t₂.ks t₂.cs (↑k, t.nodes.length) =
        C₁ ++ (lo, l) :: (↑key, q) :: C₂ := by
      rw [expand_split hc₁ (by rw [ks, hndp]) (by rw [cs, hndp]) (by rw [ks, hndN])
        (by rw [cs, hndN]), ← hKeq, ← hceq, hzip]
    rw [List.flatMap_append, List.flatMap_cons, List.flatMap_cons, ← List.append_assoc (expand _ _ _),
      hcut, List.flatMap_congr fun a ha => hexp a (List.mem_append_left _ ha),
      List.flatMap_congr fun a ha => hexp a (List.mem_append_right _ ha), hA, hB]
    simp
  · intro a ha
    have hmax₂ : t₂.maxInternalKeys = t.maxInternalKeys := (params_eq_iff.mp hpar₂).2.2.2.1
    rcases hL' a ha with ha' | ha' | ha'
    · exact (h.internal a.2 (above_of_mem (hmemL a ha'))).congr hpar₂
        (hcore a.2 (h.above_lt (above_of_mem (hmemL a ha'))) (hnotp a ha'))
    · rw [ha']
      refine ⟨by rw [hndp]; exact hp.type, by rw [cs, ks, hndp]; exact hc₁, by rw [ks, hndp], ?_⟩
      rw [ks, hndp, hmax₂]
      show K₁.length ≤ _
      omega
    · rw [ha']
      refine ⟨by rw [hndN], ?_, by rw [ks, hndN], ?_⟩
      · rw [cs, ks, hndN]
        show c₂.length = K₂.length + 1
        omega
      · rw [ks, hndN, hmax₂]
        show K₂.length ≤ _
        omega
  · intro a ha x hxm
    rcases hL' a ha with ha' | ha' | ha'
    · have haL := hmemL a ha'
      have hc' := hcore a.2 (h.above_lt (above_of_mem haL)) (hnotp a ha')
      rw [cs_eq_of_core hc'] at hxm
      have hxL := h.mem_lvl_succ haL hxm
      have hxc : x ∉ c := by
        intro hxc
        rcases (hmemc x).mp hxc with hm | rfl
        · exact hnotp a ha' (h.eq_of_child haL hpm hxm hm)
        · exact hqL hxL
      rw [hother x (h.lt_of_mem hxL) (fun heq => h.not_above_of_mem hxL (heq ▸ hpa)) hxc]
      exact h.parent a.2 (above_of_mem haL) x hxm
    · rw [ha', cs, hndp] at hxm
      change x ∈ c₁ at hxm
      have hxp : x ≠ p := fun heq => hca x (hc₁m x hxm) (heq ▸ hpa)
      have hxt := hct x (hc₁m x hxm)
      rw [hnd₂ x hxt.le, if_neg hxt.ne, if_neg hxp, if_neg (hc₁₂ x hxm), hnd₁, ha']
      rcases (hmemc x).mp (hc₁m x hxm) with hm | rfl
      · rw [if_neg fun heq : x = q => hqL (heq ▸ h.mem_lvl_succ hpm hm)]
        exact h.parent p hpa x hm
      · rw [if_pos rfl]
        exact ⟨rfl, hqr⟩
    · rw [ha', cs, hndN] at hxm
      change x ∈ c₂ at hxm
      have hxp : x ≠ p := fun heq => hca x (hc₂m x hxm) (heq ▸ hpa)
      have hxt := hct x (hc₂m x hxm)
      rw [hnd₂ x hxt.le, if_neg hxt.ne, if_neg hxp, if_pos hxm, hnd₁, ha']
      refine ⟨rfl, ?_⟩
      rcases (hmemc x).mp (hc₂m x hxm) with hm | rfl
      · rw [if_neg fun heq : x = q => hqL (heq ▸ h.mem_lvl_succ hpm hm)]
        exact (h.parent p hpa x hm).2
      · rw [if_pos rfl]
        exact hqr
  · intro i hi hia
    exact hcore i hi fun heq => hia (heq ▸ hpa)
  · intro i hi hia hiL
    refine hother i hi (fun heq => hia (heq ▸ hpa)) fun hic => hiL ?_
    rw [mem_insert]
    exact (hcL i hic).imp_left fun hm => hlvl ▸ hm

/-- The climb goes on from a cut parent: what it does to the cut tree, it does to the tree. -/
theorem Cut.grown {k : ℤ} {t₂ t₃ : BPlusTree} {r₃ d₃ : ℕ} {L : List (WithBot ℤ × ℕ)}
    (h : Spine t r (d + 1)) (hL : lvl t r d = PA ++ (plo, p) :: PB)
    (hnd : (L.map Prod.snd).Nodup)
    (hfresh : ∀ a ∈ L, a.2 < t.nodes.length ∧ ¬ Above t r (d + 1) a.2)
    (hcut : Cut t r d L (PA ++ (plo, p) :: (↑k, t.nodes.length) :: PB) t₂)
    (hg : Grown t₂ r d (PA ++ (plo, p) :: (↑k, t.nodes.length) :: PB) t₃ r₃ d₃) :
    Grown t r (d + 1) L t₃ r₃ (d₃ + 1) := by
  set L' := PA ++ (plo, p) :: ((k : WithBot ℤ), t.nodes.length) :: PB with hL'
  have hlen := hcut.length
  have hmem' : ∀ i ∈ L'.map Prod.snd, Above t r (d + 1) i ∨ i = t.nodes.length := by
    intro i hi
    exact (mem_insert.mp hi).imp_left fun hm => above_succ.mpr (Or.inr (hL ▸ hm))
  have hab₂ : ∀ i, Above t₂ r d i → Above t r (d + 1) i := by
    rintro i ⟨e, he, a, ha, rfl⟩
    rw [hcut.levels e he.le] at ha
    exact ⟨e, he.trans (Nat.lt_succ_self d), a, ha, rfl⟩
  have hL't : ∀ a ∈ L', a.2 < t₂.nodes.length ∧ ¬ Above t₂ r d a.2 := by
    intro a ha
    rcases mem_insert.mp (List.mem_map_of_mem ha) with hm | hm
    · rw [← hL] at hm
      refine ⟨by have := h.pred.lt_of_mem hm; omega, ?_⟩
      rintro ⟨e, he, b, hb, hba⟩
      rw [hcut.levels e he.le] at hb
      exact h.pred.not_above_of_mem hm ⟨e, he, b, hb, hba⟩
    · rw [hm]
      exact ⟨by omega, fun ha => (h.above_lt (hab₂ _ ha)).ne rfl⟩
  have hcoreL' : ∀ a ∈ L', BPlusTree.core (t₃.nd a.2) = BPlusTree.core (t₂.nd a.2) := fun a ha =>
    hg.core a.2 (hL't a ha).1 (hL't a ha).2
  have hLnot : ∀ i < t.nodes.length, ¬ Above t r (d + 1) i →
      ¬ Above t₂ r d i ∧ i ∉ L'.map Prod.snd := by
    intro i hi hia
    refine ⟨fun ha => hia (hab₂ i ha), fun hm => ?_⟩
    rcases hmem' i hm with ha | rfl
    · exact hia ha
    · exact hi.ne rfl
  have habove : ∀ i, Above t₃ r₃ (d₃ + 1) i → Above t r (d + 1) i ∨ t.nodes.length ≤ i := by
    intro i hi
    rcases above_succ.mp hi with hi | hi
    · rcases hg.above i hi with ha | hle
      · exact Or.inl (hab₂ i ha)
      · exact Or.inr (by omega)
    · rw [hg.level] at hi
      exact (hmem' i hi).imp_right fun heq => heq.ge
  have hlvl : lvl t₃ r₃ (d₃ + 1) = L := by
    rw [lvl_succ, hg.level, ← hcut.flat]
    refine List.flatMap_congr fun a ha => ?_
    rw [expand, expand, ks_eq_of_core (hcoreL' a ha), cs_eq_of_core (hcoreL' a ha)]
  refine ⟨hg.rootIdx, hg.spine.succ ?_ ?_ ?_ ?_ ?_, hlvl, by have := hg.length_le; omega,
    hg.params.trans hcut.params, ?_, ?_, habove⟩
  · intro a ha
    rw [hg.level] at ha
    exact (hcut.internal a ha).congr hg.params (hcoreL' a ha)
  · intro a ha c hc
    rw [hg.level] at ha
    rw [cs_eq_of_core (hcoreL' a ha)] at hc
    have hcL : c ∈ L.map Prod.snd := by
      rw [← expand_snd (hcut.internal a ha).children] at hc
      obtain ⟨b, hb, rfl⟩ := List.mem_map.mp hc
      rw [← hcut.flat]
      exact List.mem_map_of_mem (List.mem_flatMap.mpr ⟨a, ha, hb⟩)
    obtain ⟨b, hb, rfl⟩ := List.mem_map.mp hcL
    obtain ⟨hbt, hba⟩ := hfresh b hb
    obtain ⟨hba₂, hbL'⟩ := hLnot b.2 hbt hba
    rw [hg.same b.2 (by omega) hba₂ hbL']
    exact hcut.parent a ha b.2 hc
  · intro a ha
    rw [hlvl] at ha
    have := (hfresh a ha).1
    have := hg.length_le
    omega
  · rw [hlvl]
    exact hnd
  · intro a ha hab
    rw [hlvl] at ha
    obtain ⟨hat, haa⟩ := hfresh a ha
    rcases habove a.2 hab with h₁ | h₁
    · exact haa h₁
    · omega
  · intro i hi hia
    rw [hg.core i (by omega) (hLnot i hi hia).1]
    exact hcut.core i hi hia
  · intro i hi hia hiL
    rw [hg.same i (by omega) (hLnot i hi hia).1 (hLnot i hi hia).2]
    exact hcut.same i hi hia hiL

end Climb

/-- The outcome of `insertIntoParent`, by induction on the depth of the cell that was split: at the
root a new root is grown, below it the parent takes the new cell or is split in its turn. -/
theorem insertIntoParent_spec : ∀ (d fuel : ℕ) (t : BPlusTree) {r l q : ℕ} {key : ℤ}
    {A B : List (WithBot ℤ × ℕ)} {lo : WithBot ℤ}, 2 * d + 1 ≤ fuel → 2 ≤ t.maxInternalKeys →
      t.rootIdx = some r → Spine t r d → lvl t r d = A ++ (lo, l) :: B →
      Ascending (A ++ (lo, l) :: (↑key, q) :: B) → q < t.nodes.length →
      (t.nd q).isRoot = false → q ∉ (lvl t r d).map Prod.snd → ¬ Above t r d q →
      ∃ t' r' d', insertIntoParent fuel t l key q = .ok t' ∧
        Grown t r d (A ++ (lo, l) :: (↑key, q) :: B) t' r' d' := by
  -- Each level above the split takes two units of fuel.
  intro d
  induction d with
  | zero =>
    intro fuel t r l q key A B lo hfuel hmax _ h hlvl _ hq hqr hqL _
    obtain ⟨fuel, rfl⟩ : ∃ f, fuel = f + 1 := ⟨fuel - 1, by omega⟩
    rw [lvl_zero] at hlvl hqL
    -- The root was split, and a new one is put over its halves.
    obtain ⟨rfl, hcons⟩ : A = [] ∧ (lo, l) :: B = [(⊥, r)] := by
      cases A with
      | nil => exact ⟨rfl, hlvl.symm⟩
      | cons a A => simp at hlvl
    obtain ⟨hpair, rfl⟩ := List.cons.inj hcons
    obtain ⟨rfl, rfl⟩ := Prod.mk.inj hpair
    have hlt : l < t.nodes.length := h.bound 0 le_rfl (⊥, l) (by simp [lvl_zero])
    obtain ⟨t', ht', hg⟩ := growRoot_spec key h (by omega) hq
      (fun heq => hqL (by simp [heq])) hqr
    refine ⟨t', t.nodes.length, 1, ?_, hg⟩
    simp only [insertIntoParent, node_eq hlt, Machine.ok_bind, h.root, if_true]
    exact ht'
  | succ d ih =>
    intro fuel t r l q key A B lo hfuel hmax hroot h hlvl hs hq hqr hqL hqa
    obtain ⟨fuel, rfl⟩ : ∃ f, fuel = f + 2 := ⟨fuel - 2, by omega⟩
    obtain ⟨PA, plo, p, PB, C₁, C₂, hL, hx, hA, hB, hp, hlink, hlr⟩ := h.exists_parent hlvl
    have hlt : l < t.nodes.length := h.lt_of_mem (by rw [hlvl]; simp)
    have hpt : p < t.nodes.length := h.pred.lt_of_mem (by rw [hL]; simp)
    -- The parent takes the new child, or is cut in two and the right half goes up.
    by_cases hroom : (t.nd p).size < t.maxInternalKeys
    · obtain ⟨t₁, t₂, h₁, h₂, hg⟩ :=
        roomInParent_spec h hroot hL hx hp hlvl hA hB hs hq hqr hqL hqa hroom
      refine ⟨t₂, r, d + 1, ?_, hg⟩
      simp only [insertIntoParent, node_eq hlt, Machine.ok_bind, hlr, hlink, index, node_eq hpt,
        hroom, if_true, h₁]
      exact h₂
    · obtain ⟨t₁, t₂, k, h₁, h₂, hcut⟩ :=
        splitParent_spec h hmax hL hx hp hlvl hA hB hs hq hqr hqL hqa hroom
      have hmax₂ : t₂.maxInternalKeys = t.maxInternalKeys :=
        (params_eq_iff.mp hcut.params).2.2.2.1
      have hlen := hcut.length
      have hs₂ : Ascending (PA ++ (plo, p) :: (↑k, t.nodes.length) :: PB) :=
        Ascending.of_flatMap (fun a ha => (hcut.internal a ha).children) (hcut.flat ▸ hs)
      have hNa : ∀ e ≤ d, t.nodes.length ∉ (lvl t₂ r e).map Prod.snd := by
        intro e he hm
        rw [hcut.levels e he] at hm
        obtain ⟨a, ha, hae⟩ := List.mem_map.mp hm
        exact (h.bound e (he.trans (Nat.le_succ d)) a ha).ne hae
      obtain ⟨t₃, r₃, d₃, h₃, hg⟩ := ih fuel t₂ (by omega) (by omega) (hcut.rootIdx.trans hroot)
        hcut.spine ((hcut.levels d le_rfl).trans hL) hs₂ (by omega) hcut.fresh (hNa d le_rfl)
        (by rintro ⟨e, he, a, ha, hae⟩; exact hNa e he.le (hae ▸ List.mem_map_of_mem ha))
      refine ⟨t₃, r₃, d₃ + 1, ?_, Cut.grown h hL ?_ ?_ hcut hg⟩
      · simp only [insertIntoParent, node_eq hlt, Machine.ok_bind, hlr, hlink, index, node_eq hpt,
          hroom, if_false, h₁, splitInternal, h₂]
        exact h₃
      · exact nodup_insert (hlvl ▸ h.nodup (d + 1) le_rfl) (hlvl ▸ hqL)
      · intro a ha
        rcases mem_insert.mp (List.mem_map_of_mem ha) with hm | hm
        · rw [← hlvl] at hm
          exact ⟨h.lt_of_mem hm, h.not_above_of_mem hm⟩
        · rw [hm]
          exact ⟨hq, hqa⟩

end MiniDB.BPlusTree
