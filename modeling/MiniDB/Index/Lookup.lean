import MiniDB.Index.Spine
import MiniDB.Foundations.Blocks
import MiniDB.Foundations.SortedMap

/-!
# Lookups in the tree

The shape of a tree of depth `H`: a spine over the leaves at depth `H`, whose entries are blocks
bounded by the separators above them, chained from left to right. In a tree of that shape the
descent of `findLeaf` stops at the one leaf that may hold the key, and `search` and `rangeScan`
read the entries of the leaves as one ascending list.

## Main definitions

* `Leaf t i`: the cell `i` is a well-formed leaf
* `entriesOf t i`, `entries t r H`: the entries of a leaf, and of all leaves
* `Row t L`: the cells `L` are the chained leaves of a search tree
* `Shape t r H`: the tree has the shape of a B+ tree of depth `H`
* `Located t r d key A lo l B`: the cell at depth `d` whose bounds enclose a key

## Main results

* `Shape.findLeaf_spec`: the leaf a descent stops at
* `Shape.search_spec`, `Shape.rangeScan_spec`: the answers, in terms of the finite map the entries
  represent
-/

namespace MiniDB.BPlusTree

open Levels BlockList SortedMap

/-- The entries of a leaf. -/
def entriesOf (t : BPlusTree) (i : ℕ) : List (ℤ × RID) := (t.nd i).keys.zip (t.nd i).values

/-- The leaves of a level as blocks of entries. -/
def blocks (t : BPlusTree) (L : List (WithBot ℤ × ℕ)) : List (WithBot ℤ × List (ℤ × RID)) :=
  L.map fun a => (a.1, t.entriesOf a.2)

/-- The entries of the tree, leaf after leaf. -/
def entries (t : BPlusTree) (r H : ℕ) : List (ℤ × RID) := (t.blocks (lvl t r H)).flatMap Prod.snd

/-- The next leaf. -/
def next (t : BPlusTree) (i : ℕ) : Option ℕ := (t.nd i).nextLeafIdx

/-- The cell `i` is a leaf: a value for every key, at most as many as the order allows. -/
structure Leaf (t : BPlusTree) (i : ℕ) : Prop where
  type : (t.nd i).type = .leaf
  values : (t.nd i).values.length = (t.nd i).keys.length
  size : (t.nd i).size = (t.nd i).keys.length
  size_le : (t.nd i).keys.length ≤ t.maxLeafKeys

/-- The bounds of the constructor, for an order of at least three. -/
structure Bounds (t : BPlusTree) : Prop where
  order : 3 ≤ t.order
  maxLeafKeys : t.maxLeafKeys = t.order - 1
  minLeafKeys : t.minLeafKeys = t.order / 2
  maxInternalKeys : t.maxInternalKeys = t.order - 1

/-- A row of leaves: their entries are ascending blocks, and they are chained. -/
structure Row (t : BPlusTree) (L : List (WithBot ℤ × ℕ)) : Prop where
  leaf : ∀ a ∈ L, Leaf t a.2
  blocks : Blocks (t.blocks L)
  linked : Linked t.next (L.map Prod.snd) none

/-- A tree of depth `H` below the root `r`: a spine over a row of leaves. -/
structure Shape (t : BPlusTree) (r H : ℕ) : Prop where
  bounds : Bounds t
  rootIdx : t.rootIdx = some r
  spine : Spine t r H
  row : Row t (lvl t r H)

/-- The cell `l` at depth `d`, between the cells `A` and `B`, is the one whose bounds enclose
`key`. -/
structure Located (t : BPlusTree) (r d : ℕ) (key : ℤ) (A : List (WithBot ℤ × ℕ)) (lo : WithBot ℤ)
    (l : ℕ) (B : List (WithBot ℤ × ℕ)) : Prop where
  level : lvl t r d = A ++ (lo, l) :: B
  lower : lo ≤ key
  upper : ∀ b ∈ B, (key : WithBot ℤ) < b.1

variable {t t' : BPlusTree} {r H i l : ℕ} {key : ℤ} {A B L : List (WithBot ℤ × ℕ)} {lo : WithBot ℤ}

namespace Leaf

theorem keys_eq (h : Leaf t i) : (t.nd i).keys = (t.entriesOf i).map Prod.fst := by
  rw [entriesOf, List.map_fst_zip h.values.ge]

theorem values_eq (h : Leaf t i) : (t.nd i).values = (t.entriesOf i).map Prod.snd := by
  rw [entriesOf, List.map_snd_zip h.values.le]

theorem size_eq (h : Leaf t i) : (t.nd i).size = (t.entriesOf i).length := by
  rw [h.size, h.keys_eq, List.length_map]

/-- A leaf given by its entries. -/
theorem of_entries {E : List (ℤ × RID)} (htype : (t.nd i).type = .leaf)
    (hk : (t.nd i).keys = E.map Prod.fst) (hv : (t.nd i).values = E.map Prod.snd)
    (hs : (t.nd i).size = E.length) (hle : E.length ≤ t.maxLeafKeys) :
    Leaf t i ∧ t.entriesOf i = E := by
  refine ⟨⟨htype, by rw [hk, hv]; simp, by rw [hs, hk]; simp, by rw [hk]; simpa⟩, ?_⟩
  rw [entriesOf, hk, hv, zip_fst_snd]

theorem congr (h : Leaf t i) (hp : t'.params = t.params) (hc : core (t'.nd i) = core (t.nd i)) :
    Leaf t' i ∧ t'.entriesOf i = t.entriesOf i ∧ t'.next i = t.next i := by
  obtain ⟨htype, -, hsize, hkeys, hvals, -, hnext⟩ := core_eq_iff.mp hc
  have hmax := (params_eq_iff.mp hp).2.1
  refine ⟨⟨htype.trans h.type, ?_, ?_, ?_⟩, ?_, hnext⟩
  · rw [hvals, hkeys]; exact h.values
  · rw [hsize, hkeys]; exact h.size
  · rw [hkeys, hmax]; exact h.size_le
  · rw [entriesOf, hkeys, hvals]; rfl

end Leaf

theorem Bounds.congr (h : Bounds t) (hp : t'.params = t.params) : Bounds t' := by
  obtain ⟨h₁, h₂, h₃, h₄, -, -⟩ := params_eq_iff.mp hp
  exact ⟨h₁ ▸ h.order, by rw [h₁, h₂]; exact h.maxLeafKeys, by rw [h₁, h₃]; exact h.minLeafKeys,
    by rw [h₁, h₄]; exact h.maxInternalKeys⟩

theorem Bounds.minLeafKeys_pos (h : Bounds t) : 0 < t.minLeafKeys := by
  have := h.order
  rw [h.minLeafKeys]
  omega

theorem Bounds.min_le_max (h : Bounds t) : 2 * t.minLeafKeys ≤ t.maxLeafKeys + 1 := by
  have := h.order
  rw [h.minLeafKeys, h.maxLeafKeys]
  omega

theorem blocks_append : t.blocks (A ++ B) = t.blocks A ++ t.blocks B := List.map_append

theorem blocks_cons {a : WithBot ℤ × ℕ} : t.blocks (a :: L) = (a.1, t.entriesOf a.2) :: t.blocks L :=
  rfl

theorem blocks_congr (h : ∀ a ∈ L, t'.entriesOf a.2 = t.entriesOf a.2) :
    t'.blocks L = t.blocks L :=
  List.map_congr_left fun a ha => by rw [h a ha]

theorem mem_blocks {b : WithBot ℤ × List (ℤ × RID)} (hb : b ∈ t.blocks L) : ∃ a ∈ L, a.1 = b.1 := by
  obtain ⟨a, ha, rfl⟩ := List.mem_map.mp hb
  exact ⟨a, ha, rfl⟩

theorem flatMap_blocks : (t.blocks L).flatMap Prod.snd = (L.map Prod.snd).flatMap t.entriesOf := by
  rw [blocks, List.flatMap_map, List.flatMap_map]

/-! ## Descent -/

/-- The separators a descent skips: those at most `key`. -/
theorem childSlot_eq (key : ℤ) : ∀ (K P : List ℤ),
    childSlot (P ++ K) key K.length P.length =
      .ok (P.length + (K.takeWhile fun k => k ≤ key).length) := by
  intro K
  induction K with
  | nil => exact fun P => rfl
  | cons k K ih =>
    intro P
    simp only [List.length_cons, childSlot, Vec.get_append_cons, Machine.ok_bind]
    by_cases hk : k ≤ key
    · have := ih (P ++ [k])
      rw [List.append_assoc, List.singleton_append, List.length_append, List.length_singleton]
        at this
      rw [if_pos hk, this, List.takeWhile_cons_of_pos (by simpa using hk), List.length_cons]
      congr 1
      omega
    · rw [if_neg hk, List.takeWhile_cons_of_neg (by simpa using hk)]
      rfl

/-- The keys an ascending list holds beyond those at most `key` lie above it. -/
theorem lt_of_mem_dropWhile {K : List ℤ} (hs : K.Pairwise (· < ·)) :
    ∀ k ∈ K.dropWhile fun k => k ≤ key, key < k := by
  induction K with
  | nil => simp
  | cons k K ih =>
    rw [List.pairwise_cons] at hs
    by_cases hk : k ≤ key
    · rw [List.dropWhile_cons_of_pos (by simpa using hk)]
      exact ih hs.2
    · rw [List.dropWhile_cons_of_neg (by simpa using hk)]
      intro x hx
      rcases List.mem_cons.mp hx with rfl | hx
      · exact not_le.mp hk
      · exact (not_le.mp hk).trans (hs.1 x hx)

/-- One step of a descent: the child whose bounds enclose the key. -/
theorem childSlot_spec {a : WithBot ℤ × ℕ} (hint : Internal t a.2)
    (hs : Ascending (expand t.ks t.cs a)) (hlo : a.1 ≤ key) :
    ∃ (C₁ : List (WithBot ℤ × ℕ)) (lo : WithBot ℤ) (c : ℕ) (C₂ : List (WithBot ℤ × ℕ)),
      expand t.ks t.cs a = C₁ ++ (lo, c) :: C₂ ∧ lo ≤ key ∧
      (∀ b ∈ C₂, (key : WithBot ℤ) < b.1) ∧
      childSlot (t.nd a.2).keys key (t.nd a.2).size 0 = .ok C₁.length ∧
      Vec.get Fault.child (t.nd a.2).childIndices C₁.length = .ok c := by
  set n := ((t.ks a.2).takeWhile fun k => k ≤ key).length with hn
  have hfst := expand_fst hint.children
  have hlen : (expand t.ks t.cs a).length = (t.ks a.2).length + 1 := by
    rw [← List.length_map (f := Prod.fst), hfst]
    simp
  have hnle : n ≤ (t.ks a.2).length := (List.takeWhile_sublist _).length_le
  have hlt : n < (expand t.ks t.cs a).length := by omega
  obtain ⟨⟨lo, c⟩, hx⟩ : ∃ x, (expand t.ks t.cs a)[n]? = some x :=
    ⟨_, List.getElem?_eq_getElem hlt⟩
  obtain ⟨C₁, C₂, hC, hC₁⟩ : ∃ C₁ C₂, expand t.ks t.cs a = C₁ ++ (lo, c) :: C₂ ∧ C₁.length = n := by
    refine ⟨(expand t.ks t.cs a).take n, (expand t.ks t.cs a).drop (n + 1), ?_, by simp; omega⟩
    rw [List.getElem?_eq_getElem hlt, Option.some.injEq] at hx
    rw [← hx, ← List.drop_eq_getElem_cons hlt, List.take_append_drop]
  obtain ⟨hbefore, hafter, -⟩ := expand_halves hint.children hC
  have htake : (t.ks a.2).take C₁.length = (t.ks a.2).takeWhile fun k => k ≤ key := by
    rw [hC₁, hn]
    exact (List.prefix_iff_eq_take.mp (List.takeWhile_prefix _)).symm
  have hdrop : (t.ks a.2).drop C₁.length = (t.ks a.2).dropWhile fun k => k ≤ key := by
    have h₁ := List.take_append_drop C₁.length (t.ks a.2)
    rw [htake] at h₁
    have h₂ := List.takeWhile_append_dropWhile (p := fun k => decide (k ≤ key)) (l := t.ks a.2)
    exact List.append_cancel_left (h₁.trans h₂.symm)
  have hsk : (t.ks a.2).Pairwise (· < ·) := by
    have := ascending_iff_map.mp hs
    rw [hfst, List.pairwise_cons, List.pairwise_map] at this
    exact this.2.imp fun h => WithBot.coe_lt_coe.mp h
  have hkids : (t.nd a.2).childIndices = (C₁ ++ (lo, c) :: C₂).map Prod.snd := by
    rw [← hC]
    exact (expand_snd hint.children).symm
  refine ⟨C₁, lo, c, C₂, hC, ?_, ?_, ?_, by rw [hkids]; exact Vec.get_map_append_cons _ _ _ _⟩
  · have hmem : lo ∈ a.1 :: ((t.ks a.2).take C₁.length).map WithBot.some := by
      rw [hbefore]; simp
    rcases List.mem_cons.mp hmem with rfl | hmem
    · exact hlo
    · obtain ⟨k, hk, rfl⟩ := List.mem_map.mp hmem
      rw [htake] at hk
      exact WithBot.coe_le_coe.mpr (by simpa using List.mem_takeWhile_imp hk)
  · intro b hb
    have hmem : b.1 ∈ ((t.ks a.2).drop C₁.length).map WithBot.some := by
      rw [hafter]; exact List.mem_map_of_mem hb
    obtain ⟨k, hk, hkb⟩ := List.mem_map.mp hmem
    rw [hdrop] at hk
    rw [← hkb]
    exact WithBot.coe_lt_coe.mpr (lt_of_mem_dropWhile hsk k hk)
  · have := childSlot_eq key (t.ks a.2) []
    rw [List.nil_append, List.length_nil, Nat.zero_add, ← hn, ← hC₁] at this
    rw [hint.size]
    exact this

/-- Every level of a spine ascends when the last one does. -/
theorem Spine.ascending : ∀ {d : ℕ}, Spine t r d → Ascending (lvl t r d) →
    ∀ e ≤ d, Ascending (lvl t r e)
  | 0, _, hs, e, he => by
    obtain rfl : e = 0 := by omega
    exact hs
  | d + 1, h, hs, e, he => by
    rcases Nat.le_or_eq_of_le_succ he with he | rfl
    · have hd : Ascending (lvl t r d) :=
        Ascending.of_flatMap (fun a ha => (h.internal a.2 (above_of_mem ha)).children) hs
      exact h.pred.ascending hd e he
    · exact hs

/-- The bounds of a cell's children are at least the cell's own. -/
theorem le_of_mem_expand {a b : WithBot ℤ × ℕ} (hint : Internal t a.2)
    (hs : Ascending (expand t.ks t.cs a)) (hb : b ∈ expand t.ks t.cs a) : a.1 ≤ b.1 := by
  have hfst := expand_fst hint.children
  have hs' := ascending_iff_map.mp hs
  rw [hfst, List.pairwise_cons] at hs'
  have hmem : b.1 ∈ (expand t.ks t.cs a).map Prod.fst := List.mem_map_of_mem hb
  rw [hfst] at hmem
  rcases List.mem_cons.mp hmem with heq | hmem
  · exact heq.ge
  · exact (hs'.1 b.1 hmem).le

/-- One step of the descent of `findLeaf`: the child of a located cell is located on the next
level. -/
theorem Located.step (h : Spine t r H) (hs : Ascending (lvl t r H)) {d i : ℕ} (hd : d < H)
    (hloc : Located t r d key A lo i B) : ∃ A' lo' c B', Located t r (d + 1) key A' lo' c B' ∧
      ∀ fuel, findLeafFrom t key (fuel + 1) i = findLeafFrom t key fuel c := by
  obtain ⟨hL, hlo, hB⟩ := hloc
  have hmem : (lo, i) ∈ lvl t r d := by rw [hL]; simp
  have hint : ∀ a ∈ lvl t r d, Internal t a.2 := fun a ha => h.internal a.2 ⟨d, hd, a, ha, rfl⟩
  have hasc : Ascending (lvl t r (d + 1)) := h.ascending hs (d + 1) (by omega)
  have hexp : ∀ a ∈ lvl t r d, Ascending (expand t.ks t.cs a) := by
    intro a ha
    obtain ⟨PA, PB, hab⟩ := List.append_of_mem ha
    refine hasc.sublist ?_
    rw [lvl_succ, hab, List.flatMap_append, List.flatMap_cons]
    exact (List.sublist_append_left _ _).trans (List.sublist_append_right _ _)
  obtain ⟨C₁, lo', c, C₂, hC, hlo', hC₂, hslot, hchild⟩ :=
    childSlot_spec (hint _ hmem) (hexp _ hmem) hlo
  have hnext : lvl t r (d + 1) = (A.flatMap (expand t.ks t.cs) ++ C₁) ++
      (lo', c) :: (C₂ ++ B.flatMap (expand t.ks t.cs)) := by
    rw [lvl_succ, hL, List.flatMap_append, List.flatMap_cons, hC]
    simp
  have hupper : ∀ b ∈ C₂ ++ B.flatMap (expand t.ks t.cs), (key : WithBot ℤ) < b.1 := by
    intro b hb
    rcases List.mem_append.mp hb with hb | hb
    · exact hC₂ b hb
    · obtain ⟨a, ha, hba⟩ := List.mem_flatMap.mp hb
      have haL : a ∈ lvl t r d := by rw [hL]; simp [ha]
      exact (hB a ha).trans_le (le_of_mem_expand (hint a haL) (hexp a haL) hba)
  refine ⟨_, lo', c, _, ⟨hnext, hlo', hupper⟩, fun fuel => ?_⟩
  rw [findLeafFrom, node_eq (h.bound d (by omega) _ hmem), Machine.ok_bind, (hint _ hmem).type]
  simp only [hslot, Machine.ok_bind, hchild]

/-- The descent of `findLeaf` from a cell whose bounds enclose the key, by induction on the number
of levels below it. -/
theorem findLeafFrom_spec (h : Spine t r H) (hs : Ascending (lvl t r H))
    (hleaf : ∀ a ∈ lvl t r H, Leaf t a.2) : ∀ (n d i : ℕ) (A B : List (WithBot ℤ × ℕ))
      (lo : WithBot ℤ), d + n = H → Located t r d key A lo i B →
      ∃ A' lo' l B', Located t r H key A' lo' l B' ∧
        ∀ fuel, n < fuel → findLeafFrom t key fuel i = .ok l := by
  intro n
  induction n with
  | zero =>
    intro d i A B lo hd ⟨hL, hlo, hB⟩
    obtain rfl : d = H := by omega
    have hmem : (lo, i) ∈ lvl t r d := by rw [hL]; simp
    refine ⟨A, lo, i, B, ⟨hL, hlo, hB⟩, fun fuel hfuel => ?_⟩
    obtain ⟨fuel, rfl⟩ : ∃ f, fuel = f + 1 := ⟨fuel - 1, by omega⟩
    rw [findLeafFrom, node_eq (h.bound d le_rfl _ hmem), Machine.ok_bind, (hleaf _ hmem).type]
    rfl
  | succ n ih =>
    intro d i A B lo hd hloc
    obtain ⟨A', lo', c, B', hnext, hdescent⟩ := hloc.step h hs (by omega)
    obtain ⟨A'', lo'', l, B'', hlast, hfind⟩ := ih (d + 1) c A' B' lo' (by omega) hnext
    refine ⟨A'', lo'', l, B'', hlast, fun fuel hfuel => ?_⟩
    obtain ⟨fuel, rfl⟩ : ∃ f, fuel = f + 1 := ⟨fuel - 1, by omega⟩
    rw [hdescent]
    exact hfind fuel (by omega)

/-- With fewer steps than there are levels the descent does not come to a leaf. -/
theorem findLeafFrom_short (h : Spine t r H) (hs : Ascending (lvl t r H)) {fuel : ℕ} :
    ∀ {d i : ℕ} {A B : List (WithBot ℤ × ℕ)} {lo : WithBot ℤ}, d + fuel ≤ H →
      Located t r d key A lo i B → findLeafFrom t key fuel i = .error .fuel := by
  induction fuel with
  | zero => exact fun _ _ => rfl
  | succ fuel ih =>
    intro d i A B lo hd hloc
    obtain ⟨A', lo', c, B', hnext, hdescent⟩ := hloc.step h hs (by omega)
    rw [hdescent]
    exact ih (by omega) hnext

namespace Shape

theorem ascending (h : Shape t r H) : Ascending (lvl t r H) := by
  have := h.row.blocks.apart
  rw [blocks, List.pairwise_map] at this
  exact this.imp fun hab => hab.1

theorem lt_length (h : Shape t r H) (hL : lvl t r H = A ++ (lo, l) :: B) : l < t.nodes.length :=
  h.spine.bound H le_rfl (lo, l) (by rw [hL]; simp)

theorem leaf_at (h : Shape t r H) (hL : lvl t r H = A ++ (lo, l) :: B) : Leaf t l :=
  h.row.leaf (lo, l) (by rw [hL]; simp)

theorem blocks_at (h : Shape t r H) (hL : lvl t r H = A ++ (lo, l) :: B) :
    Blocks (t.blocks A ++ (lo, t.entriesOf l) :: t.blocks B) := by
  have := h.row.blocks
  rwa [hL, blocks_append, blocks_cons] at this

theorem entries_at (hL : lvl t r H = A ++ (lo, l) :: B) : entries t r H =
    (t.blocks A).flatMap Prod.snd ++ (t.entriesOf l ++ (t.blocks B).flatMap Prod.snd) := by
  rw [entries, hL, blocks_append, blocks_cons, List.flatMap_append, List.flatMap_cons]

/-- The leaf `findLeaf` returns is the one whose bounds enclose the key. -/
theorem findLeaf_spec (h : Shape t r H) (key : ℤ) : ∃ A lo l B,
    Located t r H key A lo l B ∧ t.findLeaf key = .ok (some l) := by
  obtain ⟨A, lo, l, B, hloc, hfind⟩ := findLeafFrom_spec h.spine h.ascending h.row.leaf H 0 r [] [] ⊥
    (by omega) ⟨lvl_zero, bot_le, by simp⟩
  exact ⟨A, lo, l, B, hloc, by rw [findLeaf, h.rootIdx]; simp [hfind _ h.spine.depth_lt]⟩

/-- The entries outside the leaf a descent stops at do not have the key. -/
theorem mem_keys_iff (h : Shape t r H) (hloc : Located t r H key A lo l B) :
    key ∈ (entries t r H).map Prod.fst ↔ key ∈ (t.entriesOf l).map Prod.fst := by
  have hblk := h.blocks_at hloc.level
  rw [entries_at hloc.level, List.map_append, List.map_append, List.mem_append, List.mem_append]
  constructor
  · rintro (hm | hm | hm)
    · obtain ⟨e, he, rfl⟩ := List.mem_map.mp hm
      exact absurd (hblk.before hloc.lower e he) (lt_irrefl _)
    · exact hm
    · obtain ⟨e, he, rfl⟩ := List.mem_map.mp hm
      refine absurd (hblk.after (k := e.1) (fun b hb => ?_) e he) (lt_irrefl _)
      obtain ⟨a, ha, hab⟩ := mem_blocks hb
      exact hab ▸ hloc.upper a ha
  · exact fun hm => Or.inr (Or.inl hm)

end Shape

/-! ## Point queries -/

/-- The linear search of a leaf. -/
theorem findKey_eq (key : ℤ) : ∀ (K P : List ℤ),
    findKey (P ++ K) key K.length P.length = .ok ((K.idxOf? key).map (· + P.length)) := by
  intro K
  induction K with
  | nil => exact fun P => rfl
  | cons k K ih =>
    intro P
    simp only [List.length_cons, findKey, Vec.get_append_cons, Machine.ok_bind]
    -- `P` is what the loop has passed; the place is counted from its end.
    by_cases hk : k = key
    · subst hk
      simp [List.idxOf?_cons]
    · have := ih (P ++ [k])
      rw [List.append_assoc, List.singleton_append, List.length_append, List.length_singleton]
        at this
      rw [if_neg hk, this, List.idxOf?_cons, if_neg (by simpa using hk), Option.map_map]
      congr 2
      funext i
      simp only [Function.comp_apply]
      omega

theorem Leaf.findKey_eq (h : Leaf t i) (key : ℤ) :
    findKey (t.nd i).keys key (t.nd i).size 0 = .ok ((t.nd i).keys.idxOf? key) := by
  have := BPlusTree.findKey_eq key (t.nd i).keys []
  rw [h.size]
  simpa using this

/-- A key of a leaf: its place among the entries. -/
theorem Leaf.exists_split (h : Leaf t i) (hk : key ∈ (t.entriesOf i).map Prod.fst) :
    ∃ E₁ v E₂, t.entriesOf i = E₁ ++ (key, v) :: E₂ ∧
      (t.nd i).keys.idxOf? key = some E₁.length := by
  obtain ⟨e, he, hek⟩ := List.mem_map.mp hk
  rw [h.keys_eq]
  generalize t.entriesOf i = E at he
  induction E with
  | nil => simp at he
  | cons x E ih =>
    by_cases hx : x.1 = key
    · exact ⟨[], x.2, E, by rw [← hx]; rfl, by simp [List.idxOf?_cons, hx]⟩
    · have he' : e ∈ E := by
        rcases List.mem_cons.mp he with rfl | he
        · exact absurd hek hx
        · exact he
      obtain ⟨E₁, v, E₂, hE, hidx⟩ := ih he'
      refine ⟨x :: E₁, v, E₂, by rw [hE]; rfl, ?_⟩
      rw [List.map_cons, List.idxOf?_cons, if_neg (by simpa using hx), hidx]
      rfl

theorem Leaf.idxOf?_eq_none (h : Leaf t i) (hk : key ∉ (t.entriesOf i).map Prod.fst) :
    (t.nd i).keys.idxOf? key = none := by
  rw [List.idxOf?_eq_none_iff, h.keys_eq]
  exact hk

namespace Shape

variable {m : Finmap fun _ : ℤ => RID}

/-- `search` answers as the map does. -/
theorem search_spec (h : Shape t r H) (hm : Represents (entries t r H) m) (key : ℤ) :
    t.search key = .ok (m.lookup key) := by
  obtain ⟨A, lo, l, B, hloc, hfind⟩ := h.findLeaf_spec key
  have hL := hloc.level
  have hleaf := h.leaf_at hL
  rw [search, hfind, Machine.ok_bind]
  simp only [node_eq (h.lt_length hL), Machine.ok_bind, hleaf.findKey_eq]
  by_cases hk : key ∈ (t.entriesOf l).map Prod.fst
  · obtain ⟨E₁, v, E₂, hE, hidx⟩ := hleaf.exists_split hk
    have hval : Vec.get Fault.access (t.nd l).values E₁.length = .ok v := by
      rw [hleaf.values_eq, hE]
      exact Vec.get_map_append_cons _ _ _ _
    have hmem : (key, v) ∈ entries t r H := by
      rw [entries_at hL, hE]; simp
    simp only [hidx, hval, Machine.ok_map, hm.lookup_eq_some hmem]
  · simp only [hleaf.idxOf?_eq_none hk, Machine.pure_eq_ok]
    rw [hm.lookup_eq_none.mpr]
    rwa [h.mem_keys_iff hloc]

end Shape

/-! ## Range queries -/

/-- The entries of a list with keys in `[lowKey, highKey]`. -/
def inRange (lowKey highKey : ℤ) (E : List (ℤ × RID)) : List RID :=
  (E.filter fun e => lowKey ≤ e.1 ∧ e.1 ≤ highKey).map Prod.snd

section Scan

variable (lowKey highKey : ℤ)

theorem inRange_append (E F : List (ℤ × RID)) :
    inRange lowKey highKey (E ++ F) = inRange lowKey highKey E ++ inRange lowKey highKey F := by
  simp [inRange]

theorem inRange_eq_nil {E : List (ℤ × RID)} (h : ∀ e ∈ E, e.1 < lowKey ∨ highKey < e.1) :
    inRange lowKey highKey E = [] := by
  rw [inRange, List.map_eq_nil_iff, List.filter_eq_nil_iff]
  intro e he
  have := h e he
  simp only [decide_eq_true_eq, not_and, not_le]
  omega

/-- The scan of one leaf, from the entries `P` on. -/
theorem scanLeaf_eq {n : BPlusNode} : ∀ (E P : List (ℤ × RID)) (results : List RID),
    n.keys = (P ++ E).map Prod.fst → n.values = (P ++ E).map Prod.snd →
    (E.map Prod.fst).Pairwise (· < ·) →
    scanLeaf n lowKey highKey E.length P.length results =
      .ok (results ++ inRange lowKey highKey E, E.any fun e => highKey < e.1) := by
  intro E
  induction E with
  | nil => intro P results _ _ _; simp [scanLeaf, inRange]
  | cons e E ih =>
    intro P results hk hv hs
    have hs' := List.pairwise_cons.mp hs
    have hkey : Vec.get Fault.access n.keys P.length = .ok e.1 := by
      rw [hk]
      exact Vec.get_map_append_cons _ _ _ _
    have hval : Vec.get Fault.access n.values P.length = .ok e.2 := by
      rw [hv]
      exact Vec.get_map_append_cons _ _ _ _
    -- The induction is on the entries still to come; `P` is what the loop has passed.
    rw [List.append_cons] at hk hv
    have ih' := fun results => ih (P ++ [e]) results hk hv hs'.2
    rw [List.length_append, List.length_singleton] at ih'
    simp only [List.length_cons, scanLeaf, hkey, Machine.ok_bind]
    by_cases hhi : highKey < e.1
    · have hnil : inRange lowKey highKey (e :: E) = [] := by
        refine inRange_eq_nil _ _ fun x hx => Or.inr ?_
        rcases List.mem_cons.mp hx with rfl | hx
        · exact hhi
        · exact hhi.trans (hs'.1 x.1 (List.mem_map_of_mem hx))
      rw [if_neg (by omega), hnil]
      simp [hhi]
    · by_cases hlow : lowKey ≤ e.1
      · have hin : lowKey ≤ e.1 ∧ e.1 ≤ highKey := ⟨hlow, not_lt.mp hhi⟩
        rw [if_pos hin]
        simp only [hval, Machine.ok_bind, Machine.pure_eq_ok, if_neg hhi, ih']
        simp [inRange, hin, hhi]
      · rw [if_neg (by omega)]
        simp only [Machine.ok_bind, Machine.pure_eq_ok, if_neg hhi, ih']
        simp [inRange, hlow, hhi]

/-- The scan along a chain of leaves. -/
theorem scanFrom_eq : ∀ (L : List ℕ) (fuel : ℕ) (results : List RID), L.length ≤ fuel →
    (∀ i ∈ L, i < t.nodes.length ∧ Leaf t i) → Linked t.next L none →
    ((L.flatMap t.entriesOf).map Prod.fst).Pairwise (· < ·) →
    scanFrom t lowKey highKey fuel L.head? results =
      .ok (results ++ inRange lowKey highKey (L.flatMap t.entriesOf)) := by
  intro L
  induction L with
  | nil => intro fuel results _ _ _ _; cases fuel <;> simp [scanFrom, inRange]
  | cons i L ih =>
    intro fuel results hfuel hL hlink hs
    obtain ⟨fuel, rfl⟩ : ∃ f, fuel = f + 1 := ⟨fuel - 1, by simp at hfuel; omega⟩
    obtain ⟨hi, hleaf⟩ := hL i List.mem_cons_self
    rw [List.flatMap_cons, List.map_append, List.pairwise_append] at hs
    have hscan := scanLeaf_eq lowKey highKey (t.entriesOf i) [] results
      (by rw [List.nil_append]; exact hleaf.keys_eq) (by rw [List.nil_append]; exact hleaf.values_eq)
      hs.1
    rw [List.length_nil, ← hleaf.size_eq] at hscan
    rw [List.head?_cons, scanFrom, node_eq hi, Machine.ok_bind, hscan, Machine.ok_bind,
      List.flatMap_cons, inRange_append]
    by_cases hstop : ((t.entriesOf i).any fun e => highKey < e.1) = true
    · -- The scan stops at a key above the range; all those behind it are above it, too.
      have hnil : inRange lowKey highKey (L.flatMap t.entriesOf) = [] := by
        obtain ⟨e, he, hhi⟩ := List.any_eq_true.mp hstop
        refine inRange_eq_nil _ _ fun x hx => Or.inr ?_
        have := hs.2.2 e.1 (List.mem_map_of_mem he) x.1 (List.mem_map_of_mem hx)
        exact (of_decide_eq_true hhi).trans this
      simp [hstop, hnil]
    · have hnext : (t.nd i).nextLeafIdx = L.head? := by
        have := hlink.1
        rwa [Option.or_none] at this
      show (if _ then _ else _) = _
      rw [if_neg hstop, hnext, ih fuel _ (by simp at hfuel; omega)
        (fun j hj => hL j (List.mem_cons_of_mem _ hj)) hlink.2 hs.2.1, List.append_assoc]

end Scan

namespace Shape

variable {m : Finmap fun _ : ℤ => RID}

theorem length_lvl_le (h : Shape t r H) : (lvl t r H).length ≤ t.nodes.length := by
  have hnd := h.spine.nodup H le_rfl
  have hsub : ((lvl t r H).map Prod.snd).toFinset ⊆ Finset.range t.nodes.length := by
    intro i hi
    exact Finset.mem_range.mpr (h.spine.lt_of_mem (List.mem_toFinset.mp hi))
  have := Finset.card_le_card hsub
  rwa [List.toFinset_card_of_nodup hnd, List.length_map, Finset.card_range] at this

/-- `rangeScan` terminates and appends what the map holds in the range. -/
theorem rangeScan_spec (h : Shape t r H) (hm : Represents (entries t r H) m) (lowKey highKey : ℤ)
    (results : List RID) :
    t.rangeScan lowKey highKey results = .ok (results ++ SortedMap.range m lowKey highKey) := by
  obtain ⟨A, lo, l, B, ⟨hL, hlo, -⟩, hfind⟩ := h.findLeaf_spec lowKey
  have hlink := h.row.linked
  rw [hL, List.map_append, linked_append] at hlink
  have hent := entries_at hL
  have hsorted := h.row.blocks.flatten
  rw [← entries, hent, List.map_append, List.pairwise_append] at hsorted
  have htail : t.entriesOf l ++ (t.blocks B).flatMap Prod.snd =
      (((lo, l) :: B).map Prod.snd).flatMap t.entriesOf := by
    rw [flatMap_blocks, List.map_cons, List.flatMap_cons]
  have hlen := h.length_lvl_le
  rw [hL, List.length_append] at hlen
  have hscan := scanFrom_eq lowKey highKey (((lo, l) :: B).map Prod.snd)
    t.nodes.length results (by rw [List.length_map]; omega) (by
      intro i hi
      obtain ⟨a, ha, rfl⟩ := List.mem_map.mp hi
      have haL : a ∈ lvl t r H := by rw [hL]; exact List.mem_append_right _ ha
      exact ⟨h.spine.bound H le_rfl a haL, h.row.leaf a haL⟩) hlink.2 (htail ▸ hsorted.2.1)
  have hbefore : inRange lowKey highKey ((t.blocks A).flatMap Prod.snd) = [] :=
    inRange_eq_nil _ _ fun e he => Or.inl ((h.blocks_at hL).before hlo e he)
  rw [rangeScan, hfind, Machine.ok_bind]
  have hrange := hm.range lowKey highKey
  change inRange lowKey highKey (entries t r H) = _ at hrange
  rw [← hrange, hent, inRange_append, hbefore, List.nil_append, htail]
  exact hscan

end Shape

end MiniDB.BPlusTree
