import MiniDB.Index.Insertion
import MiniDB.Index.Underflow

/-!
# Removal

`remove` takes an entry out of its leaf, repairs a leaf that has become short, hands the root on to
an only child, and gives up a root leaf without entries. It faults in exactly one situation, which
can be told from the tree before the call: the leaf is an only child and has no entry to lose.

## Main definitions

* `soleChildUnderflow t key`: removing `key` leaves an only child short

## Main results

* `removeFromLeaf_spec`, `collapseRoot_spec`: the steps of a removal
* `WF.remove_spec`: `remove` on a tree that is not empty
-/

namespace MiniDB.BPlusTree

open Levels BlockList SortedMap

/-- The leaf that holds `key` is not the root, has no entry to lose, and its parent has no other
child. -/
def soleChildUnderflow (t : BPlusTree) (key : ℤ) : Bool :=
  match t.findLeaf key with
  | .ok (some leafIdx) =>
    let leaf := t.nd leafIdx
    !leaf.isRoot && leaf.keys.contains key && leaf.size ≤ t.minLeafKeys &&
      match leaf.parentIdx with
      | some parentIdx => (t.nd parentIdx).childIndices.length == 1
      | none => false
  | _ => false

variable {t t' : BPlusTree} {r H d l : ℕ} {key : ℤ} {value : RID} {A B : List (WithBot ℤ × ℕ)}
  {lo : WithBot ℤ} {E₁ E₂ : List (ℤ × RID)}

/-- A leaf with an entry taken out. -/
structure Shrunk (t : BPlusTree) (r H l : ℕ) (A : List (WithBot ℤ × ℕ)) (lo : WithBot ℤ)
    (B : List (WithBot ℤ × ℕ)) (E : List (ℤ × RID)) (t' : BPlusTree) : Prop where
  shape : Shape t' r H
  levels : ∀ e ≤ H, lvl t' r e = lvl t r e
  params : t'.params = t.params
  length : t'.nodes.length = t.nodes.length
  same : ∀ i, i ≠ l → t'.nd i = t.nd i
  links : (t'.nd l).parentIdx = (t.nd l).parentIdx ∧ (t'.nd l).isRoot = (t.nd l).isRoot
  entriesOf : t'.entriesOf l = E
  blocks : t'.blocks (lvl t' r H) = t.blocks A ++ (lo, E) :: t.blocks B

/-- An entry is taken out of its leaf. -/
theorem removeFromLeaf_spec (h : Shape t r H) (hL : lvl t r H = A ++ (lo, l) :: B)
    (hE : t.entriesOf l = E₁ ++ (key, value) :: E₂)
    (hidx : (t.nd l).keys.idxOf? key = some E₁.length) :
    ∃ t', t.removeFromLeaf l key = .ok (some t') ∧ Shrunk t r H l A lo B (E₁ ++ E₂) t' := by
  have hl := h.lt_length hL
  have hleaf := h.leaf_at hL
  have hne := h.spine.ne_of_mem_around hL
  set n : BPlusNode := { t.nd l with
    keys := (E₁ ++ E₂).map Prod.fst, values := (E₁ ++ E₂).map Prod.snd
    size := (E₁ ++ E₂).length } with hn
  set t' := t.setNode l n with ht'
  have hndl : t'.nd l = n := by rw [ht', nd_setNode hl, if_pos rfl]
  have hsame : ∀ i, i ≠ l → t'.nd i = t.nd i := fun i hi => by rw [ht', nd_setNode hl, if_neg hi]
  have hp : t'.params = t.params := rfl
  obtain ⟨hspine, hlvls⟩ : Spine t' r H ∧ ∀ e ≤ H, lvl t' r e = lvl t r e := h.spine.touch
    length_setNode.ge hp (fun i hi => by
      rw [hsame i]
      rintro rfl
      exact h.spine.not_above_of_mem (by rw [hL]; simp) hi)
    (fun i _ => by
      by_cases hi : i = l
      · rw [hi, hndl]; exact ⟨rfl, rfl⟩
      · rw [hsame i hi]; exact ⟨rfl, rfl⟩)
  have hsize : (E₁ ++ E₂).length ≤ t'.maxLeafKeys := by
    have h₁ := hleaf.size_le
    have h₂ : (t.nd l).size = (E₁ ++ E₂).length + 1 := by rw [hleaf.size_eq, hE]; simp; omega
    rw [hleaf.size] at h₂
    have hmax : t'.maxLeafKeys = t.maxLeafKeys := rfl
    omega
  obtain ⟨hleaf', hent⟩ := Leaf.of_entries (t := t') (i := l) (E := E₁ ++ E₂)
    (by rw [hndl]; exact hleaf.type) (by rw [hndl]) (by rw [hndl]) (by rw [hndl]) hsize
  have hblk := h.blocks_at hL
  rw [hE] at hblk
  have hblk' := hblk.shrink
    (List.Sublist.append_left (List.sublist_cons_self (key, value) E₂) E₁)
  have hcore : ∀ a ∈ A ++ B, core (t'.nd a.2) = core (t.nd a.2) := fun a ha => by
    rw [hsame a.2 (hne a ha)]
  have hrow := h.row
  rw [hL] at hrow
  have hrow' : Row t' (A ++ (lo, l) :: B) := hrow.update hp hcore hleaf'
    (by rw [next, next, hndl]) (by rw [hent]; exact hblk')
  obtain ⟨-, hA, hB, -, -⟩ := hrow.rest (by simp) hp hcore
  have hlvl := (hlvls H le_rfl).trans hL
  refine ⟨t', ?_, ⟨h.bounds.congr hp, h.rootIdx, hspine, by rw [hlvl]; exact hrow'⟩, hlvls, hp,
    length_setNode, hsame, by rw [hndl]; exact ⟨rfl, rfl⟩, hent, ?_⟩
  · have herase : ∀ {α : Type} (f : ℤ × RID → α), Vec.erase Fault.access
        ((E₁ ++ (key, value) :: E₂).map f) E₁.length = .ok ((E₁ ++ E₂).map f) := by
      intro α f
      rw [Vec.erase_of_lt (by simp), List.eraseIdx_map, List.eraseIdx_append_of_length_le le_rfl]
      simp
    have hkeys : Vec.erase Fault.access (t.nd l).keys E₁.length =
        .ok ((E₁ ++ E₂).map Prod.fst) := by
      rw [hleaf.keys_eq, hE]; exact herase _
    have hvals : Vec.erase Fault.access (t.nd l).values E₁.length =
        .ok ((E₁ ++ E₂).map Prod.snd) := by
      rw [hleaf.values_eq, hE]; exact herase _
    have hsz : (t.nd l).size - 1 = (E₁ ++ E₂).length := by rw [hleaf.size_eq, hE]; simp
    simp only [removeFromLeaf, node_eq hl, Machine.ok_bind, hidx, hkeys, hvals, hsz]
    rfl
  · rw [hlvl, blocks_append, blocks_cons, hA, hB, hent]

/-! ## The root -/

/-- A root with no separator hands on to its only child. -/
theorem Spine.promote {c : ℕ} (t' : BPlusTree) (h : Spine t r (d + 1)) (hc : t.cs r = [c])
    (hlen : t'.nodes.length = t.nodes.length) (hpar : t'.params = t.params)
    (hcore : ∀ i, core (t'.nd i) = core (t.nd i))
    (hsame : ∀ i, i ≠ c → t'.nd i = t.nd i) (hroot : (t'.nd c).isRoot = true) :
    Spine t' c d ∧ ∀ e, lvl t' c e = lvl t r (e + 1) := by
  have hks : t'.ks = t.ks := funext fun i => ks_eq_of_core (hcore i)
  have hcs : t'.cs = t.cs := funext fun i => cs_eq_of_core (hcore i)
  have hlvl : ∀ e, lvl t' c e = lvl t r (e + 1) := fun e => by
    rw [lvl, hks, hcs]
    exact (level_succ_of_single t.ks t.cs hc e).symm
  have hab : ∀ {e i}, Above t' c e i → Above t r (e + 1) i := by
    rintro e i ⟨f, hf, a, ha, rfl⟩
    rw [hlvl] at ha
    exact ⟨f + 1, by omega, a, ha, rfl⟩
  have hc1 : ((⊥ : WithBot ℤ), c) ∈ lvl t r (0 + 1) := by
    rw [← hlvl]; simp [lvl_zero]
  refine ⟨⟨fun e he a ha => ?_, fun e he => ?_, fun e he a ha hab' => ?_, fun i hi => ?_,
    fun i hi x hx => ?_, hroot⟩, hlvl⟩
  · rw [hlvl] at ha
    rw [hlen]
    exact h.bound (e + 1) (by omega) a ha
  · rw [hlvl]
    exact h.nodup (e + 1) (by omega)
  · rw [hlvl] at ha
    exact h.disjoint (e + 1) (by omega) a ha (hab hab')
  · exact (h.internal i (hab hi)).congr hpar (hcore i)
  · obtain ⟨e, he, a, ha, rfl⟩ := hi
    rw [hlvl] at ha
    rw [hcs] at hx
    have hia : Above t r (d + 1) a.2 := ⟨e + 1, by omega, a, ha, rfl⟩
    have hch := (h.internal a.2 hia).children
    rw [← expand_snd hch] at hx
    obtain ⟨b, hb, rfl⟩ := List.mem_map.mp hx
    have hbl : b ∈ lvl t r (e + 2) := List.mem_flatMap.mpr ⟨a, ha, hb⟩
    have hbc : b.2 ≠ c := fun heq =>
      h.disjoint (e + 2) (by omega) b hbl ⟨1, by omega, _, hc1, heq.symm⟩
    rw [hsame b.2 hbc]
    refine h.parent a.2 hia b.2 ?_
    rw [← expand_snd hch]
    exact List.mem_map_of_mem hb

/-- `collapseRoot` keeps the entries, and a tree with filled leaves filled. -/
theorem collapseRoot_spec (h : Shape t r H) (hf : Filled t r H) :
    ∃ t' r' H', t.collapseRoot = .ok t' ∧ Shape t' r' H' ∧ Filled t' r' H' ∧
      t'.params = t.params ∧ entries t' r' H' = entries t r H := by
  have hrt := h.spine.root_lt
  cases H with
  | zero =>
    have htype := (h.row.leaf (⊥, r) (by simp [lvl_zero])).type
    refine ⟨t, r, 0, ?_, h, hf, rfl, rfl⟩
    simp only [collapseRoot, h.rootIdx, node_eq hrt, Machine.ok_bind]
    rw [show (t.nd r).type = _ from htype]
    simp
  | succ d =>
    have hra : Above t r (d + 1) r := ⟨0, by omega, (⊥, r), by simp [lvl_zero], rfl⟩
    have hint := h.spine.internal r hra
    -- A root without a separator has one child, which takes its place.
    by_cases hsize : (t.nd r).size = 0
    · have hlenc : (t.cs r).length = 1 := by
        have h₁ := hint.children
        have h₂ := hint.size
        omega
      obtain ⟨c, hc⟩ := List.length_eq_one_iff.mp hlenc
      have hct : c < t.nodes.length := h.spine.child_lt hra (by rw [hc]; simp)
      set n : BPlusNode := { t.nd c with isRoot := true, parentIdx := none } with hn
      set t' : BPlusTree := { t.setNode c n with rootIdx := some c } with ht'
      have hnd : ∀ i, t'.nd i = if i = c then n else t.nd i := fun i => nd_setNode hct
      have hcore : ∀ i, core (t'.nd i) = core (t.nd i) := by
        intro i
        rw [hnd]
        split_ifs with hi
        · rw [hi]; rfl
        · rfl
      have hpar : t'.params = t.params := rfl
      obtain ⟨hspine, hlvl⟩ := Spine.promote t' h.spine hc length_setNode hpar hcore
        (fun i hi => by rw [hnd, if_neg hi]) (by rw [hnd, if_pos rfl])
      have hrow : Row t' (lvl t' c d) := by
        rw [hlvl]
        exact h.row.congr hpar fun a _ => hcore a.2
      have hblocks : t'.blocks (lvl t' c d) = t.blocks (lvl t r (d + 1)) := by
        rw [hlvl]
        exact h.row.blocks_eq hpar fun a _ => hcore a.2
      refine ⟨t', c, d, ?_, ⟨h.bounds.congr hpar, rfl, hspine, hrow⟩, ?_, hpar, ?_⟩
      · have hget : Vec.get Fault.child (t.nd r).childIndices 0 = .ok c := by
          rw [show (t.nd r).childIndices = [c] from hc]
          rfl
        have hm : t.modify c (fun n => pure { n with isRoot := true, parentIdx := none }) =
            .ok (t.setNode c n) := modify_ok hct rfl
        simp only [collapseRoot, h.rootIdx, node_eq hrt, Machine.ok_bind, hint.type, hsize,
          and_self, if_true, hget]
        rw [hm]
        rfl
      · intro b hb
        rw [hblocks] at hb
        have := hf b hb
        rw [fill, if_neg (by omega)] at this
        exact ((h.bounds.congr hpar).fill_le).trans this
      · rw [entries, hblocks]
        rfl
    · refine ⟨t, r, d + 1, ?_, h, hf, rfl, rfl⟩
      simp only [collapseRoot, h.rootIdx, node_eq hrt, Machine.ok_bind, hsize, and_false, if_false]
      rfl

/-- `clearRoot` keeps a tree with filled leaves as it is. -/
theorem clearRoot_filled (h : Shape t r H) (hf : Filled t r H) : t.clearRoot = .ok t := by
  have hrt := h.spine.root_lt
  have hcond : ¬ ((t.nd r).size = 0 ∧ (t.nd r).type = .leaf) := by
    rintro ⟨hsize, htype⟩
    cases H with
    | zero =>
      have hr : ((⊥ : WithBot ℤ), r) ∈ lvl t r 0 := by simp [lvl_zero]
      have hfill := hf (⊥, t.entriesOf r) (List.mem_map_of_mem hr)
      have hpos := h.bounds.fill_pos (H := 0)
      have hempty : (t.entriesOf r).length = 0 := (h.row.leaf _ hr).size_eq.symm.trans hsize
      exact absurd hpos (Nat.not_lt.mpr (hfill.trans hempty.le))
    | succ d =>
      have hint := h.spine.internal r ⟨0, by omega, (⊥, r), by simp [lvl_zero], rfl⟩
      rw [hint.type] at htype
      exact absurd htype (by simp)
  simp only [clearRoot, h.rootIdx, node_eq hrt, Machine.ok_bind, if_neg hcond]
  rfl

/-! ## The call -/

/-- The tree holds the map `m`: it is empty, or it is well formed and its entries are the bindings
of `m`. -/
def Models (t : BPlusTree) (m : Finmap fun _ : ℤ => RID) : Prop :=
  Bounds t ∧ ((t.rootIdx = none ∧ t.entryCount = 0 ∧ m = ∅) ∨
    ∃ r H, WF t r H ∧ Represents (entries t r H) m)

variable {m : Finmap fun _ : ℤ => RID}

/-- The end of a removal: the root is handed on or given up. -/
theorem finish_spec {L : List (ℤ × RID)} (h : Shape t r H) (hf : Filled t r H)
    (he : entries t r H = L) (hm : Represents L m) (hc : t.entryCount = L.length) :
    ∃ t', (do
      let t ← t.collapseRoot
      let t ← t.clearRoot
      pure (t, true)) = .ok (t', true) ∧ Models t' m ∧ t'.order = t.order := by
  obtain ⟨t', r', H', ht', hshape, hfilled, hpar, hent⟩ := collapseRoot_spec h hf
  have hcount : t'.entryCount = t.entryCount := (params_eq_iff.mp hpar).2.2.2.2.2
  have hent' : entries t' r' H' = L := hent.trans he
  refine ⟨t', ?_, ⟨hshape.bounds, Or.inr ⟨r', H', ⟨hshape, hfilled, ?_⟩, by rw [hent']; exact hm⟩⟩,
    (params_eq_iff.mp hpar).1⟩
  · rw [ht', Machine.ok_bind, clearRoot_filled hshape hfilled]
    rfl
  · rw [hcount, hc, hent']

/-- `soleChildUnderflow`, once the leaf is found. -/
theorem soleChildUnderflow_iff (hfind : t.findLeaf key = .ok (some l)) (hk : key ∈ (t.nd l).keys) :
    t.soleChildUnderflow key = true ↔ (t.nd l).isRoot = false ∧ (t.nd l).size ≤ t.minLeafKeys ∧
      ∃ p, (t.nd l).parentIdx = some p ∧ (t.nd p).childIndices.length = 1 := by
  rw [soleChildUnderflow, hfind]
  dsimp only
  cases (t.nd l).parentIdx with
  | none => simp
  | some p => simp [hk, and_assoc]

/-- A key the tree does not hold leaves nothing short. -/
theorem soleChildUnderflow_of_absent (hfind : t.findLeaf key = .ok (some l))
    (hk : key ∉ (t.nd l).keys) : t.soleChildUnderflow key = false := by
  rw [soleChildUnderflow, hfind]
  simp [hk]

/-- `remove` when its key is in a root leaf. -/
theorem remove_rootLeaf {L : List (ℤ × RID)} (h : Shape t r 0) (he : entries t r 0 = L)
    (hm : Represents L m) (hc : t.entryCount = L.length) :
    ∃ t', (do
      let t ← t.collapseRoot
      let t ← t.clearRoot
      pure (t, true)) = .ok (t', true) ∧ Models t' m ∧ t'.order = t.order := by
  have hr : ((⊥ : WithBot ℤ), r) ∈ lvl t r 0 := by simp [lvl_zero]
  have hleaf : Leaf t r := h.row.leaf _ hr
  have hentr : entries t r 0 = t.entriesOf r := by simp [entries, blocks, lvl_zero]
  -- The last entry gone, `clearRoot` drops the root; otherwise the leaf stays as it is.
  by_cases hL : L = []
  · have hcollapse : t.collapseRoot = .ok t := by
      simp only [collapseRoot, h.rootIdx, node_eq h.spine.root_lt, Machine.ok_bind, hleaf.type,
        reduceCtorEq, false_and, if_false]
      rfl
    have hsize : (t.nd r).size = 0 := by
      rw [hleaf.size_eq, ← hentr, he, hL, List.length_nil]
    refine ⟨{ t with rootIdx := none }, ?_, ⟨⟨h.bounds.order, h.bounds.maxLeafKeys,
      h.bounds.minLeafKeys, h.bounds.maxInternalKeys⟩, Or.inl ⟨rfl, ?_, ?_⟩⟩, rfl⟩
    · rw [hcollapse, Machine.ok_bind]
      simp only [clearRoot, h.rootIdx, node_eq h.spine.root_lt, Machine.ok_bind, hleaf.type, hsize,
        and_self, if_true]
      rfl
    · show t.entryCount = 0
      rw [hc, hL, List.length_nil]
    · rw [hL] at hm
      exact hm.eq_empty
  · refine finish_spec h (fun b hb => ?_) he hm hc
    rw [lvl_zero, blocks, List.map_singleton, List.mem_singleton] at hb
    rw [hb, fill, if_pos rfl]
    show 1 ≤ (t.entriesOf r).length
    rw [← hentr, he]
    exact List.length_pos_iff.mpr hL

/-- `remove` on a tree that is not empty: an absent key is refused, a present one is taken out,
unless its leaf is an only child with no entry to lose. -/
theorem WF.remove_spec (h : WF t r H) (hm : Represents (entries t r H) m) (key : ℤ) :
    (m.lookup key = none → t.remove key = .ok (t, false) ∧ t.soleChildUnderflow key = false) ∧
    (m.lookup key ≠ none → t.soleChildUnderflow key = true → t.remove key = .error .child) ∧
    (m.lookup key ≠ none → ¬ t.soleChildUnderflow key = true →
      ∃ t', t.remove key = .ok (t', true) ∧ Models t' (m.erase key) ∧ t'.order = t.order) := by
  obtain ⟨A, lo, l, B, hloc, hfind⟩ := h.toShape.findLeaf_spec key
  have hL := hloc.level
  have hleaf := h.toShape.leaf_at hL
  have hl := h.toShape.lt_length hL
  have hkeys := h.toShape.mem_keys_iff hloc
  refine ⟨fun hnone => ?_, ?_⟩
  · have hk : key ∉ (t.entriesOf l).map Prod.fst := by
      rw [← hkeys]
      exact hm.lookup_eq_none.mp hnone
    refine ⟨?_, soleChildUnderflow_of_absent hfind (by rw [hleaf.keys_eq]; exact hk)⟩
    simp only [remove, hfind, Machine.ok_bind, removeFromLeaf, node_eq hl, hleaf.idxOf?_eq_none hk]
    rfl
  rw [← imp_and]
  intro hsome
  have hk : key ∈ (t.entriesOf l).map Prod.fst := by
    rw [← hkeys]
    by_contra hk
    exact hsome (hm.lookup_eq_none.mpr hk)
  obtain ⟨E₁, value, E₂, hE, hidx⟩ := hleaf.exists_split hk
  obtain ⟨t₁, ht₁, hsh⟩ := removeFromLeaf_spec h.toShape hL hE hidx
  set t₂ : BPlusTree := { t₁ with entryCount := t₁.entryCount - 1 } with ht₂
  have hsole := soleChildUnderflow_iff hfind (by rw [hleaf.keys_eq]; exact hk)
  have hsize : (t.nd l).size = (E₁ ++ E₂).length + 1 := by rw [hleaf.size_eq, hE]; simp; omega
  have hlen₂ : t₂.nodes.length = t.nodes.length := hsh.length
  have hshape₂ : Shape t₂ r H := hsh.shape.setCount _
  have hleaf₂ : Leaf t₂ l := hshape₂.leaf_at ((hsh.levels H le_rfl).trans hL)
  have hsize₂ : (t₂.nd l).size = (E₁ ++ E₂).length :=
    hleaf₂.size_eq.trans (congrArg List.length hsh.entriesOf)
  have hroot₂ : (t₂.nd l).isRoot = (t.nd l).isRoot := hsh.links.2
  have hblocks₂ : t₂.blocks (lvl t₂ r H) = t.blocks A ++ (lo, E₁ ++ E₂) :: t.blocks B := hsh.blocks
  set L := (t.blocks A).flatMap Prod.snd ++ (E₁ ++ E₂ ++ (t.blocks B).flatMap Prod.snd) with hLdef
  have hent₂ : entries t₂ r H = L := by
    rw [entries, hblocks₂]; simp [hLdef]
  have hrep : Represents L (m.erase key) := by
    rw [Shape.entries_at hL, hE] at hm
    have hm' : Represents (((t.blocks A).flatMap Prod.snd ++ E₁) ++
        (key, value) :: (E₂ ++ (t.blocks B).flatMap Prod.snd)) m := by simpa using hm
    simpa [hLdef] using hm'.erase
  have hcount₂ : t₂.entryCount = L.length := by
    have hc₁ : t₁.entryCount = t.entryCount := (params_eq_iff.mp hsh.params).2.2.2.2.2
    show t₁.entryCount - 1 = L.length
    rw [hc₁, h.count, Shape.entries_at hL, hE, hLdef]
    simp only [List.length_append, List.length_cons]
    omega
  have hmin₂ : t₂.minLeafKeys = t.minLeafKeys := (params_eq_iff.mp hsh.params).2.2.1
  have horder₂ : t₂.order = t.order := (params_eq_iff.mp hsh.params).1
  have hstart : t.remove key =
      ((if (t.nd l).isRoot = false ∧ (E₁ ++ E₂).length < t.minLeafKeys then
        handleUnderflow t.nodes.length t₂ l else .ok t₂) >>= fun t =>
          t.collapseRoot >>= fun t => t.clearRoot >>= fun t => pure (t, true)) := by
    simp only [remove, hfind, Machine.ok_bind, ht₁]
    show (t₂.node l >>= fun leaf => (if !leaf.isRoot && leaf.size < t₂.minLeafKeys then
        handleUnderflow t₂.nodes.length t₂ l >>= _ else pure t₂ >>= _)) = _
    rw [node_eq (by omega), Machine.ok_bind, hroot₂, hsize₂, hmin₂, hlen₂]
    by_cases hcond : (t.nd l).isRoot = false ∧ (E₁ ++ E₂).length < t.minLeafKeys
    · rw [if_pos hcond, if_pos (by rw [hcond.1]; simpa using hcond.2)]
    · rw [if_neg hcond, if_neg (by simpa using hcond)]
      rfl
  rw [hstart]
  cases H with
  | zero =>
    have hlr : l = r := by
      have hmem : (lo, l) ∈ lvl t r 0 := by rw [hL]; simp
      rw [lvl_zero, List.mem_singleton] at hmem
      exact (Prod.mk.inj hmem).2
    have hroot : (t.nd l).isRoot = true := by rw [hlr]; exact h.spine.root
    refine ⟨fun hs => ?_, fun _ => ?_⟩
    · rw [hsole, hroot] at hs
      exact absurd hs.1 (by simp)
    · rw [if_neg (by simp [hroot]), Machine.ok_bind]
      rw [← horder₂]
      exact remove_rootLeaf hshape₂ hent₂ hrep hcount₂
  | succ d =>
    have hlvl₂ : lvl t₂ r (d + 1) = A ++ (lo, l) :: B := (hsh.levels (d + 1) le_rfl).trans hL
    obtain ⟨PA, plo, p, PB, D₁, D₂, hP, hx, -, -, hint, hlink, hnr⟩ :=
      hshape₂.spine.exists_parent hlvl₂
    have hpl : p ≠ l := by
      rintro rfl
      refine hshape₂.spine.not_above_of_mem (by rw [hlvl₂]; simp) (above_of_mem (a := (plo, p)) ?_)
      rw [hP]; simp
    have hfillrest : ∀ b ∈ t.blocks A ++ t.blocks B, t.minLeafKeys ≤ b.2.length := fun b hb =>
      h.filled.min_le_of_around hL hb
    by_cases hshort : (E₁ ++ E₂).length < t.minLeafKeys
    · have hunder : Underfull t₂ r d p l PA plo PB D₁ lo D₂ := by
        refine ⟨hshape₂, hP, hx, ?_, fun a ha hal => ?_⟩
        · have hfl := h.filled (lo, t.entriesOf l) (by rw [hL, blocks_append, blocks_cons]; simp)
          rw [fill, if_neg (by omega), hE] at hfl
          rw [show t₂.entriesOf l = E₁ ++ E₂ from hsh.entriesOf, hmin₂]
          simp only [List.length_append, List.length_cons] at hfl hshort ⊢
          omega
        · rw [hlvl₂] at ha
          rcases mem_around ha with rfl | ha
          · exact absurd rfl hal
          · have hsame : t₂.entriesOf a.2 = t.entriesOf a.2 := by
              rw [entriesOf, entriesOf]
              rw [show t₂.nd a.2 = t.nd a.2 from hsh.same a.2 hal]
            rw [hmin₂, hsame]
            refine hfillrest (a.1, t.entriesOf a.2) ?_
            rw [← blocks_append]
            exact List.mem_map_of_mem ha
      have hroot : (t.nd l).isRoot = false := hroot₂.symm.trans hnr
      have hkids : (t.nd p).childIndices = (D₁ ++ (lo, l) :: D₂).map Prod.snd := by
        rw [← hunder.children]
        exact congrArg BPlusNode.childIndices (hsh.same p hpl).symm
      have hlinkt : (t.nd l).parentIdx = some p := hsh.links.1.symm.trans hlink
      have hiff : t.soleChildUnderflow key = true ↔ D₁ = [] ∧ D₂ = [] := by
        rw [hsole, hlinkt]
        simp only [hroot, true_and, Option.some.injEq]
        constructor
        · rintro ⟨-, q, rfl, hq⟩
          rw [hkids, List.length_map, List.length_append, List.length_cons] at hq
          exact ⟨List.eq_nil_of_length_eq_zero (by omega), List.eq_nil_of_length_eq_zero (by omega)⟩
        · rintro ⟨rfl, rfl⟩
          exact ⟨by omega, p, rfl, by rw [hkids]; rfl⟩
      obtain ⟨fuel, hfuel⟩ : ∃ f, t.nodes.length = f + 2 := by
        have := hshape₂.spine.depth_lt
        exact ⟨t.nodes.length - 2, by omega⟩
      obtain ⟨halone, hrepair⟩ := hunder.handleUnderflow_spec fuel
      rw [if_pos ⟨hroot, hshort⟩, hiff, hfuel]
      refine ⟨fun hs => ?_, fun hs => ?_⟩
      · rw [halone hs]
        rfl
      · obtain ⟨t₃, ht₃, hrep₃⟩ := hrepair hs
        rw [ht₃, Machine.ok_bind]
        have hc₃ : t₃.entryCount = t₂.entryCount := (params_eq_iff.mp hrep₃.params).2.2.2.2.2
        rw [← horder₂, ← (params_eq_iff.mp hrep₃.params).1]
        refine finish_spec hrep₃.shape (fun b hb => ?_) (hrep₃.entries.trans hent₂) hrep
          (hc₃.trans hcount₂)
        have hmin₃ : t₃.minLeafKeys = t₂.minLeafKeys := (params_eq_iff.mp hrep₃.params).2.2.1
        rw [fill, if_neg (by omega), hmin₃]
        exact hrep₃.filled b hb
    · refine ⟨fun hs => ?_, fun _ => ?_⟩
      · rw [hsole] at hs
        omega
      · rw [if_neg fun hcond => hshort hcond.2, Machine.ok_bind, ← horder₂]
        refine finish_spec hshape₂ (fun b hb => ?_) hent₂ hrep hcount₂
        rw [hblocks₂] at hb
        rw [fill, if_neg (by omega), hmin₂]
        rcases mem_around hb with rfl | hb
        · exact Nat.le_of_not_lt hshort
        · exact hfillrest b hb

end MiniDB.BPlusTree
