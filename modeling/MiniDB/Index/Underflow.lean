import MiniDB.Index.Rows
import MiniDB.Index.Split

/-!
# Underflow

`handleUnderflow` mends a leaf that has lost too many entries: it borrows one from a neighbour under
the same parent, or merges with one. Borrowing changes one separator of the parent, merging removes
one. Called on an internal node the function changes nothing, so a parent may be left with a single
child; a leaf that underflows there has no neighbour to merge with, and the merge reads past the
end of the parent's child list.

## Main results

* `Spine.regroup`: the spine after the separators and children of one parent changed
* `Shape.shift`, `Shape.merge`: entries moved between neighbours, and neighbours merged
* `handleUnderflow_internal`: an internal node is left as it is
-/

namespace MiniDB.BPlusTree

open Levels BlockList SortedMap

variable {t t' : BPlusTree} {r d p l q : ℕ} {k : ℤ} {w : RID} {plo lo lo' : WithBot ℤ}
  {PA PB C₁ C₂ : List (WithBot ℤ × ℕ)} {F₁ F₂ : List (ℤ × RID)}

/-! ## The spine -/

/-- The separators and children of one parent changed, no child added: the spine stays well formed,
and only the parent's part of the level below changes. -/
theorem Spine.regroup (h : Spine t r (d + 1)) (hL : lvl t r d = PA ++ (plo, p) :: PB)
    (hlen : t'.nodes.length = t.nodes.length) (hpar : t'.params = t.params)
    (hlink : ∀ i < t.nodes.length, (t'.nd i).parentIdx = (t.nd i).parentIdx ∧
      (t'.nd i).isRoot = (t.nd i).isRoot)
    (hcore : ∀ i, Above t r (d + 1) i → i ≠ p → core (t'.nd i) = core (t.nd i))
    (hint : Internal t' p) (hkids : (t'.cs p).Sublist (t.cs p)) :
    Spine t' r (d + 1) ∧ lvl t' r d = lvl t r d ∧ lvl t' r (d + 1) = PA.flatMap (expand t.ks t.cs) ++
      (expand t'.ks t'.cs (plo, p) ++ PB.flatMap (expand t.ks t.cs)) := by
  have hpm : (plo, p) ∈ lvl t r d := by simp [hL]
  have hpL : p ∈ (lvl t r d).map Prod.snd := List.mem_map_of_mem hpm
  obtain ⟨hsp, hlv⟩ := h.pred.touch hlen.ge hpar (fun i hi => hcore i (hi.mono (Nat.le_succ d))
    fun heq => h.pred.not_above_of_mem hpL (heq ▸ hi)) hlink
  have hnotp : ∀ a ∈ PA ++ PB, a.2 ≠ p := ne_of_nodup (hL ▸ h.nodup d (Nat.le_succ d))
  have hsame : ∀ a ∈ PA ++ PB, core (t'.nd a.2) = core (t.nd a.2) := fun a ha =>
    hcore a.2 (above_of_mem (hL ▸ mem_around_of_mem ha)) (hnotp a ha)
  have hexp : ∀ a ∈ PA ++ PB, expand t'.ks t'.cs a = expand t.ks t.cs a := fun a ha => by
    rw [expand, expand, ks_eq_of_core (hsame a ha), cs_eq_of_core (hsame a ha)]
  have hlvl : lvl t' r (d + 1) = PA.flatMap (expand t.ks t.cs) ++
      (expand t'.ks t'.cs (plo, p) ++ PB.flatMap (expand t.ks t.cs)) := by
    rw [lvl_succ, hlv d le_rfl, hL, List.flatMap_append, List.flatMap_cons,
      List.flatMap_congr fun a ha => hexp a (List.mem_append_left _ ha),
      List.flatMap_congr fun a ha => hexp a (List.mem_append_right _ ha)]
  have hab : ∀ i, Above t' r (d + 1) i → Above t r (d + 1) i := by
    rintro i ⟨e, he, a, ha, rfl⟩
    exact ⟨e, he, a, hlv e (by omega) ▸ ha, rfl⟩
  have hsub : ((lvl t' r (d + 1)).map Prod.snd).Sublist ((lvl t r (d + 1)).map Prod.snd) := by
    have hold := (h.internal p (above_of_mem hpm)).children
    rw [hlvl, lvl_succ, hL, List.flatMap_append, List.flatMap_cons]
    simp only [List.map_append]
    rw [expand_snd (a := (plo, p)) hint.children, expand_snd (a := (plo, p)) hold]
    exact (List.Sublist.refl _).append (hkids.append (List.Sublist.refl _))
  refine ⟨hsp.succ ?_ ?_ ?_ ?_ ?_, hlv d le_rfl, hlvl⟩
  · intro a ha
    rw [hlv d le_rfl] at ha
    by_cases hap : a.2 = p
    · rw [hap]
      exact hint
    · exact (h.internal a.2 (above_of_mem ha)).congr hpar (hcore a.2 (above_of_mem ha) hap)
  · intro a ha c hc
    rw [hlv d le_rfl] at ha
    have hca : c ∈ t.cs a.2 := by
      by_cases hap : a.2 = p
      · rw [hap] at hc ⊢
        exact hkids.subset hc
      · rwa [cs_eq_of_core (hcore a.2 (above_of_mem ha) hap)] at hc
    rw [(hlink c (h.child_lt (above_of_mem ha) hca)).1, (hlink c (h.child_lt (above_of_mem ha) hca)).2]
    exact h.parent a.2 (above_of_mem ha) c hca
  · intro a ha
    rw [hlen]
    exact h.lt_of_mem (hsub.subset (List.mem_map_of_mem ha))
  · exact (h.nodup (d + 1) le_rfl).sublist hsub
  · intro a ha hab'
    exact h.not_above_of_mem (hsub.subset (List.mem_map_of_mem ha)) (hab _ hab')

/-! ## The two repairs -/

/-- The row below a parent `p`, around two neighbouring children of `p`. -/
theorem lvl_around (hL : lvl t r d = PA ++ (plo, p) :: PB)
    (hx : expand t.ks t.cs (plo, p) = C₁ ++ (lo, l) :: (lo', q) :: C₂) :
    lvl t r (d + 1) = (PA.flatMap (expand t.ks t.cs) ++ C₁) ++
      (lo, l) :: (lo', q) :: (C₂ ++ PB.flatMap (expand t.ks t.cs)) := by
  rw [lvl_succ, hL, List.flatMap_append, List.flatMap_cons, hx]
  simp

/-- The leaves around two neighbours are other cells than these and than their parent. -/
theorem Spine.ne_of_mem_around₂ {A B : List (WithBot ℤ × ℕ)} (h : Spine t r (d + 1))
    (hpa : Above t r (d + 1) p) (hlvl : lvl t r (d + 1) = A ++ (lo, l) :: (lo', q) :: B) :
    ∀ a ∈ A ++ B, a.2 ≠ p ∧ a.2 ≠ l ∧ a.2 ≠ q := by
  intro a ha
  have haL : a ∈ lvl t r (d + 1) := by rw [hlvl]; exact subset_around₂ _ _ _ _ ha
  have hnd := h.nodup (d + 1) le_rfl
  rw [hlvl] at hnd
  have hal : a.2 ≠ l := ne_of_nodup hnd a (mem_around_of_mem ha)
  rw [List.append_cons] at hnd
  have haq : a.2 ≠ q := ne_of_nodup hnd a (by
    rw [List.append_assoc, List.singleton_append]; exact mem_around_of_mem ha)
  exact ⟨fun heq => h.not_above_of_mem (List.mem_map_of_mem haL) (heq ▸ hpa), hal, haq⟩

/-- Entries moved between two neighbours under one parent, and the separator between them set to
the right one's first key. -/
theorem Shape.shift (t' : BPlusTree) (h : Shape t r (d + 1)) (hL : lvl t r d = PA ++ (plo, p) :: PB)
    (hx : expand t.ks t.cs (plo, p) = C₁ ++ (lo, l) :: (lo', q) :: C₂)
    (hlen : t'.nodes.length = t.nodes.length) (hpar : t'.params = t.params)
    (hroot : t'.rootIdx = t.rootIdx)
    (hndp : t'.nd p = { t.nd p with keys := (t.ks p).set C₁.length k })
    (hndl : t'.nd l = { t.nd l with
      keys := F₁.map Prod.fst, values := F₁.map Prod.snd, size := F₁.length })
    (hndq : t'.nd q = { t.nd q with
      keys := ((k, w) :: F₂).map Prod.fst, values := ((k, w) :: F₂).map Prod.snd
      size := ((k, w) :: F₂).length })
    (hsame : ∀ i, i ≠ p → i ≠ l → i ≠ q → t'.nd i = t.nd i)
    (hF : t.entriesOf l ++ t.entriesOf q = F₁ ++ (k, w) :: F₂) (hF₁ : F₁ ≠ [])
    (hmax : F₁.length ≤ t.maxLeafKeys ∧ ((k, w) :: F₂).length ≤ t.maxLeafKeys) :
    Shape t' r (d + 1) ∧ lvl t' r d = lvl t r d ∧ t'.blocks (lvl t' r (d + 1)) =
      t.blocks (PA.flatMap (expand t.ks t.cs) ++ C₁) ++ (lo, F₁) :: (↑k, (k, w) :: F₂) ::
        t.blocks (C₂ ++ PB.flatMap (expand t.ks t.cs)) := by
  have hpm : (plo, p) ∈ lvl t r d := by simp [hL]
  have hp := h.spine.internal p (above_of_mem hpm)
  have hlvl := lvl_around hL hx
  set A := PA.flatMap (expand t.ks t.cs) ++ C₁ with hA
  set B := C₂ ++ PB.flatMap (expand t.ks t.cs) with hB
  have hlm : (lo, l) ∈ lvl t r (d + 1) := by simp [hlvl]
  have hqm : (lo', q) ∈ lvl t r (d + 1) := by simp [hlvl]
  have hla : ¬ Above t r (d + 1) l := h.spine.not_above_of_mem (List.mem_map_of_mem hlm)
  have hqa : ¬ Above t r (d + 1) q := h.spine.not_above_of_mem (List.mem_map_of_mem hqm)
  have hmaxeq : t'.maxLeafKeys = t.maxLeafKeys := (params_eq_iff.mp hpar).2.1
  have hint : Internal t' p := by
    have hmaxi : t'.maxInternalKeys = t.maxInternalKeys := (params_eq_iff.mp hpar).2.2.2.1
    refine ⟨by rw [hndp]; exact hp.type, ?_, ?_, ?_⟩
    · rw [cs, ks, hndp, List.length_set]; exact hp.children
    · rw [ks, hndp, List.length_set]; exact hp.size
    · rw [ks, hndp, List.length_set, hmaxi]; exact hp.size_le
  obtain ⟨hspine, hlvlp, hlvl'⟩ := h.spine.regroup hL hlen hpar (fun i _ => by
      by_cases hip : i = p
      · rw [hip, hndp]; exact ⟨rfl, rfl⟩
      by_cases hil : i = l
      · rw [hil, hndl]; exact ⟨rfl, rfl⟩
      by_cases hiq : i = q
      · rw [hiq, hndq]; exact ⟨rfl, rfl⟩
      rw [hsame i hip hil hiq]
      exact ⟨rfl, rfl⟩) (fun i hi hip => by
      rw [hsame i hip (fun heq => hla (heq ▸ hi)) (fun heq => hqa (heq ▸ hi))]) hint
    (by rw [cs, hndp]; exact List.Sublist.refl _)
  rw [expand_set (a := (plo, p)) hp.children hx k (by rw [ks, hndp]) (by rw [cs, hndp]; rfl)] at hlvl'
  have hlvl'' : lvl t' r (d + 1) = A ++ (lo, l) :: (↑k, q) :: B := by
    rw [hlvl', hA, hB]; simp
  obtain ⟨hleafl, hentl⟩ := Leaf.of_entries (t := t') (i := l) (E := F₁)
    (by rw [hndl]; exact (h.row.leaf _ hlm).type) (by rw [hndl]) (by rw [hndl]) (by rw [hndl])
    (by rw [hmaxeq]; exact hmax.1)
  obtain ⟨hleafq, hentq⟩ := Leaf.of_entries (t := t') (i := q) (E := (k, w) :: F₂)
    (by rw [hndq]; exact (h.row.leaf _ hqm).type) (by rw [hndq]) (by rw [hndq]) (by rw [hndq])
    (by rw [hmaxeq]; exact hmax.2)
  have hrow := h.row
  rw [hlvl] at hrow
  have hcore : ∀ a ∈ A ++ B, core (t'.nd a.2) = core (t.nd a.2) := by
    intro a ha
    obtain ⟨hap, hal, haq⟩ := h.spine.ne_of_mem_around₂ (above_of_mem hpm) hlvl a ha
    rw [hsame a.2 hap hal haq]
  have hblk := h.row.blocks
  rw [hlvl, blocks_append, blocks_cons, blocks_cons] at hblk
  have hrow' : Row t' (A ++ (lo, l) :: (↑k, q) :: B) := by
    refine hrow.shift hpar hcore hleafl hleafq ?_ ?_ ?_
    · rw [next, hndl]; rfl
    · rw [next, hndq]; rfl
    · rw [hentl, hentq]; exact hblk.shift hF hF₁
  obtain ⟨-, hbA, hbB, -, -⟩ := hrow.rest (subset_around₂ _ _ _ _) hpar hcore
  refine ⟨⟨h.bounds.congr hpar, hroot.trans h.rootIdx, hspine, by rw [hlvl'']; exact hrow'⟩, hlvlp, ?_⟩
  rw [hlvl'', blocks_append, blocks_cons, blocks_cons, hbA, hbB, hentl, hentq]

/-- The right one of two neighbours under one parent merged into the left one, and taken out of
the parent with the separator between them. -/
theorem Shape.merge (t' : BPlusTree) (h : Shape t r (d + 1)) (hL : lvl t r d = PA ++ (plo, p) :: PB)
    (hx : expand t.ks t.cs (plo, p) = C₁ ++ (lo, l) :: (lo', q) :: C₂)
    (hlen : t'.nodes.length = t.nodes.length) (hpar : t'.params = t.params)
    (hroot : t'.rootIdx = t.rootIdx)
    (hndp : t'.nd p = { t.nd p with
      keys := (t.ks p).eraseIdx C₁.length
      childIndices := (t.cs p).eraseIdx (C₁.length + 1)
      size := (t.nd p).size - 1 })
    (hndl : t'.nd l = { t.nd l with
      keys := (t.entriesOf l ++ t.entriesOf q).map Prod.fst
      values := (t.entriesOf l ++ t.entriesOf q).map Prod.snd
      size := (t.entriesOf l ++ t.entriesOf q).length
      nextLeafIdx := t.next q })
    (hsame : ∀ i, i ≠ p → i ≠ l → t'.nd i = t.nd i)
    (hmax : (t.entriesOf l ++ t.entriesOf q).length ≤ t.maxLeafKeys) :
    Shape t' r (d + 1) ∧ lvl t' r d = lvl t r d ∧ t'.blocks (lvl t' r (d + 1)) =
      t.blocks (PA.flatMap (expand t.ks t.cs) ++ C₁) ++ (lo, t.entriesOf l ++ t.entriesOf q) ::
        t.blocks (C₂ ++ PB.flatMap (expand t.ks t.cs)) := by
  have hpm : (plo, p) ∈ lvl t r d := by simp [hL]
  have hp := h.spine.internal p (above_of_mem hpm)
  have hlvl := lvl_around hL hx
  set A := PA.flatMap (expand t.ks t.cs) ++ C₁ with hA
  set B := C₂ ++ PB.flatMap (expand t.ks t.cs) with hB
  have hlm : (lo, l) ∈ lvl t r (d + 1) := by simp [hlvl]
  have hla : ¬ Above t r (d + 1) l := h.spine.not_above_of_mem (List.mem_map_of_mem hlm)
  have hmaxeq : t'.maxLeafKeys = t.maxLeafKeys := (params_eq_iff.mp hpar).2.1
  obtain ⟨hcs, hks⟩ := expand_split_at (a := (plo, p)) hp.children hx
  have hlt : C₁.length < (t.ks p).length := by
    have := congrArg List.length hks
    simp only [List.length_cons, List.length_map, List.length_append] at this
    omega
  have hint : Internal t' p := by
    have hmaxi : t'.maxInternalKeys = t.maxInternalKeys := (params_eq_iff.mp hpar).2.2.2.1
    have hle := hp.size_le
    have hch := hp.children
    refine ⟨by rw [hndp]; exact hp.type, ?_, ?_, ?_⟩
    · rw [cs, ks, hndp]
      show ((t.cs p).eraseIdx _).length = ((t.ks p).eraseIdx _).length + 1
      rw [List.length_eraseIdx_of_lt hlt, List.length_eraseIdx_of_lt (by omega)]
      omega
    · rw [ks, hndp]
      show (t.nd p).size - 1 = ((t.ks p).eraseIdx _).length
      rw [List.length_eraseIdx_of_lt hlt, hp.size]
    · rw [ks, hndp, hmaxi]
      show ((t.ks p).eraseIdx _).length ≤ _
      rw [List.length_eraseIdx_of_lt hlt]
      omega
  obtain ⟨hspine, hlvlp, hlvl'⟩ := h.spine.regroup hL hlen hpar (fun i _ => by
      by_cases hip : i = p
      · rw [hip, hndp]; exact ⟨rfl, rfl⟩
      by_cases hil : i = l
      · rw [hil, hndl]; exact ⟨rfl, rfl⟩
      rw [hsame i hip hil]
      exact ⟨rfl, rfl⟩) (fun i hi hip => by
      rw [hsame i hip (fun heq => hla (heq ▸ hi))]) hint
    (by rw [cs, hndp]; exact List.eraseIdx_sublist _ _)
  rw [expand_erase (a := (plo, p)) hp.children hx (by rw [ks, hndp]) (by rw [cs, hndp])] at hlvl'
  have hlvl'' : lvl t' r (d + 1) = A ++ (lo, l) :: B := by
    rw [hlvl', hA, hB]; simp
  obtain ⟨hleafl, hentl⟩ := Leaf.of_entries (t := t') (i := l) (E := t.entriesOf l ++ t.entriesOf q)
    (by rw [hndl]; exact (h.row.leaf _ hlm).type) (by rw [hndl]) (by rw [hndl]) (by rw [hndl])
    (by rw [hmaxeq]; exact hmax)
  have hrow := h.row
  rw [hlvl] at hrow
  have hcore : ∀ a ∈ A ++ B, core (t'.nd a.2) = core (t.nd a.2) := by
    intro a ha
    obtain ⟨hap, hal, -⟩ := h.spine.ne_of_mem_around₂ (above_of_mem hpm) hlvl a ha
    rw [hsame a.2 hap hal]
  have hblk := h.row.blocks
  rw [hlvl, blocks_append, blocks_cons, blocks_cons] at hblk
  have hrow' : Row t' (A ++ (lo, l) :: B) := by
    refine hrow.merge hpar hcore hleafl ?_ ?_
    · rw [next, hndl]
    · rw [hentl]; exact hblk.merge
  obtain ⟨-, hbA, hbB, -, -⟩ := hrow.rest (subset_around₂ _ _ _ _) hpar hcore
  refine ⟨⟨h.bounds.congr hpar, hroot.trans h.rootIdx, hspine, by rw [hlvl'']; exact hrow'⟩, hlvlp, ?_⟩
  rw [hlvl'', blocks_append, blocks_cons, hbA, hbB, hentl]

/-! ## The function -/

/-- The leaf `x`, a child of `p` between `D₁` and `D₂`, is one entry short; the other leaves are
not. -/
structure Underfull (t : BPlusTree) (r d p x : ℕ) (PA : List (WithBot ℤ × ℕ)) (plo : WithBot ℤ)
    (PB D₁ : List (WithBot ℤ × ℕ)) (lox : WithBot ℤ) (D₂ : List (WithBot ℤ × ℕ)) : Prop where
  shape : Shape t r (d + 1)
  parent : lvl t r d = PA ++ (plo, p) :: PB
  place : expand t.ks t.cs (plo, p) = D₁ ++ (lox, x) :: D₂
  short : (t.entriesOf x).length + 1 = t.minLeafKeys
  rest : ∀ a ∈ lvl t r (d + 1), a.2 ≠ x → t.minLeafKeys ≤ (t.entriesOf a.2).length

/-- The outcome of a repair: the same entries in leaves none of which is short. -/
structure Repaired (t : BPlusTree) (r d : ℕ) (t' : BPlusTree) : Prop where
  shape : Shape t' r (d + 1)
  filled : ∀ b ∈ t'.blocks (lvl t' r (d + 1)), t.minLeafKeys ≤ b.2.length
  params : t'.params = t.params
  parents : lvl t' r d = lvl t r d
  entries : entries t' r (d + 1) = entries t r (d + 1)

variable {x s : ℕ} {D₁ D₂ : List (WithBot ℤ × ℕ)} {lox : WithBot ℤ}

namespace Underfull

theorem lvl_eq (h : Underfull t r d p x PA plo PB D₁ lox D₂) : lvl t r (d + 1) =
    (PA.flatMap (expand t.ks t.cs) ++ D₁) ++ (lox, x) :: (D₂ ++ PB.flatMap (expand t.ks t.cs)) := by
  rw [lvl_succ, h.parent, List.flatMap_append, List.flatMap_cons, h.place]
  simp

theorem above (h : Underfull t r d p x PA plo PB D₁ lox D₂) : Above t r (d + 1) p := by
  have hp : (plo, p) ∈ lvl t r d := by simp [h.parent]
  exact above_of_mem hp

theorem internal (h : Underfull t r d p x PA plo PB D₁ lox D₂) : Internal t p :=
  h.shape.spine.internal p h.above

theorem children (h : Underfull t r d p x PA plo PB D₁ lox D₂) :
    (t.nd p).childIndices = (D₁ ++ (lox, x) :: D₂).map Prod.snd := by
  rw [← h.place]
  exact (expand_snd (a := (plo, p)) h.internal.children).symm

theorem length_ks (h : Underfull t r d p x PA plo PB D₁ lox D₂) :
    (t.ks p).length = D₁.length + D₂.length := by
  have hlen := h.internal.children
  rw [cs, h.children, List.length_map, List.length_append, List.length_cons] at hlen
  omega

/-- A child of the parent is a leaf of the tree. -/
theorem mem_lvl (h : Underfull t r d p x PA plo PB D₁ lox D₂) {a : WithBot ℤ × ℕ}
    (ha : a ∈ D₁ ++ (lox, x) :: D₂) : a ∈ lvl t r (d + 1) := by
  have hp : (plo, p) ∈ lvl t r d := by simp [h.parent]
  rw [← h.place] at ha
  exact List.mem_flatMap.mpr ⟨(plo, p), hp, ha⟩

theorem lt (h : Underfull t r d p x PA plo PB D₁ lox D₂) {a : WithBot ℤ × ℕ}
    (ha : a ∈ D₁ ++ (lox, x) :: D₂) : a.2 < t.nodes.length :=
  h.shape.spine.bound (d + 1) le_rfl a (h.mem_lvl ha)

theorem leaf (h : Underfull t r d p x PA plo PB D₁ lox D₂) {a : WithBot ℤ × ℕ}
    (ha : a ∈ D₁ ++ (lox, x) :: D₂) : Leaf t a.2 := h.shape.row.leaf a (h.mem_lvl ha)

theorem ne_parent (h : Underfull t r d p x PA plo PB D₁ lox D₂) {a : WithBot ℤ × ℕ}
    (ha : a ∈ D₁ ++ (lox, x) :: D₂) : a.2 ≠ p := fun heq =>
  h.shape.spine.not_above_of_mem (List.mem_map_of_mem (h.mem_lvl ha)) (heq ▸ h.above)

/-- The children of the parent are distinct. -/
theorem ne_of_mem (h : Underfull t r d p x PA plo PB D₁ lox D₂) {a : WithBot ℤ × ℕ}
    (ha : a ∈ D₁ ++ D₂) : a.2 ≠ x := by
  refine h.shape.spine.ne_of_mem_around h.lvl_eq a ?_
  rw [List.append_assoc, List.mem_append, ← List.append_assoc, List.mem_append]
  exact Or.inr (Or.inl ha)

theorem idxOf?_eq (h : Underfull t r d p x PA plo PB D₁ lox D₂) :
    (t.nd p).childIndices.idxOf? x = some D₁.length := by
  have hx : x ∉ D₁.map Prod.snd := by
    intro hm
    obtain ⟨a, ha, hax⟩ := List.mem_map.mp hm
    exact h.ne_of_mem (List.mem_append_left _ ha) hax
  rw [h.children, List.map_append, List.map_cons, idxOf?_append_cons _ hx, List.length_map]

/-- A change of two neighbours, one of them `x`, that keeps their entries and leaves no block short
is a repair. -/
theorem repaired (h : Underfull t r d p x PA plo PB D₁ lox D₂) {A B : List (WithBot ℤ × ℕ)}
    {M : List (WithBot ℤ × List (ℤ × RID))}
    (hlvl : lvl t r (d + 1) = A ++ (lo, l) :: (lo', q) :: B) (hx : x = l ∨ x = q)
    (hshape : Shape t' r (d + 1)) (hpar : t'.params = t.params) (hlvlp : lvl t' r d = lvl t r d)
    (hblocks : t'.blocks (lvl t' r (d + 1)) = t.blocks A ++ (M ++ t.blocks B))
    (hM : M.flatMap Prod.snd = t.entriesOf l ++ t.entriesOf q)
    (hfill : ∀ b ∈ M, t.minLeafKeys ≤ b.2.length) : Repaired t r d t' := by
  refine ⟨hshape, fun b hb => ?_, hpar, hlvlp, ?_⟩
  · rw [hblocks] at hb
    have hmem : b ∈ M ∨ b ∈ t.blocks (A ++ B) := by
      rw [blocks_append]
      simp only [List.mem_append] at hb ⊢
      tauto
    rcases hmem with hb | hb
    · exact hfill b hb
    · obtain ⟨a, ha, rfl⟩ := List.mem_map.mp hb
      obtain ⟨-, hal, haq⟩ := h.shape.spine.ne_of_mem_around₂ h.above hlvl a ha
      refine h.rest a (by rw [hlvl]; exact subset_around₂ _ _ _ _ ha) ?_
      rcases hx with rfl | rfl
      · exact hal
      · exact haq
  · rw [BPlusTree.entries, BPlusTree.entries, hblocks, hlvl, blocks_append, blocks_cons, blocks_cons]
    simp only [List.flatMap_append, List.flatMap_cons, hM, List.append_assoc]

/-- A first child has no left neighbour to borrow from. -/
theorem borrowLeft_none (h : Underfull t r d p x PA plo PB [] lox D₂) :
    t.borrowLeft x p 0 = .ok none := by
  have hx := h.lt (a := (lox, x)) (by simp)
  have hp := h.shape.spine.above_lt h.above
  simp only [borrowLeft, node_eq hx, node_eq hp, Machine.ok_bind, lt_irrefl, if_false]
  rfl

/-- A left neighbour with entries to spare lends its last one. -/
theorem borrowLeft_spec (h : Underfull t r d p x PA plo PB (C₁ ++ [(lo, s)]) lox D₂) :
    (t.minLeafKeys < (t.entriesOf s).length →
      ∃ t', t.borrowLeft x p (C₁.length + 1) = .ok (some t') ∧ Repaired t r d t') ∧
    (¬ t.minLeafKeys < (t.entriesOf s).length →
      t.borrowLeft x p (C₁.length + 1) = .ok none) := by
  have hxm : (lox, x) ∈ C₁ ++ [(lo, s)] ++ (lox, x) :: D₂ := by simp
  have hsm : (lo, s) ∈ C₁ ++ [(lo, s)] ++ (lox, x) :: D₂ := by simp
  have hxt := h.lt hxm
  have hst := h.lt hsm
  have hpt := h.shape.spine.above_lt h.above
  have hxp := h.ne_parent hxm
  have hsp := h.ne_parent hsm
  have hsx : s ≠ x := h.ne_of_mem (a := (lo, s)) (by simp)
  have hleafx := h.leaf hxm
  have hleafs := h.leaf hsm
  have hsib : Vec.get Fault.child (t.nd p).childIndices C₁.length = .ok s := by
    rw [h.children, List.append_assoc, List.singleton_append]
    exact Vec.get_map_append_cons _ _ _ _
  constructor
  · intro hspare
    obtain ⟨F₁, ⟨k, w⟩, hF⟩ : ∃ F₁ e, t.entriesOf s = F₁ ++ [e] := by
      have hne : t.entriesOf s ≠ [] := fun hnil => by rw [hnil] at hspare; simp at hspare
      exact ⟨_, _, (List.dropLast_append_getLast hne).symm⟩
    have hks : (t.nd s).keys = F₁.map Prod.fst ++ [k] := by rw [hleafs.keys_eq, hF]; simp
    have hvs : (t.nd s).values = F₁.map Prod.snd ++ [w] := by rw [hleafs.values_eq, hF]; simp
    have hss : (t.nd s).size = F₁.length + 1 := by rw [hleafs.size_eq, hF]; simp
    set nx : BPlusNode := { t.nd x with
      keys := k :: (t.nd x).keys, values := w :: (t.nd x).values
      size := (t.nd x).size + 1 } with hnx
    set ns : BPlusNode := { t.nd s with
      keys := F₁.map Prod.fst, values := F₁.map Prod.snd, size := F₁.length } with hns
    set np : BPlusNode := { t.nd p with keys := (t.ks p).set C₁.length k } with hnp
    set t₁ := t.setNode x nx with ht₁
    set t₂ := t₁.setNode s ns with ht₂
    set t₃ := t₂.setNode p np with ht₃
    have hlen₁ : t₁.nodes.length = t.nodes.length := length_setNode
    have hlen₂ : t₂.nodes.length = t.nodes.length := by rw [ht₂, length_setNode, hlen₁]
    have hlen₃ : t₃.nodes.length = t.nodes.length := by rw [ht₃, length_setNode, hlen₂]
    have hnd₁ : t₁.nd = Function.update t.nd x nx := nd_setNode_eq hxt
    have hnd₂ : t₂.nd = Function.update (Function.update t.nd x nx) s ns := by
      rw [ht₂, nd_setNode_eq (by rw [hlen₁]; exact hst), hnd₁]
    have hnd₃ : t₃.nd = Function.update (Function.update (Function.update t.nd x nx) s ns) p np := by
      rw [ht₃, nd_setNode_eq (by omega), hnd₂]
    have hm₁ : t.modify x (fun n => pure { n with
        keys := k :: n.keys, values := w :: n.values, size := n.size + 1 }) = .ok t₁ :=
      modify_ok hxt rfl
    have hm₂ : t₁.modify s (fun n => do
        pure { n with
          keys := ← Vec.popBack .access n.keys
          values := ← Vec.popBack .access n.values
          size := n.size - 1 }) = .ok t₂ := by
      refine modify_ok (by rw [hlen₁]; exact hst) ?_
      rw [hnd₁, Function.update_of_ne hsx, hks, hvs, hss]
      simp only [Vec.popBack_append_singleton, Machine.ok_bind, Nat.add_sub_cancel]
      rfl
    have hn₂ : t₂.node x = .ok nx := by
      rw [node_eq (by rw [hlen₂]; exact hxt), hnd₂, Function.update_of_ne (Ne.symm hsx),
        Function.update_self]
    have hm₃ : t₂.modify p (fun n => do
        pure { n with keys := ← Vec.set .access n.keys C₁.length k }) = .ok t₃ := by
      refine modify_ok (by omega) ?_
      have hlt : C₁.length < (t.ks p).length := by
        rw [h.length_ks, List.length_append, List.length_singleton]; omega
      rw [hnd₂, Function.update_of_ne hsp.symm, Function.update_of_ne hxp.symm]
      show (do pure { t.nd p with keys := ← Vec.set Fault.access (t.ks p) C₁.length k }) = _
      rw [Vec.set_of_lt hlt]
      rfl
    refine ⟨t₃, ?_, ?_⟩
    · have hcond : (t.nd x).type = .leaf ∧ t.minLeafKeys < (t.nd s).size :=
        ⟨hleafx.type, by rw [hleafs.size_eq]; exact hspare⟩
      have hback : Vec.back Fault.access (t.nd s).keys = .ok k := by
        rw [hks, Vec.back_append_singleton]
      have hbackv : Vec.back Fault.access (t.nd s).values = .ok w := by
        rw [hvs, Vec.back_append_singleton]
      have hsep : Vec.get Fault.access nx.keys 0 = .ok k := rfl
      simp only [borrowLeft, node_eq hxt, node_eq hpt, node_eq hst, Machine.ok_bind,
        Nat.succ_pos, if_true, Nat.add_sub_cancel, hsib, if_pos hcond, hback, hbackv]
      rw [hm₁, Machine.ok_bind, hm₂, Machine.ok_bind, hn₂, Machine.ok_bind, hsep, Machine.ok_bind,
        hm₃]
      rfl
    · have hplace := h.place
      rw [List.append_assoc, List.singleton_append] at hplace
      have hEx : t.entriesOf s ++ t.entriesOf x = F₁ ++ (k, w) :: t.entriesOf x := by
        rw [hF]; simp
      have hlenF : (t.entriesOf s).length = F₁.length + 1 := by rw [hF]; simp
      have hminmax := h.shape.bounds.min_le_max
      have hshort := h.short
      have hsmax : (t.entriesOf s).length ≤ t.maxLeafKeys := by
        rw [← hleafs.size_eq, hleafs.size]; exact hleafs.size_le
      obtain ⟨hshape, hlvlp, hblocks⟩ := Shape.shift t₃ h.shape h.parent hplace hlen₃ rfl rfl
        (by rw [hnd₃, Function.update_self])
        (by rw [hnd₃, Function.update_of_ne hsp, Function.update_self])
        (by
          rw [hnd₃, Function.update_of_ne hxp, Function.update_of_ne (Ne.symm hsx),
            Function.update_self, hnx, hleafx.keys_eq, hleafx.values_eq, hleafx.size_eq]
          rfl)
        (fun i hip his hix => by
          rw [hnd₃, Function.update_of_ne hip, Function.update_of_ne his, Function.update_of_ne hix])
        hEx (fun hnil => by rw [hnil, List.length_nil] at hlenF; omega)
        ⟨by omega, by rw [List.length_cons]; omega⟩
      refine h.repaired (M := [(lo, F₁), (↑k, (k, w) :: t.entriesOf x)])
        (lvl_around h.parent hplace) (Or.inr rfl) hshape rfl hlvlp hblocks (by rw [hF]; simp) ?_
      intro b hb
      simp only [List.mem_cons, List.not_mem_nil, or_false] at hb
      rcases hb with rfl | rfl
      · show t.minLeafKeys ≤ F₁.length
        omega
      · show t.minLeafKeys ≤ ((k, w) :: t.entriesOf x).length
        rw [List.length_cons]
        omega
  · intro hspare
    simp only [borrowLeft, node_eq hxt, node_eq hpt, node_eq hst, Machine.ok_bind, Nat.succ_pos,
      if_true, Nat.add_sub_cancel, hsib, hleafs.size_eq, hspare, and_false, if_false]
    rfl

/-- A last child has no right neighbour to borrow from. -/
theorem borrowRight_none (h : Underfull t r d p x PA plo PB D₁ lox []) :
    t.borrowRight x p D₁.length = .ok none := by
  have hx := h.lt (a := (lox, x)) (by simp)
  have hp := h.shape.spine.above_lt h.above
  have hlast : ¬ D₁.length < (t.nd p).childIndices.length - 1 := by
    rw [h.children]; simp
  simp only [borrowRight, node_eq hx, node_eq hp, Machine.ok_bind, if_neg hlast]
  rfl

/-- A right neighbour with entries to spare lends its first one. -/
theorem borrowRight_spec (h : Underfull t r d p x PA plo PB D₁ lox ((lo, q) :: C₂)) :
    (t.minLeafKeys < (t.entriesOf q).length →
      ∃ t', t.borrowRight x p D₁.length = .ok (some t') ∧ Repaired t r d t') ∧
    (¬ t.minLeafKeys < (t.entriesOf q).length → t.borrowRight x p D₁.length = .ok none) := by
  have hxm : (lox, x) ∈ D₁ ++ (lox, x) :: (lo, q) :: C₂ := by simp
  have hqm : (lo, q) ∈ D₁ ++ (lox, x) :: (lo, q) :: C₂ := by simp
  have hxt := h.lt hxm
  have hqt := h.lt hqm
  have hpt := h.shape.spine.above_lt h.above
  have hxp := h.ne_parent hxm
  have hqp := h.ne_parent hqm
  have hqx : q ≠ x := h.ne_of_mem (a := (lo, q)) (by simp)
  have hleafx := h.leaf hxm
  have hleafq := h.leaf hqm
  have hpos : D₁.length < (t.nd p).childIndices.length - 1 := by
    rw [h.children]; simp
  have hsib : Vec.get Fault.child (t.nd p).childIndices (D₁.length + 1) = .ok q := by
    rw [h.children, List.append_cons, show D₁.length + 1 = (D₁ ++ [(lox, x)]).length by simp]
    exact Vec.get_map_append_cons _ _ _ _
  constructor
  · intro hspare
    obtain ⟨k₀, w₀, k, w, F₂, hF⟩ : ∃ k₀ w₀ k w F₂, t.entriesOf q = (k₀, w₀) :: (k, w) :: F₂ := by
      have hmin := h.shape.bounds.minLeafKeys_pos
      match hE : t.entriesOf q with
      | [] => rw [hE, List.length_nil] at hspare; omega
      | [_] => rw [hE, List.length_singleton] at hspare; omega
      | (k₀, w₀) :: (k, w) :: F₂ => exact ⟨k₀, w₀, k, w, F₂, rfl⟩
    have hkq : (t.nd q).keys = k₀ :: ((k, w) :: F₂).map Prod.fst := by rw [hleafq.keys_eq, hF]; rfl
    have hvq : (t.nd q).values = w₀ :: ((k, w) :: F₂).map Prod.snd := by
      rw [hleafq.values_eq, hF]; rfl
    have hsq : (t.nd q).size = ((k, w) :: F₂).length + 1 := by rw [hleafq.size_eq, hF]; rfl
    set nx : BPlusNode := { t.nd x with
      keys := (t.nd x).keys ++ [k₀], values := (t.nd x).values ++ [w₀]
      size := (t.nd x).size + 1 } with hnx
    set nq : BPlusNode := { t.nd q with
      keys := ((k, w) :: F₂).map Prod.fst, values := ((k, w) :: F₂).map Prod.snd
      size := ((k, w) :: F₂).length } with hnq
    set np : BPlusNode := { t.nd p with keys := (t.ks p).set D₁.length k } with hnp
    set t₁ := t.setNode x nx with ht₁
    set t₂ := t₁.setNode q nq with ht₂
    set t₃ := t₂.setNode p np with ht₃
    have hlen₁ : t₁.nodes.length = t.nodes.length := length_setNode
    have hlen₂ : t₂.nodes.length = t.nodes.length := by rw [ht₂, length_setNode, hlen₁]
    have hlen₃ : t₃.nodes.length = t.nodes.length := by rw [ht₃, length_setNode, hlen₂]
    have hnd₁ : t₁.nd = Function.update t.nd x nx := nd_setNode_eq hxt
    have hnd₂ : t₂.nd = Function.update (Function.update t.nd x nx) q nq := by
      rw [ht₂, nd_setNode_eq (by rw [hlen₁]; exact hqt), hnd₁]
    have hnd₃ : t₃.nd = Function.update (Function.update (Function.update t.nd x nx) q nq) p np := by
      rw [ht₃, nd_setNode_eq (by omega), hnd₂]
    have hm₁ : t.modify x (fun n => pure { n with
        keys := n.keys ++ [k₀], values := n.values ++ [w₀], size := n.size + 1 }) = .ok t₁ :=
      modify_ok hxt rfl
    have hm₂ : t₁.modify q (fun n => do
        pure { n with
          keys := ← Vec.erase .access n.keys 0
          values := ← Vec.erase .access n.values 0
          size := n.size - 1 }) = .ok t₂ := by
      refine modify_ok (by rw [hlen₁]; exact hqt) ?_
      rw [hnd₁, Function.update_of_ne hqx, hkq, hvq, hsq, Vec.erase_of_lt (by simp),
        Vec.erase_of_lt (by simp)]
      rfl
    have hn₂ : t₂.node q = .ok nq := by
      rw [node_eq (by rw [hlen₂]; exact hqt), hnd₂, Function.update_self]
    have hm₃ : t₂.modify p (fun n => do
        pure { n with keys := ← Vec.set .access n.keys D₁.length k }) = .ok t₃ := by
      refine modify_ok (by omega) ?_
      have hlt : D₁.length < (t.ks p).length := by
        rw [h.length_ks, List.length_cons]; omega
      rw [hnd₂, Function.update_of_ne hqp.symm, Function.update_of_ne hxp.symm]
      show (do pure { t.nd p with keys := ← Vec.set Fault.access (t.ks p) D₁.length k }) = _
      rw [Vec.set_of_lt hlt]
      rfl
    refine ⟨t₃, ?_, ?_⟩
    · have hcond : (t.nd x).type = .leaf ∧ t.minLeafKeys < (t.nd q).size :=
        ⟨hleafx.type, by rw [hleafq.size_eq]; exact hspare⟩
      have hfront : Vec.get Fault.access (t.nd q).keys 0 = .ok k₀ := by
        rw [hkq, Vec.get_zero_cons]
      have hfrontv : Vec.get Fault.access (t.nd q).values 0 = .ok w₀ := by
        rw [hvq, Vec.get_zero_cons]
      have hsep : Vec.get Fault.access nq.keys 0 = .ok k := rfl
      simp only [borrowRight, node_eq hxt, node_eq hpt, node_eq hqt, Machine.ok_bind,
        if_pos hpos, hsib, if_pos hcond, hfront, hfrontv]
      rw [hm₁, Machine.ok_bind, hm₂, Machine.ok_bind, hn₂, Machine.ok_bind, hsep, Machine.ok_bind,
        hm₃]
      rfl
    · have hEx : t.entriesOf x ++ t.entriesOf q =
          (t.entriesOf x ++ [(k₀, w₀)]) ++ (k, w) :: F₂ := by
        rw [hF]; simp
      have hlenF : (t.entriesOf q).length = ((k, w) :: F₂).length + 1 := by rw [hF]; rfl
      have hlenx : (t.entriesOf x ++ [(k₀, w₀)]).length = (t.entriesOf x).length + 1 := by simp
      have hminmax := h.shape.bounds.min_le_max
      have hshort := h.short
      have hqmax : (t.entriesOf q).length ≤ t.maxLeafKeys := by
        rw [← hleafq.size_eq, hleafq.size]; exact hleafq.size_le
      obtain ⟨hshape, hlvlp, hblocks⟩ := Shape.shift t₃ h.shape h.parent h.place hlen₃ rfl rfl
        (by rw [hnd₃, Function.update_self])
        (by
          rw [hnd₃, Function.update_of_ne hxp, Function.update_of_ne (Ne.symm hqx),
            Function.update_self, hnx, hleafx.keys_eq, hleafx.values_eq, hleafx.size_eq, hlenx,
            List.map_append, List.map_append]
          rfl)
        (by rw [hnd₃, Function.update_of_ne hqp, Function.update_self])
        (fun i hip hix hiq => by
          rw [hnd₃, Function.update_of_ne hip, Function.update_of_ne hiq, Function.update_of_ne hix])
        hEx (by simp) ⟨by omega, by omega⟩
      refine h.repaired (M := [(lox, t.entriesOf x ++ [(k₀, w₀)]), (↑k, (k, w) :: F₂)])
        (lvl_around h.parent h.place) (Or.inl rfl) hshape rfl hlvlp hblocks (by rw [hF]; simp) ?_
      intro b hb
      simp only [List.mem_cons, List.not_mem_nil, or_false] at hb
      rcases hb with rfl | rfl
      · show t.minLeafKeys ≤ (t.entriesOf x ++ [(k₀, w₀)]).length
        omega
      · show t.minLeafKeys ≤ ((k, w) :: F₂).length
        omega
  · intro hspare
    simp only [borrowRight, node_eq hxt, node_eq hpt, node_eq hqt, Machine.ok_bind, if_pos hpos,
      hsib, hleafq.size_eq, hspare, and_false, if_false]
    rfl

/-- Two neighbours, one of them `x`, merged into the left one. -/
theorem mergeNeighbours_spec (h : Underfull t r d p x PA plo PB D₁ lox D₂)
    (hplace : expand t.ks t.cs (plo, p) = C₁ ++ (lo, l) :: (lo', q) :: C₂) (hx : x = l ∨ x = q)
    (hsize : (t.entriesOf l).length + (t.entriesOf q).length + 1 ≤ 2 * t.minLeafKeys)
    (hfill : t.minLeafKeys ≤ (t.entriesOf l).length + (t.entriesOf q).length) :
    ∃ t₁ t₂, t.appendLeaf l q = .ok t₁ ∧
      t₁.dropChild p C₁.length (C₁.length + 1) = .ok t₂ ∧ Repaired t r d t₂ := by
  have hplace' := h.place
  rw [hplace] at hplace'
  have hlm : (lo, l) ∈ D₁ ++ (lox, x) :: D₂ := by rw [← hplace']; simp
  have hqm : (lo', q) ∈ D₁ ++ (lox, x) :: D₂ := by rw [← hplace']; simp
  have hlt := h.lt hlm
  have hqt := h.lt hqm
  have hpt := h.shape.spine.above_lt h.above
  have hlp := h.ne_parent hlm
  have hleafl := h.leaf hlm
  have hleafq := h.leaf hqm
  have hlen : (t.entriesOf l ++ t.entriesOf q).length =
      (t.entriesOf l).length + (t.entriesOf q).length := List.length_append
  obtain ⟨hcs, hks⟩ := expand_split_at (a := (plo, p)) h.internal.children hplace
  have hkp : C₁.length < (t.ks p).length := by
    have := congrArg List.length hks
    simp only [List.length_cons, List.length_map, List.length_append] at this
    omega
  have hcp : C₁.length + 1 < (t.cs p).length := by have := h.internal.children; omega
  set nl : BPlusNode := { t.nd l with
    keys := (t.entriesOf l ++ t.entriesOf q).map Prod.fst
    values := (t.entriesOf l ++ t.entriesOf q).map Prod.snd
    size := (t.entriesOf l ++ t.entriesOf q).length
    nextLeafIdx := t.next q } with hnl
  set np : BPlusNode := { t.nd p with
    keys := (t.ks p).eraseIdx C₁.length
    childIndices := (t.cs p).eraseIdx (C₁.length + 1)
    size := (t.nd p).size - 1 } with hnp
  set t₁ := t.setNode l nl with ht₁
  set t₂ := t₁.setNode p np with ht₂
  have hlen₁ : t₁.nodes.length = t.nodes.length := length_setNode
  have hlen₂ : t₂.nodes.length = t.nodes.length := by rw [ht₂, length_setNode, hlen₁]
  have hnd₁ : t₁.nd = Function.update t.nd l nl := nd_setNode_eq hlt
  have hnd₂ : t₂.nd = Function.update (Function.update t.nd l nl) p np := by
    rw [ht₂, nd_setNode_eq (by omega), hnd₁]
  refine ⟨t₁, t₂, ?_, ?_, ?_⟩
  · have hfirst : Vec.firstN Fault.access (t.nd q).keys (t.nd q).size =
        .ok ((t.entriesOf q).map Prod.fst) := by
      rw [hleafq.keys_eq, hleafq.size_eq, ← List.length_map Prod.fst, Vec.firstN_length]
    have hfirstv : Vec.firstN Fault.access (t.nd q).values (t.nd q).size =
        .ok ((t.entriesOf q).map Prod.snd) := by
      rw [hleafq.values_eq, hleafq.size_eq, ← List.length_map Prod.snd, Vec.firstN_length]
    simp only [appendLeaf, node_eq hqt, Machine.ok_bind, hfirst, hfirstv]
    refine modify_ok hlt ?_
    rw [hnl, hlen, List.map_append, List.map_append, hleafl.keys_eq, hleafl.values_eq,
      hleafl.size_eq, hleafq.size_eq]
    rfl
  · refine modify_ok (by omega) ?_
    rw [hnd₁, Function.update_of_ne hlp.symm]
    show (do
      pure { t.nd p with
        keys := ← Vec.erase Fault.access (t.ks p) C₁.length
        childIndices := ← Vec.erase Fault.child (t.cs p) (C₁.length + 1)
        size := (t.nd p).size - 1 }) = _
    rw [Vec.erase_of_lt hkp, Vec.erase_of_lt hcp]
    rfl
  · have hminmax := h.shape.bounds.min_le_max
    obtain ⟨hshape, hlvlp, hblocks⟩ := Shape.merge t₂ h.shape h.parent hplace hlen₂ rfl rfl
      (by rw [hnd₂, Function.update_self])
      (by rw [hnd₂, Function.update_of_ne hlp, Function.update_self])
      (fun i hip hil => by rw [hnd₂, Function.update_of_ne hip, Function.update_of_ne hil])
      (by omega)
    refine h.repaired (M := [(lo, t.entriesOf l ++ t.entriesOf q)])
      (lvl_around h.parent hplace) hx hshape rfl hlvlp hblocks (by simp) ?_
    intro b hb
    rw [List.mem_singleton] at hb
    subst hb
    show t.minLeafKeys ≤ (t.entriesOf l ++ t.entriesOf q).length
    omega

/-- A leaf whose left neighbour has nothing to spare is merged into it. -/
theorem mergeLeaf_left (h : Underfull t r d p x PA plo PB (C₁ ++ [(lo, s)]) lox D₂)
    (hspare : ¬ t.minLeafKeys < (t.entriesOf s).length) :
    ∃ t', t.mergeLeaf x p (C₁.length + 1) = .ok t' ∧ Repaired t r d t' := by
  have hsm : (lo, s) ∈ C₁ ++ [(lo, s)] ++ (lox, x) :: D₂ := by simp
  have hpt := h.shape.spine.above_lt h.above
  have hfill : t.minLeafKeys ≤ (t.entriesOf s).length :=
        h.rest _ (h.mem_lvl hsm) (h.ne_of_mem (a := (lo, s)) (by simp))
  have hshort := h.short
  have hplace := h.place
  rw [List.append_assoc, List.singleton_append] at hplace
  obtain ⟨t₁, t₂, h₁, h₂, hrep⟩ := h.mergeNeighbours_spec hplace (Or.inr rfl) (by omega) (by omega)
  have hsib : Vec.get Fault.child (t.nd p).childIndices C₁.length = .ok s := by
    rw [h.children, List.append_assoc, List.singleton_append]
    exact Vec.get_map_append_cons _ _ _ _
  refine ⟨t₂, ?_, hrep⟩
  simp only [mergeLeaf, node_eq hpt, Machine.ok_bind, Nat.succ_pos, if_true, Nat.add_sub_cancel,
    hsib, h₁]
  exact h₂

/-- A first child whose right neighbour has nothing to spare takes that neighbour in. -/
theorem mergeLeaf_right (h : Underfull t r d p x PA plo PB [] lox ((lo, q) :: C₂))
    (hspare : ¬ t.minLeafKeys < (t.entriesOf q).length) :
    ∃ t', t.mergeLeaf x p 0 = .ok t' ∧ Repaired t r d t' := by
  have hqm : (lo, q) ∈ [] ++ (lox, x) :: (lo, q) :: C₂ := by simp
  have hpt := h.shape.spine.above_lt h.above
  have hfill : t.minLeafKeys ≤ (t.entriesOf q).length :=
        h.rest _ (h.mem_lvl hqm) (h.ne_of_mem (a := (lo, q)) (by simp))
  have hshort := h.short
  obtain ⟨t₁, t₂, h₁, h₂, hrep⟩ := h.mergeNeighbours_spec h.place (Or.inl rfl) (by omega) (by omega)
  have hsib : Vec.get Fault.child (t.nd p).childIndices (0 + 1) = .ok q := by
    rw [h.children]
    rfl
  refine ⟨t₂, ?_, hrep⟩
  simp only [mergeLeaf, node_eq hpt, Machine.ok_bind, lt_irrefl, if_false, hsib, h₁]
  exact h₂

/-- An only child has no neighbour: the merge reads past the end of the parent's child list. -/
theorem mergeLeaf_alone (h : Underfull t r d p x PA plo PB [] lox []) :
    t.mergeLeaf x p 0 = .error .child := by
  have hpt := h.shape.spine.above_lt h.above
  have hsib : Vec.get Fault.child (t.nd p).childIndices (0 + 1) = .error .child := by
    rw [h.children]
    exact Vec.get_of_length_le (by simp)
  simp only [mergeLeaf, node_eq hpt, Machine.ok_bind, lt_irrefl, if_false, hsib, Machine.error_bind]

end Underfull

/-- An internal node is left as it is, whatever its size. -/
theorem handleUnderflow_internal (h : Spine t r (d + 1)) (hL : lvl t r d = PA ++ (plo, p) :: PB)
    (hroot : (t.nd p).isRoot = false) (fuel : ℕ) : handleUnderflow (fuel + 1) t p = .ok t := by
  have hpm : (plo, p) ∈ lvl t r d := by simp [hL]
  have htype := (h.internal p (above_of_mem hpm)).type
  have hpt := h.above_lt (above_of_mem hpm)
  obtain ⟨e, rfl⟩ : ∃ e, d = e + 1 := by
    cases d with
    | zero =>
      rw [lvl_zero, List.mem_singleton] at hpm
      obtain ⟨-, rfl⟩ := Prod.mk.inj hpm
      rw [h.root] at hroot
      exact absurd hroot (by simp)
    | succ e => exact ⟨e, rfl⟩
  obtain ⟨QA, qlo, q, QB, D₁, D₂, hQ, hx, -, -, hq, hlink, -⟩ := h.pred.exists_parent hL
  have hqt : q < t.nodes.length := h.pred.pred.lt_of_mem (by rw [hQ]; simp)
  have hkids : (t.nd q).childIndices = (D₁ ++ (plo, p) :: D₂).map Prod.snd := by
    rw [← hx]
    exact (expand_snd (a := (qlo, q)) hq.children).symm
  have hread : ∀ i, i < (t.nd q).childIndices.length → ∃ c, c < t.nodes.length ∧
      Vec.get Fault.child (t.nd q).childIndices i = .ok c := by
    intro i hi
    have hmem : (t.nd q).childIndices[i] ∈ t.cs q := List.getElem_mem hi
    have hqm : (qlo, q) ∈ lvl t r e := by simp [hQ]
    exact ⟨_, h.pred.child_lt (above_of_mem hqm) hmem,
      Vec.get_of_getElem? (List.getElem?_eq_getElem hi)⟩
  -- Each step of the source asks for a leaf and does nothing for an internal node.
  have hleft : ∀ pos, pos ≤ (t.nd q).childIndices.length → t.borrowLeft p q pos = .ok none := by
    intro pos hpos
    simp only [borrowLeft, node_eq hpt, node_eq hqt, Machine.ok_bind]
    split_ifs with hlt
    · obtain ⟨c, hc, hget⟩ := hread (pos - 1) (by omega)
      simp only [hget, Machine.ok_bind, node_eq hc, htype, reduceCtorEq, false_and, if_false]
      rfl
    · rfl
  have hright : ∀ pos, t.borrowRight p q pos = .ok none := by
    intro pos
    simp only [borrowRight, node_eq hpt, node_eq hqt, Machine.ok_bind]
    split_ifs with hlt
    · obtain ⟨c, hc, hget⟩ := hread (pos + 1) (by omega)
      simp only [hget, Machine.ok_bind, node_eq hc, htype, reduceCtorEq, false_and, if_false]
      rfl
    · rfl
  rw [handleUnderflow]
  simp only [node_eq hpt, Machine.ok_bind, hroot, hlink, index, node_eq hqt]
  have hmem : p ∈ (t.nd q).childIndices := by rw [hkids]; simp
  obtain ⟨pos, hpos⟩ := Option.isSome_iff_exists.mp (List.isSome_idxOf?.mpr hmem)
  have hposlt : pos < (t.nd q).childIndices.length := (List.idxOf?_eq_some_iff.mp hpos).1
  simp only [hpos, hleft pos hposlt.le, hright pos, Machine.ok_bind, htype]
  rfl

namespace Underfull

/-- The rest of `handleUnderflow` after a merge: the parent is looked at, and left as it is. -/
theorem parent_after (h : Underfull t r d p x PA plo PB D₁ lox D₂) (hrep : Repaired t r d t')
    (fuel : ℕ) : (do
      let parent ← t'.node p
      if !parent.isRoot && parent.size < t'.minInternalKeys then handleUnderflow (fuel + 1) t' p
      else pure t') = .ok t' := by
  have hL := hrep.parents.trans h.parent
  have hpm : (plo, p) ∈ lvl t' r d := by simp [hL]
  rw [node_eq (hrep.shape.spine.above_lt (above_of_mem hpm)), Machine.ok_bind]
  split_ifs with hcond
  · rw [Bool.and_eq_true, Bool.not_eq_true'] at hcond
    exact handleUnderflow_internal hrep.shape.spine hL hcond.1 fuel
  · rfl

/-- `handleUnderflow` on a leaf with a neighbour repairs the tree; on an only child it reads past
the end of the parent's child list. -/
theorem handleUnderflow_spec (h : Underfull t r d p x PA plo PB D₁ lox D₂) (fuel : ℕ) :
    (D₁ = [] ∧ D₂ = [] → handleUnderflow (fuel + 2) t x = .error .child) ∧
    (¬ (D₁ = [] ∧ D₂ = []) →
      ∃ t', handleUnderflow (fuel + 2) t x = .ok t' ∧ Repaired t r d t') := by
  have hxm : (lox, x) ∈ D₁ ++ (lox, x) :: D₂ := by simp
  have hxt := h.lt hxm
  have hpt := h.shape.spine.above_lt h.above
  obtain ⟨hlink, hroot⟩ := h.shape.spine.parent p h.above x (by rw [cs, h.children]; simp)
  have hleafx := h.leaf hxm
  rw [handleUnderflow]
  simp only [node_eq hxt, Machine.ok_bind, hroot, hlink, index, node_eq hpt, h.idxOf?_eq]
  -- Whichever neighbour it is merged with, the rest of the call looks at the parent.
  have hmerge : ∀ {t'}, t.mergeLeaf x p D₁.length = .ok t' → Repaired t r d t' →
      ∃ t'', (do
        let t₁ ← t.mergeLeaf x p D₁.length
        let parent ← t₁.node p
        if !parent.isRoot && parent.size < t₁.minInternalKeys then handleUnderflow (fuel + 1) t₁ p
        else pure t₁) = .ok t'' ∧ Repaired t r d t'' := by
    intro t' hm hrep
    exact ⟨t', by rw [hm]; exact h.parent_after hrep fuel, hrep⟩
  rcases List.eq_nil_or_concat D₁ with rfl | ⟨C₁, ⟨lo, s⟩, rfl⟩
  · -- No left neighbour: the right one lends, or the two are merged, or there is none either.
    rw [List.length_nil, h.borrowLeft_none]
    simp only [Machine.ok_bind]
    cases D₂ with
    | nil =>
      have hnone := h.borrowRight_none
      rw [List.length_nil] at hnone
      rw [hnone]
      simp [hleafx.type, h.mergeLeaf_alone]
    | cons b C₂ =>
      obtain ⟨lo, q⟩ := b
      obtain ⟨hspare, hnone⟩ := h.borrowRight_spec
      rw [List.length_nil] at hspare hnone
      refine ⟨fun hnil => absurd hnil.2 (by simp), fun _ => ?_⟩
      by_cases hs : t.minLeafKeys < (t.entriesOf q).length
      · obtain ⟨t', ht', hrep⟩ := hspare hs
        exact ⟨t', by rw [ht']; rfl, hrep⟩
      · obtain ⟨t', ht', hrep⟩ := h.mergeLeaf_right hs
        rw [hnone hs]
        simp only [Machine.ok_bind, hleafx.type]
        exact hmerge ht' hrep
  · -- The left neighbour lends, or the right one does, or the leaf is merged into the left one.
    rw [List.concat_eq_append] at h hmerge ⊢
    refine ⟨fun hnil => absurd hnil.1 (by simp), fun _ => ?_⟩
    obtain ⟨hspare, hnone⟩ := h.borrowLeft_spec
    rw [List.length_append, List.length_singleton] at hmerge ⊢
    by_cases hs : t.minLeafKeys < (t.entriesOf s).length
    · obtain ⟨t', ht', hrep⟩ := hspare hs
      exact ⟨t', by rw [ht']; rfl, hrep⟩
    rw [hnone hs]
    simp only [Machine.ok_bind]
    have hlast := h.mergeLeaf_left hs
    cases D₂ with
    | nil =>
      have hright := h.borrowRight_none
      rw [List.length_append, List.length_singleton] at hright
      obtain ⟨t', ht', hrep⟩ := hlast
      rw [hright]
      simp only [Machine.ok_bind, hleafx.type]
      exact hmerge ht' hrep
    | cons b C₂ =>
      obtain ⟨lo', q⟩ := b
      obtain ⟨hspareq, hnoneq⟩ := h.borrowRight_spec
      rw [List.length_append, List.length_singleton] at hspareq hnoneq
      by_cases hq : t.minLeafKeys < (t.entriesOf q).length
      · obtain ⟨t', ht', hrep⟩ := hspareq hq
        exact ⟨t', by rw [ht']; rfl, hrep⟩
      · obtain ⟨t', ht', hrep⟩ := hlast
        rw [hnoneq hq]
        simp only [Machine.ok_bind, hleafx.type]
        exact hmerge ht' hrep

end Underfull

end MiniDB.BPlusTree
