import Mathlib

/-!
# Ascending entries cut into blocks

The entries of an ordered container, cut into consecutive blocks; each block carries a lower bound
for its keys, which lies above every key of the blocks before it. A search picks the block by the
bounds, and the updates of the container are updates of one block or of two neighbours: an entry
added or removed, a block cut in two, two blocks joined, entries moved between neighbours.

The blocks of a container are often chained: each names the next. `Linked next L e` says that the
links `next` run through `L` and then to `e`.

## Main definitions

* `Blocks L`: the blocks `L` are ascending and respect their bounds
* `Linked next L e`: the links run through `L` and end in `e`

## Main results

* `Blocks.flatten`: the entries of all blocks ascend
* `Blocks.before`, `Blocks.after`: the block a search picks separates the entries
* `Blocks.insert`, `Blocks.shrink`, `Blocks.split`, `Blocks.merge`, `Blocks.shift`: the updates
* `linked_append`, `Linked.insert`, `Linked.remove`: chains, and a block put in or taken out
-/

namespace BlockList

variable {K V : Type} [LinearOrder K]

/-- Blocks of entries, each with a lower bound for its keys that lies above the keys of all blocks
before it. -/
structure Blocks (L : List (WithBot K × List (K × V))) : Prop where
  apart : L.Pairwise fun a b => a.1 < b.1 ∧ ∀ e ∈ a.2, (e.1 : WithBot K) < b.1
  lower : ∀ a ∈ L, ∀ e ∈ a.2, a.1 ≤ e.1
  sorted : ∀ a ∈ L, (a.2.map Prod.fst).Pairwise (· < ·)

variable {A B : List (WithBot K × List (K × V))} {E F E₁ E₂ F₁ F₂ : List (K × V)}
  {lo lo' : WithBot K} {k : K} {v : V}

/-- The blocks around one of them, and that block. -/
theorem blocks_middle : Blocks (A ++ (lo, E) :: B) ↔ Blocks (A ++ B) ∧
    (E.map Prod.fst).Pairwise (· < ·) ∧ (∀ e ∈ E, lo ≤ e.1) ∧
    (∀ a ∈ A, a.1 < lo ∧ ∀ e ∈ a.2, (e.1 : WithBot K) < lo) ∧
    ∀ b ∈ B, lo < b.1 ∧ ∀ e ∈ E, (e.1 : WithBot K) < b.1 := by
  constructor
  · rintro ⟨ha, hl, hs⟩
    rw [List.pairwise_append, List.pairwise_cons] at ha
    have hsub : ∀ a ∈ A ++ B, a ∈ A ++ (lo, E) :: B := by
      intro a h
      simp only [List.mem_append, List.mem_cons] at h ⊢
      tauto
    refine ⟨⟨List.pairwise_append.mpr ⟨ha.1, ha.2.1.2, fun a h b h' =>
      ha.2.2 a h b (List.mem_cons_of_mem _ h')⟩, fun a h => hl a (hsub a h),
      fun a h => hs a (hsub a h)⟩, hs (lo, E) (by simp), hl (lo, E) (by simp), ?_, ha.2.1.1⟩
    exact fun a h => ha.2.2 a h (lo, E) List.mem_cons_self
  · rintro ⟨⟨ha, hl, hs⟩, hsE, hlE, hA, hB⟩
    rw [List.pairwise_append] at ha
    have hmem : ∀ a, a ∈ A ++ (lo, E) :: B → a = (lo, E) ∨ a ∈ A ++ B := by
      intro a h
      simp only [List.mem_append, List.mem_cons] at h ⊢
      tauto
    refine ⟨?_, fun a h => ?_, fun a h => ?_⟩
    · rw [List.pairwise_append, List.pairwise_cons]
      refine ⟨ha.1, ⟨hB, ha.2.1⟩, fun a h b h' => ?_⟩
      rcases List.mem_cons.mp h' with rfl | h'
      · exact hA a h
      · exact ha.2.2 a h b h'
    · rcases hmem a h with rfl | h
      · exact hlE
      · exact hl a h
    · rcases hmem a h with rfl | h
      · exact hsE
      · exact hs a h

namespace Blocks

/-- The entries of all blocks ascend. -/
theorem flatten {L : List (WithBot K × List (K × V))} (h : Blocks L) :
    ((L.flatMap Prod.snd).map Prod.fst).Pairwise (· < ·) := by
  induction L with
  | nil => simp
  | cons a L ih =>
    obtain ⟨ha, hl, hs⟩ := h
    rw [List.pairwise_cons] at ha
    have hL : Blocks L := ⟨ha.2, fun b hb => hl b (List.mem_cons_of_mem _ hb),
      fun b hb => hs b (List.mem_cons_of_mem _ hb)⟩
    rw [List.flatMap_cons, List.map_append, List.pairwise_append]
    refine ⟨hs a List.mem_cons_self, ih hL, fun x hx y hy => ?_⟩
    obtain ⟨e, he, rfl⟩ := List.mem_map.mp hx
    obtain ⟨f, hf, rfl⟩ := List.mem_map.mp hy
    obtain ⟨b, hb, hfb⟩ := List.mem_flatMap.mp hf
    have h₁ : (e.1 : WithBot K) < b.1 := (ha.1 b hb).2 e he
    have h₂ : b.1 ≤ f.1 := hl b (List.mem_cons_of_mem _ hb) f hfb
    exact WithBot.coe_lt_coe.mp (h₁.trans_le h₂)

/-- The entries before the block a search for `k` picks lie below `k`. -/
theorem before (h : Blocks (A ++ (lo, E) :: B)) (hlo : lo ≤ k) :
    ∀ e ∈ A.flatMap Prod.snd, e.1 < k := by
  intro e he
  obtain ⟨a, ha, hea⟩ := List.mem_flatMap.mp he
  exact WithBot.coe_lt_coe.mp ((((blocks_middle.mp h).2.2.2.1 a ha).2 e hea).trans_le hlo)

/-- The entries after the block a search for `k` picks lie above `k`. -/
theorem after (h : Blocks (A ++ (lo, E) :: B)) (hB : ∀ b ∈ B, (k : WithBot K) < b.1) :
    ∀ e ∈ B.flatMap Prod.snd, k < e.1 := by
  intro e he
  obtain ⟨b, hb, heb⟩ := List.mem_flatMap.mp he
  have hle : b.1 ≤ e.1 := h.lower b (by simp [hb]) e heb
  exact WithBot.coe_lt_coe.mp ((hB b hb).trans_le hle)

/-- An entry at its place in the block a search for its key picks. -/
theorem insert (h : Blocks (A ++ (lo, E₁ ++ E₂) :: B)) (hlo : lo ≤ k)
    (hB : ∀ b ∈ B, (k : WithBot K) < b.1) (h₁ : ∀ e ∈ E₁, e.1 < k) (h₂ : ∀ e ∈ E₂, k < e.1) :
    Blocks (A ++ (lo, E₁ ++ (k, v) :: E₂) :: B) := by
  obtain ⟨hAB, hs, hl, hA, hB'⟩ := blocks_middle.mp h
  rw [List.map_append, List.pairwise_append] at hs
  refine blocks_middle.mpr ⟨hAB, ?_, fun e he => ?_, hA, fun b hb => ⟨(hB' b hb).1, fun e he => ?_⟩⟩
  · rw [List.map_append, List.map_cons, List.pairwise_append, List.pairwise_cons]
    refine ⟨hs.1, ⟨?_, hs.2.1⟩, fun x hx y hy => ?_⟩
    · intro x hx
      obtain ⟨e, he, rfl⟩ := List.mem_map.mp hx
      exact h₂ e he
    · rcases List.mem_cons.mp hy with rfl | hy
      · obtain ⟨e, he, rfl⟩ := List.mem_map.mp hx
        exact h₁ e he
      · exact hs.2.2 x hx y hy
  · simp only [List.mem_append, List.mem_cons] at he
    rcases he with he | rfl | he
    · exact hl e (List.mem_append_left _ he)
    · exact hlo
    · exact hl e (List.mem_append_right _ he)
  · simp only [List.mem_append, List.mem_cons] at he
    rcases he with he | rfl | he
    · exact (hB' b hb).2 e (List.mem_append_left _ he)
    · exact hB b hb
    · exact (hB' b hb).2 e (List.mem_append_right _ he)

/-- Entries removed from a block. -/
theorem shrink (h : Blocks (A ++ (lo, E) :: B)) (hsub : F.Sublist E) :
    Blocks (A ++ (lo, F) :: B) := by
  obtain ⟨hAB, hs, hl, hA, hB⟩ := blocks_middle.mp h
  exact blocks_middle.mpr ⟨hAB, hs.sublist (hsub.map _), fun e he => hl e (hsub.subset he), hA,
    fun b hb => ⟨(hB b hb).1, fun e he => (hB b hb).2 e (hsub.subset he)⟩⟩

/-- A block cut in two, the second part bounded by its own first key. -/
theorem split (h : Blocks (A ++ (lo, E ++ (k, v) :: F) :: B)) (hE : E ≠ []) :
    Blocks (A ++ (lo, E) :: (↑k, (k, v) :: F) :: B) := by
  obtain ⟨hAB, hs, hl, hA, hB⟩ := blocks_middle.mp h
  rw [List.map_append, List.map_cons, List.pairwise_append] at hs
  have hEk : ∀ e ∈ E, e.1 < k := fun e he =>
    hs.2.2 e.1 (List.mem_map_of_mem he) k List.mem_cons_self
  obtain ⟨e₀, he₀⟩ := List.exists_mem_of_ne_nil E hE
  have hlok : lo < k :=
    (hl e₀ (List.mem_append_left _ he₀)).trans_lt (WithBot.coe_lt_coe.mpr (hEk e₀ he₀))
  have hk := List.pairwise_cons.mp hs.2.1
  rw [List.append_cons]
  refine blocks_middle.mpr ⟨?_, hs.2.1, ?_, ?_, fun b hb => ⟨?_, ?_⟩⟩
  · rw [List.append_assoc]
    exact h.shrink (List.sublist_append_left _ _)
  · intro e he
    rcases List.mem_cons.mp he with rfl | he
    · exact le_rfl
    · exact (WithBot.coe_lt_coe.mpr (hk.1 e.1 (List.mem_map_of_mem he))).le
  · intro a ha
    rcases List.mem_append.mp ha with ha | ha
    · exact ⟨(hA a ha).1.trans hlok, fun e he => ((hA a ha).2 e he).trans hlok⟩
    · rw [List.mem_singleton] at ha
      subst ha
      exact ⟨hlok, fun e he => WithBot.coe_lt_coe.mpr (hEk e he)⟩
  · exact (hB b hb).2 (k, v) (by simp)
  · exact fun e he => (hB b hb).2 e (List.mem_append_right _ he)

/-- Two neighbouring blocks joined. -/
theorem merge (h : Blocks (A ++ (lo, E) :: (lo', F) :: B)) : Blocks (A ++ (lo, E ++ F) :: B) := by
  rw [List.append_cons] at h
  obtain ⟨hAEB, hsF, hlF, hAE, hBF⟩ := blocks_middle.mp h
  rw [List.append_assoc, List.singleton_append] at hAEB
  obtain ⟨hAB, hsE, hlE, hA, hBE⟩ := blocks_middle.mp hAEB
  have hE := hAE (lo, E) (by simp)
  refine blocks_middle.mpr ⟨hAB, ?_, fun e he => ?_, hA, fun b hb => ⟨(hBE b hb).1, fun e he => ?_⟩⟩
  · rw [List.map_append, List.pairwise_append]
    refine ⟨hsE, hsF, fun x hx y hy => ?_⟩
    obtain ⟨e, he, rfl⟩ := List.mem_map.mp hx
    obtain ⟨f, hf, rfl⟩ := List.mem_map.mp hy
    exact WithBot.coe_lt_coe.mp ((hE.2 e he).trans_le (hlF f hf))
  · rcases List.mem_append.mp he with he | he
    · exact hlE e he
    · exact hE.1.le.trans (hlF e he)
  · rcases List.mem_append.mp he with he | he
    · exact (hBE b hb).2 e he
    · exact (hBF b hb).2 e he

/-- Entries moved between neighbouring blocks. -/
theorem shift (h : Blocks (A ++ (lo, E₁) :: (lo', E₂) :: B)) (hF : E₁ ++ E₂ = F₁ ++ (k, v) :: F₂)
    (hne : F₁ ≠ []) : Blocks (A ++ (lo, F₁) :: (↑k, (k, v) :: F₂) :: B) := by
  have hm := h.merge
  rw [hF] at hm
  exact hm.split hne

end Blocks

/-! ## Chains -/

section Linked

variable {ι : Type}

/-- The links `next` run through the list and then to `e`. -/
def Linked (next : ι → Option ι) : List ι → Option ι → Prop
  | [], _ => True
  | i :: L, e => next i = (L.head?).or e ∧ Linked next L e

variable {next next' : ι → Option ι} {L M : List ι} {i q : ι} {e : Option ι}

theorem linked_append : Linked next (L ++ M) e ↔ Linked next L (M.head?.or e) ∧ Linked next M e := by
  induction L with
  | nil => simp [Linked]
  | cons i L ih =>
    have hhead : ((L ++ M).head?).or e = L.head?.or (M.head?.or e) := by
      cases L <;> simp
    simp only [List.cons_append, Linked, ih, hhead, and_assoc]

theorem Linked.congr (h : Linked next L e) (hn : ∀ i ∈ L, next' i = next i) : Linked next' L e := by
  induction L with
  | nil => trivial
  | cons i L ih =>
    exact ⟨(hn i List.mem_cons_self).trans h.1, ih h.2 fun j hj => hn j (List.mem_cons_of_mem _ hj)⟩

/-- A new element right after `i`. -/
theorem Linked.insert (h : Linked next (L ++ i :: M) e) (hL : ∀ j ∈ L, next' j = next j)
    (hM : ∀ j ∈ M, next' j = next j) (hi : next' i = some q) (hq : next' q = next i) :
    Linked next' (L ++ i :: q :: M) e := by
  rw [linked_append] at h ⊢
  obtain ⟨h₁, h₂, h₃⟩ := h
  exact ⟨h₁.congr hL, hi, hq.trans h₂, h₃.congr hM⟩

/-- The element right after `i` taken out. -/
theorem Linked.remove (h : Linked next (L ++ i :: q :: M) e) (hL : ∀ j ∈ L, next' j = next j)
    (hM : ∀ j ∈ M, next' j = next j) (hi : next' i = next q) : Linked next' (L ++ i :: M) e := by
  rw [linked_append] at h ⊢
  obtain ⟨h₁, -, h₂, h₃⟩ := h
  exact ⟨h₁.congr hL, hi.trans h₂, h₃.congr hM⟩

end Linked

end BlockList
