import Mathlib

/-!
# Search trees read level by level

A search tree of uniform depth, stored as cells that name their children. Every cell `i` carries
its separators `ks i` and its children `cs i`; `expand` reads a cell together with its lower bound
as the list of its children, each with the lower bound its separator gives it. The cells at depth
`d` below a root, with their lower bounds, are then one list, `level r d`, and every question about
the tree becomes a question about lists: the leaves are the last level, a path is a choice of one
position per level, and replacing a child by two is a splice.

## Main definitions

* `expand ks cs a`: the children of a cell, with their lower bounds
* `level ks cs r d`: the cells at depth `d` below `r`, with their lower bounds, left to right
* `Ascending L`: the lower bounds of a level ascend strictly

## Main results

* `exists_split_of_flatMap`: a position in a level is a position in the level above and a
  position among the children there
* `level_congr`: a level depends only on the cells above it
* `length_level_le`, `le_length_level`: how many cells a level has
* `Ascending.level_of_succ`: a level ascends when the one below it does
* `zip_insert`, `expand_set`, `expand_erase`: a child put in, its bound changed, a child taken out
* `expand_split`: a cell cut in two
-/

namespace Levels

variable {K ι : Type}

/-- Splitting a `flatMap` at one of its elements. -/
theorem exists_split_of_flatMap {α β : Type} {f : α → List β} :
    ∀ {L : List α} {A B : List β} {x : β}, L.flatMap f = A ++ x :: B →
      ∃ PA a PB C₁ C₂, L = PA ++ a :: PB ∧ f a = C₁ ++ x :: C₂ ∧
        A = PA.flatMap f ++ C₁ ∧ B = C₂ ++ PB.flatMap f := by
  intro L
  induction L with
  | nil => intro A B x h; simp at h
  | cons a L ih =>
    intro A B x h
    rw [List.flatMap_cons] at h
    rcases List.append_eq_append_iff.mp h with ⟨M, rfl, hM⟩ | ⟨M, hM, hB⟩
    · obtain ⟨PA, b, PB, C₁, C₂, rfl, hb, hA, rfl⟩ := ih hM
      exact ⟨a :: PA, b, PB, C₁, C₂, rfl, hb, by simp [hA], rfl⟩
    · cases M with
      | nil =>
        have hB' : L.flatMap f = [] ++ x :: B := hB.symm
        obtain ⟨PA, b, PB, C₁, C₂, rfl, hb, hA, rfl⟩ := ih hB'
        refine ⟨a :: PA, b, PB, C₁, C₂, rfl, hb, ?_, rfl⟩
        rw [List.flatMap_cons, List.append_assoc, ← hA, hM, List.append_nil, List.append_nil]
      | cons y M =>
        obtain ⟨rfl, rfl⟩ : x = y ∧ B = M ++ L.flatMap f := by simpa using hB
        exact ⟨[], a, L, A, M, rfl, hM, rfl, rfl⟩

theorem zip_fst_snd {α β : Type} (L : List (α × β)) :
    (L.map Prod.fst).zip (L.map Prod.snd) = L :=
  (List.zip_of_prod rfl rfl).symm

section Expand

variable (ks : ι → List K) (cs : ι → List ι)

/-- The children of a cell, each with its lower bound: the cell's own for the first child, the
separator before it for every other one. -/
def expand (a : WithBot K × ι) : List (WithBot K × ι) :=
  (a.1 :: (ks a.2).map WithBot.some).zip (cs a.2)

/-- The cells at depth `d` below `r`, with their lower bounds, from left to right. -/
def level (r : ι) : ℕ → List (WithBot K × ι)
  | 0 => [(⊥, r)]
  | d + 1 => (level r d).flatMap (expand ks cs)

@[simp] theorem level_zero (r : ι) : level ks cs r 0 = [(⊥, r)] := rfl

theorem level_succ (r : ι) (d : ℕ) :
    level ks cs r (d + 1) = (level ks cs r d).flatMap (expand ks cs) := rfl

/-- A level depends only on the cells above it. -/
theorem level_congr {ks' : ι → List K} {cs' : ι → List ι} {r : ι} :
    ∀ {d : ℕ}, (∀ e < d, ∀ a ∈ level ks cs r e, ks' a.2 = ks a.2 ∧ cs' a.2 = cs a.2) →
      level ks' cs' r d = level ks cs r d
  | 0, _ => rfl
  | d + 1, h => by
    rw [level_succ, level_succ, level_congr (d := d) fun e he => h e (he.trans (Nat.lt_succ_self d))]
    refine List.flatMap_congr fun a ha => ?_
    obtain ⟨hk, hc⟩ := h d (Nat.lt_succ_self d) a ha
    rw [expand, expand, hk, hc]

/-- A root with a single child and no separator passes its level on unchanged. -/
theorem level_succ_of_single {r c : ι} (hc : cs r = [c]) :
    ∀ d, level ks cs r (d + 1) = level ks cs c d
  | 0 => by simp [level, expand, hc]
  | d + 1 => by rw [level_succ, level_succ_of_single hc d, level_succ]

/-- A root over two cells. -/
theorem level_one_of_pair {r x y : ι} {k : K} (hk : ks r = [k]) (hc : cs r = [x, y]) :
    level ks cs r 1 = [(⊥, x), (↑k, y)] := by
  simp [level, expand, hk, hc]

variable {ks cs}

/-- A cell with one more child than it has separators. -/
theorem expand_fst {a : WithBot K × ι} (h : (cs a.2).length = (ks a.2).length + 1) :
    (expand ks cs a).map Prod.fst = a.1 :: (ks a.2).map WithBot.some := by
  simp [expand, List.map_fst_zip, h]

theorem expand_snd {a : WithBot K × ι} (h : (cs a.2).length = (ks a.2).length + 1) :
    (expand ks cs a).map Prod.snd = cs a.2 := by
  simp [expand, List.map_snd_zip, h]

theorem expand_ne_nil {a : WithBot K × ι} (h : (cs a.2).length = (ks a.2).length + 1) :
    expand ks cs a ≠ [] := by
  intro hn
  have := expand_fst h
  simp [hn] at this

/-- The cells of the levels have at most `b` children each. -/
theorem length_level_le {r : ι} {b : ℕ} : ∀ {d : ℕ},
    (∀ e < d, ∀ a ∈ level ks cs r e, (expand ks cs a).length ≤ b) →
    (level ks cs r d).length ≤ b ^ d
  | 0, _ => by rw [level_zero, List.length_singleton, Nat.pow_zero]
  | d + 1, h => by
    have hd := length_level_le fun e he => h e (Nat.lt_succ_of_lt he)
    rw [level_succ, List.length_flatMap, Nat.pow_succ]
    refine (List.sum_le_card_nsmul _ b (List.forall_mem_map.mpr ?_)).trans ?_
    · exact h d (Nat.lt_succ_self d)
    · rw [List.length_map, smul_eq_mul]
      exact Nat.mul_le_mul_right b hd

/-- The root has a child, and the cells of the levels beneath have at least `c` children each. -/
theorem le_length_level {r : ι} {c : ℕ} : ∀ {d : ℕ}, expand ks cs (⊥, r) ≠ [] →
    (∀ e < d, ∀ a ∈ level ks cs r (e + 1), c ≤ (expand ks cs a).length) →
    c ^ d ≤ (level ks cs r (d + 1)).length
  | 0, hroot, _ => by
    rw [level_succ, level_zero, List.flatMap_singleton, Nat.pow_zero]
    exact List.length_pos_iff.mpr hroot
  | d + 1, hroot, h => by
    have hd := le_length_level hroot fun e he => h e (Nat.lt_succ_of_lt he)
    rw [level_succ ks cs r (d + 1), List.length_flatMap, Nat.pow_succ]
    refine le_trans ?_ (List.card_nsmul_le_sum _ c (List.forall_mem_map.mpr ?_))
    · rw [List.length_map, smul_eq_mul]
      exact Nat.mul_le_mul_right c hd
    · exact h d (Nat.lt_succ_self d)

/-- A child's position in a cell: the separators before it and after it, and its own bound. -/
theorem expand_split_at {a : WithBot K × ι} {C₁ C₂ : List (WithBot K × ι)} {lo : WithBot K} {c : ι}
    (h : (cs a.2).length = (ks a.2).length + 1) (hx : expand ks cs a = C₁ ++ (lo, c) :: C₂) :
    cs a.2 = C₁.map Prod.snd ++ c :: C₂.map Prod.snd ∧
      a.1 :: (ks a.2).map WithBot.some = C₁.map Prod.fst ++ lo :: C₂.map Prod.fst := by
  constructor
  · rw [← expand_snd h, hx]; simp
  · rw [← expand_fst h, hx]; simp

/-- The separators around a child's position, as the two halves of the cell's separators. -/
theorem expand_halves {a : WithBot K × ι} {C₁ C₂ : List (WithBot K × ι)} {lo : WithBot K} {c : ι}
    (h : (cs a.2).length = (ks a.2).length + 1) (hx : expand ks cs a = C₁ ++ (lo, c) :: C₂) :
    a.1 :: ((ks a.2).take C₁.length).map WithBot.some = C₁.map Prod.fst ++ [lo] ∧
      ((ks a.2).drop C₁.length).map WithBot.some = C₂.map Prod.fst ∧
      C₁.length ≤ (ks a.2).length := by
  have hs := (expand_split_at h hx).2
  have hlen : C₁.length + C₂.length = (ks a.2).length := by
    have := congrArg List.length hs
    simp only [List.length_cons, List.length_map, List.length_append] at this
    omega
  refine ⟨?_, ?_, by omega⟩
  · have := congrArg (List.take (C₁.length + 1)) hs
    rw [List.take_succ_cons, List.append_cons, List.take_left' (by simp)] at this
    simpa [List.map_take] using this
  · have := congrArg (List.drop (C₁.length + 1)) hs
    rw [List.drop_succ_cons, List.append_cons, List.drop_left' (by simp)] at this
    simpa [List.map_drop] using this

/-- A new child, with its separator, right after a given child. -/
theorem zip_insert {a : WithBot K × ι} {C₁ C₂ : List (WithBot K × ι)} {lo : WithBot K} {c : ι}
    (h : (cs a.2).length = (ks a.2).length + 1) (hx : expand ks cs a = C₁ ++ (lo, c) :: C₂)
    (k : K) (r : ι) :
    (a.1 :: ((ks a.2).take C₁.length ++ k :: (ks a.2).drop C₁.length).map WithBot.some).zip
        (C₁.map Prod.snd ++ c :: r :: C₂.map Prod.snd) =
      C₁ ++ (lo, c) :: (↑k, r) :: C₂ := by
  obtain ⟨h₁, h₂, -⟩ := expand_halves h hx
  rw [List.map_append, List.map_cons, ← List.cons_append, h₁, h₂, List.append_assoc,
    List.singleton_append, List.zip_append (by simp)]
  simp [zip_fst_snd]

/-- The separator between two neighbouring children replaced. -/
theorem expand_set {a : WithBot K × ι} {C₁ C₂ : List (WithBot K × ι)} {lo lo' : WithBot K} {c r : ι}
    {ks' : ι → List K} {cs' : ι → List ι} (h : (cs a.2).length = (ks a.2).length + 1)
    (hx : expand ks cs a = C₁ ++ (lo, c) :: (lo', r) :: C₂) (k : K)
    (hk : ks' a.2 = (ks a.2).set C₁.length k) (hc : cs' a.2 = cs a.2) :
    expand ks' cs' a = C₁ ++ (lo, c) :: (↑k, r) :: C₂ := by
  obtain ⟨hcs, hks⟩ := expand_split_at h hx
  have hset : a.1 :: (ks' a.2).map WithBot.some =
      (C₁.map Prod.fst ++ lo :: lo' :: C₂.map Prod.fst).set (C₁.length + 1) (k : WithBot K) := by
    rw [hk, List.map_set, ← List.set_cons_succ, hks]
    simp
  rw [expand, hset, hc, hcs, List.set_append_right _ _ (by simp)]
  simp only [List.length_map, List.map_cons, Nat.add_sub_cancel_left, List.set_cons_succ,
    List.set_cons_zero]
  rw [List.zip_append (by simp)]
  simp [zip_fst_snd]

/-- The second of two neighbouring children taken out, with the separator before it. -/
theorem expand_erase {a : WithBot K × ι} {C₁ C₂ : List (WithBot K × ι)} {lo lo' : WithBot K}
    {c r : ι} {ks' : ι → List K} {cs' : ι → List ι} (h : (cs a.2).length = (ks a.2).length + 1)
    (hx : expand ks cs a = C₁ ++ (lo, c) :: (lo', r) :: C₂)
    (hk : ks' a.2 = (ks a.2).eraseIdx C₁.length) (hc : cs' a.2 = (cs a.2).eraseIdx (C₁.length + 1)) :
    expand ks' cs' a = C₁ ++ (lo, c) :: C₂ := by
  obtain ⟨hcs, hks⟩ := expand_split_at h hx
  have herase : a.1 :: (ks' a.2).map WithBot.some =
      (C₁.map Prod.fst ++ lo :: lo' :: C₂.map Prod.fst).eraseIdx (C₁.length + 1) := by
    rw [hk, ← List.eraseIdx_map, ← List.eraseIdx_cons_succ, hks]
    simp
  rw [expand, herase, hc, hcs, List.eraseIdx_append_of_length_le (by simp),
    List.eraseIdx_append_of_length_le (by simp)]
  simp only [List.length_map, List.map_cons, Nat.add_sub_cancel_left, List.eraseIdx_cons_succ,
    List.eraseIdx_cons_zero]
  rw [List.zip_append (by simp)]
  simp [zip_fst_snd]

/-- A cell cut in two at its separator `k`: the left part keeps the cell's bound, the right part
is bounded by `k`. -/
theorem expand_split {lo : WithBot K} {p q : ι} {ks' : ι → List K} {cs' : ι → List ι}
    {K₁ K₂ : List K} {k : K} {c₁ c₂ : List ι} (hlen : c₁.length = K₁.length + 1)
    (hkp : ks' p = K₁) (hcp : cs' p = c₁) (hkq : ks' q = K₂) (hcq : cs' q = c₂) :
    expand ks' cs' (lo, p) ++ expand ks' cs' (↑k, q) =
      (lo :: (K₁ ++ k :: K₂).map WithBot.some).zip (c₁ ++ c₂) := by
  rw [expand, expand, hkp, hcp, hkq, hcq, List.map_append, List.map_cons, ← List.cons_append,
    List.zip_append (by simp [hlen])]

end Expand

section Order

variable [LinearOrder K] {ks : ι → List K} {cs : ι → List ι}

/-- The lower bounds of a level ascend strictly. -/
def Ascending (L : List (WithBot K × ι)) : Prop :=
  L.Pairwise fun a b => a.1 < b.1

theorem ascending_iff_map {L : List (WithBot K × ι)} :
    Ascending L ↔ (L.map Prod.fst).Pairwise (· < ·) := by
  rw [Ascending, List.pairwise_map]

omit [LinearOrder K] in
/-- Every level's bounds occur, in order, in the level below it. -/
theorem map_fst_sublist_flatMap {L : List (WithBot K × ι)}
    (h : ∀ a ∈ L, (cs a.2).length = (ks a.2).length + 1) :
    (L.map Prod.fst).Sublist ((L.flatMap (expand ks cs)).map Prod.fst) := by
  induction L with
  | nil => simp
  | cons a L ih =>
    rw [List.flatMap_cons, List.map_append, expand_fst (h a List.mem_cons_self), List.map_cons,
      List.cons_append]
    refine List.Sublist.cons_cons _ ?_
    exact (ih fun b hb => h b (List.mem_cons_of_mem _ hb)).trans (List.sublist_append_right _ _)

/-- A level ascends when the one below it does. -/
theorem Ascending.of_flatMap {L : List (WithBot K × ι)}
    (h : ∀ a ∈ L, (cs a.2).length = (ks a.2).length + 1)
    (hs : Ascending (L.flatMap (expand ks cs))) : Ascending L :=
  ascending_iff_map.mpr ((ascending_iff_map.mp hs).sublist (map_fst_sublist_flatMap h))

theorem Ascending.sublist {L M : List (WithBot K × ι)} (h : Ascending M) (hs : L.Sublist M) :
    Ascending L :=
  List.Pairwise.sublist hs h

/-- The separators of a cell around the place of a new child: those before it lie below its
separator, those after it above. -/
theorem expand_between {a : WithBot K × ι} {C₁ C₂ : List (WithBot K × ι)} {lo : WithBot K} {c r : ι}
    {k : K} (h : (cs a.2).length = (ks a.2).length + 1)
    (hx : expand ks cs a = C₁ ++ (lo, c) :: C₂) (hs : Ascending (C₁ ++ (lo, c) :: (↑k, r) :: C₂)) :
    (∀ x ∈ (ks a.2).take C₁.length, x < k) ∧ ∀ x ∈ (ks a.2).drop C₁.length, k < x := by
  obtain ⟨h₁, h₂, -⟩ := expand_halves h hx
  rw [ascending_iff_map, List.append_cons, List.append_cons, List.map_append,
    List.pairwise_append, List.map_append, List.pairwise_append] at hs
  constructor
  · intro x hx
    have hm : (x : WithBot K) ∈ C₁.map Prod.fst ++ [lo] := by
      rw [← h₁]
      exact List.mem_cons_of_mem _ (List.mem_map_of_mem hx)
    exact WithBot.coe_lt_coe.mp (hs.1.2.2 _ (by simpa using hm) _ (by simp))
  · intro x hx
    have hm : (x : WithBot K) ∈ C₂.map Prod.fst := by
      rw [← h₂]
      exact List.mem_map_of_mem hx
    exact WithBot.coe_lt_coe.mp (hs.2.2 _ (by simp) _ hm)

end Order

end Levels
