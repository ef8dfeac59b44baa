import Mathlib

/-!
# First-fit packing

Items of given sizes arrive one after another and go to bins of one capacity: each to the first bin
with room for it, or to a new bin behind all others. Any two bins then hold more than one capacity
together, since the first item of the later one had no room in the earlier one; so first fit takes
at most twice as many bins as any arrangement of the same items.

## Main definitions

* `FirstFit.bin`, `FirstFit.place`: where an item goes, and the loads of the bins after it
* `FirstFit.pack`, `FirstFit.bins`: the loads after a list of items, and where each item goes

## Main results

* `FirstFit.sum_pack`, `FirstFit.pairwise_pack`: nothing is lost, and two bins overflow one
* `FirstFit.length_pack_le`: first fit takes at most twice as many bins as any arrangement
-/

namespace FirstFit

/-- The first bin with room for an item of size `n`. -/
def bin (c : ℕ) (loads : List ℕ) (n : ℕ) : ℕ := loads.findIdx fun load => load + n ≤ c

/-- An item put in the first bin with room for it, or in a new one. -/
def place (c : ℕ) : List ℕ → ℕ → List ℕ
  | [], n => [n]
  | load :: loads, n => if load + n ≤ c then (load + n) :: loads else load :: place c loads n

/-- Items placed one after another. -/
def pack (c : ℕ) (loads : List ℕ) (items : List ℕ) : List ℕ := items.foldl (place c) loads

/-- The bins that items go to. -/
def bins (c : ℕ) : List ℕ → List ℕ → List ℕ
  | _, [] => []
  | loads, n :: items => bin c loads n :: bins c (place c loads n) items

variable {c n : ℕ} {loads items : List ℕ}

@[simp] theorem pack_nil : pack c loads [] = loads := rfl

@[simp] theorem pack_cons : pack c loads (n :: items) = pack c (place c loads n) items := rfl

/-! ## One item -/

/-- An item in a bin that exists. -/
theorem place_of_lt : ∀ {loads : List ℕ}, bin c loads n < loads.length →
    place c loads n = loads.modify (bin c loads n) (· + n)
  | [], h => absurd h (Nat.not_lt_zero _)
  | load :: loads, h => by
    unfold place bin at *
    rw [List.findIdx_cons] at h ⊢
    by_cases hroom : load + n ≤ c
    · simp [hroom]
    · simp only [hroom, decide_false, cond_false, if_neg, not_false_eq_true, List.length_cons,
        Nat.add_lt_add_iff_right, List.modify_succ_cons] at h ⊢
      exact congrArg _ (place_of_lt h)

/-- An item in a new bin. -/
theorem place_of_ge : ∀ {loads : List ℕ}, loads.length ≤ bin c loads n →
    place c loads n = loads ++ [n]
  | [], _ => rfl
  | load :: loads, h => by
    unfold place bin at *
    rw [List.findIdx_cons] at h
    by_cases hroom : load + n ≤ c
    · simp [hroom] at h
    · simp only [hroom, decide_false, cond_false, List.length_cons, Nat.add_le_add_iff_right,
        if_neg, not_false_eq_true, List.cons_append] at h ⊢
      exact congrArg _ (place_of_ge h)

@[simp] theorem sum_place : ∀ loads : List ℕ, (place c loads n).sum = loads.sum + n
  | [] => by simp [place]
  | load :: loads => by
    rw [place]
    split
    case isTrue => simp only [List.sum_cons]; omega
    case isFalse => simp only [List.sum_cons, sum_place loads]; omega

/-- No bin is overfull after an item that a bin can hold. -/
theorem place_le (hn : n ≤ c) : ∀ {loads : List ℕ}, (∀ load ∈ loads, load ≤ c) →
    ∀ load ∈ place c loads n, load ≤ c
  | [], _, load, hload => by rwa [List.mem_singleton.mp hload]
  | load :: loads, h, x, hx => by
    rw [place] at hx
    split at hx
    case isTrue hroom =>
      rcases List.mem_cons.mp hx with rfl | hx
      · exact hroom
      · exact h x (List.mem_cons_of_mem _ hx)
    case isFalse =>
      rcases List.mem_cons.mp hx with rfl | hx
      · exact h x List.mem_cons_self
      · exact place_le hn (fun y hy => h y (List.mem_cons_of_mem _ hy)) x hx

/-- A load after an item is that of the item, or at least one from before. -/
theorem mem_place : ∀ {loads : List ℕ} {x : ℕ}, x ∈ place c loads n →
    x = n ∨ ∃ load ∈ loads, load ≤ x
  | [], x, hx => Or.inl (List.mem_singleton.mp hx)
  | load :: loads, x, hx => by
    rw [place] at hx
    split at hx
    case isTrue =>
      rcases List.mem_cons.mp hx with rfl | hx
      · exact Or.inr ⟨load, List.mem_cons_self, Nat.le_add_right ..⟩
      · exact Or.inr ⟨x, List.mem_cons_of_mem _ hx, Nat.le_refl x⟩
    case isFalse =>
      rcases List.mem_cons.mp hx with rfl | hx
      · exact Or.inr ⟨x, List.mem_cons_self, Nat.le_refl x⟩
      · rcases mem_place hx with rfl | ⟨y, hy, hle⟩
        · exact Or.inl rfl
        · exact Or.inr ⟨y, List.mem_cons_of_mem _ hy, hle⟩

/-! ## Two bins overflow one -/

/-- Any two bins hold more than one capacity together. -/
def Tight (c : ℕ) (loads : List ℕ) : Prop := loads.Pairwise fun a b => c < a + b

theorem tight_singleton (load : ℕ) : Tight c [load] := List.pairwise_singleton ..

theorem Tight.place : ∀ {loads : List ℕ}, Tight c loads → Tight c (place c loads n)
  | [], _ => tight_singleton n
  | load :: loads, h => by
    obtain ⟨hhead, htail⟩ := List.pairwise_cons.mp h
    rw [FirstFit.place]
    split
    case isTrue =>
      refine List.pairwise_cons.mpr ⟨fun x hx => ?_, htail⟩
      have hx' := hhead x hx
      omega
    case isFalse hroom =>
      refine List.pairwise_cons.mpr ⟨fun x hx => ?_, Tight.place htail⟩
      rcases mem_place hx with rfl | ⟨y, hy, hle⟩
      · omega
      · have hy' := hhead y hy
        omega

theorem Tight.pack (items : List ℕ) (h : Tight c loads) : Tight c (pack c loads items) := by
  induction items generalizing loads with
  | nil => exact h
  | cons n items ih => exact ih h.place

theorem sum_pack : ∀ items loads : List ℕ, (pack c loads items).sum = loads.sum + items.sum
  | [], loads => by simp
  | n :: items, loads => by
    rw [pack_cons, sum_pack items, sum_place, List.sum_cons]
    omega

/-- The loads of the bins behind one of them. -/
theorem Tight.length_tail_mul_le {load : ℕ} : ∀ {loads : List ℕ}, (∀ x ∈ loads, c < load + x) →
    loads.length * (c + 1) ≤ loads.length * load + loads.sum
  | [], _ => by simp
  | x :: loads, h => by
    have hx : c < load + x := h x List.mem_cons_self
    have ih := length_tail_mul_le fun y hy => h y (List.mem_cons_of_mem x hy)
    rw [List.length_cons, List.sum_cons, Nat.succ_mul, Nat.succ_mul]
    omega

/-- Every pair of bins, counted together. -/
theorem Tight.pairs_mul_le : ∀ {loads : List ℕ}, Tight c loads →
    loads.length * ((loads.length - 1) * (c + 1)) ≤ 2 * ((loads.length - 1) * loads.sum)
  | [], _ => by simp
  | load :: loads, h => by
    obtain ⟨hhead, htail⟩ := List.pairwise_cons.mp h
    have hone := length_tail_mul_le hhead
    have ih := pairs_mul_le htail
    rw [List.length_cons, Nat.add_sub_cancel, List.sum_cons]
    cases hlen : loads.length with
    | zero => simp
    | succ k =>
      rw [hlen] at hone ih
      rw [Nat.add_sub_cancel] at ih
      nlinarith

/-- Two or more bins are on average more than half full. -/
theorem Tight.length_mul_le (h : Tight c loads) (hlen : 2 ≤ loads.length) :
    loads.length * (c + 1) ≤ 2 * loads.sum := by
  have hpairs := h.pairs_mul_le
  have hpos : 0 < loads.length - 1 := by omega
  refine Nat.le_of_mul_le_mul_left ?_ hpos
  calc (loads.length - 1) * (loads.length * (c + 1))
      = loads.length * ((loads.length - 1) * (c + 1)) := by ring
    _ ≤ 2 * ((loads.length - 1) * loads.sum) := hpairs
    _ = (loads.length - 1) * (2 * loads.sum) := by ring

/-- An arrangement of the items has room for all of them. -/
theorem sum_le_of_arrangement {arrangement : List (List ℕ)}
    (hperm : arrangement.flatten.Perm items) (hroom : ∀ b ∈ arrangement, b.sum ≤ c) :
    items.sum ≤ arrangement.length * c := by
  have hlen : (arrangement.map List.sum).length = arrangement.length := List.length_map ..
  rw [← hperm.sum_eq, List.sum_flatten, ← hlen]
  refine List.sum_le_card_nsmul _ c ?_
  intro x hx
  obtain ⟨b, hb, rfl⟩ := List.mem_map.mp hx
  exact hroom b hb

/-- First fit, with an empty bin to begin with, takes at most twice as many bins as any arrangement
of the items. -/
theorem length_pack_le {arrangement : List (List ℕ)} (hperm : arrangement.flatten.Perm items)
    (hroom : ∀ b ∈ arrangement, b.sum ≤ c) :
    (pack c [0] items).length ≤ max 1 (2 * arrangement.length) := by
  by_contra hmany
  have htight : Tight c (pack c [0] items) := (tight_singleton 0).pack items
  have hlen := htight.length_mul_le (by omega)
  have hsum := sum_le_of_arrangement hperm hroom
  rw [sum_pack, List.sum_singleton, Nat.zero_add] at hlen
  -- More bins than that would hold more than the arrangement has room for.
  have hle : 2 * arrangement.length * (c + 1) < 2 * (arrangement.length * c) := by
    calc 2 * arrangement.length * (c + 1)
        < (pack c [0] items).length * (c + 1) :=
          Nat.mul_lt_mul_of_pos_right (by omega) (Nat.succ_pos c)
      _ ≤ 2 * items.sum := hlen
      _ ≤ 2 * (arrangement.length * c) := Nat.mul_le_mul_left 2 hsum
  nlinarith

end FirstFit
