import Mathlib

/-!
# Ascending entry lists as finite maps

An ordered container holds its entries in one list that ascends by key. `Represents L m` says that
the list `L` holds exactly the bindings of the finite map `m`; the lemmas say what a lookup, an
insertion at the key's place, a removal and a range query on the list mean for the map.

## Main definitions

* `Represents L m`: the ascending list `L` holds the bindings of `m`
* `range m lo hi`: the values of the keys in `[lo, hi]`, ascending by key

## Main results

* `Represents.lookup_eq_none`, `Represents.insert`, `Represents.erase`: point operations
* `Represents.card`, `Represents.range`: the number of keys, and the range query
* `exists_place`: where a new key belongs
-/

namespace SortedMap

variable {K V : Type} [LinearOrder K]

/-- The list `L` ascends by key and holds exactly the bindings of `m`. -/
def Represents (L : List (K × V)) (m : Finmap fun _ : K => V) : Prop :=
  (L.map Prod.fst).Pairwise (· < ·) ∧ ∀ k v, (k, v) ∈ L ↔ m.lookup k = some v

/-- The values of the keys in `[lo, hi]`, ascending by key. -/
def range (m : Finmap fun _ : K => V) (lo hi : K) : List V :=
  ((m.keys.filter fun k => lo ≤ k ∧ k ≤ hi).sort fun a b => a ≤ b).filterMap fun k => m.lookup k

variable {L A B : List (K × V)} {m : Finmap fun _ : K => V} {k : K} {v : V}

theorem represents_nil : Represents ([] : List (K × V)) ∅ :=
  ⟨List.Pairwise.nil, fun k v => by simp⟩

namespace Represents

theorem nodup (h : Represents L m) : (L.map Prod.fst).Nodup :=
  h.1.imp fun h => ne_of_lt h

theorem eq_empty (h : Represents [] m) : m = ∅ := by
  refine Finmap.ext_lookup fun k => ?_
  rw [Finmap.lookup_empty, Option.eq_none_iff_forall_not_mem]
  intro v hv
  exact absurd ((h.2 k v).mpr hv) (by simp)

theorem mem_keys (h : Represents L m) : k ∈ m.keys ↔ k ∈ L.map Prod.fst := by
  rw [Finmap.mem_keys, Finmap.mem_iff, List.mem_map]
  constructor
  · rintro ⟨v, hv⟩
    exact ⟨(k, v), (h.2 k v).mpr hv, rfl⟩
  · rintro ⟨⟨k', v⟩, hm, rfl⟩
    exact ⟨v, (h.2 k' v).mp hm⟩

theorem lookup_eq_none (h : Represents L m) : m.lookup k = none ↔ k ∉ L.map Prod.fst := by
  rw [← h.mem_keys, Finmap.mem_keys, Finmap.lookup_eq_none]

theorem lookup_eq_some (h : Represents L m) (hm : (k, v) ∈ L) : m.lookup k = some v :=
  (h.2 k v).mp hm

/-- The number of keys. -/
theorem card (h : Represents L m) : m.keys.card = L.length := by
  have hk : m.keys = (L.map Prod.fst).toFinset := by
    ext k
    rw [h.mem_keys, List.mem_toFinset]
  rw [hk, List.toFinset_card_of_nodup h.nodup, List.length_map]

/-- A new entry at its key's place. -/
theorem insert (h : Represents (A ++ B) m) (hA : ∀ a ∈ A, a.1 < k) (hB : ∀ b ∈ B, k < b.1) :
    Represents (A ++ (k, v) :: B) (m.insert k v) := by
  constructor
  · have hs := h.1
    rw [List.map_append, List.pairwise_append] at hs ⊢
    refine ⟨hs.1, ?_, ?_⟩
    · rw [List.map_cons, List.pairwise_cons]
      refine ⟨fun x hx => ?_, hs.2.1⟩
      obtain ⟨b, hb, rfl⟩ := List.mem_map.mp hx
      exact hB b hb
    · intro x hx y hy
      obtain ⟨a, ha, rfl⟩ := List.mem_map.mp hx
      rcases List.mem_cons.mp hy with rfl | hy
      · exact hA a ha
      · exact hs.2.2 _ (List.mem_map_of_mem ha) y hy
  · intro x y
    have hk : ∀ y, (k, y) ∉ A ++ B := by
      intro y hm
      rcases List.mem_append.mp hm with hm | hm
      · exact lt_irrefl k (hA _ hm)
      · exact lt_irrefl k (hB _ hm)
    by_cases hx : x = k
    · subst hx
      rw [Finmap.lookup_insert]
      have := hk y
      simp only [List.mem_append, List.mem_cons, Prod.mk.injEq, true_and, Option.some.injEq,
        not_or] at this ⊢
      constructor
      · rintro (hm | rfl | hm)
        · exact absurd hm this.1
        · rfl
        · exact absurd hm this.2
      · rintro rfl
        exact Or.inr (Or.inl rfl)
    · rw [Finmap.lookup_insert_of_ne _ hx, ← h.2 x y]
      simp [hx]

/-- An entry removed. -/
theorem erase (h : Represents (A ++ (k, v) :: B) m) : Represents (A ++ B) (m.erase k) := by
  have hnd := h.nodup
  constructor
  · refine h.1.sublist (List.Sublist.map _ ?_)
    exact List.Sublist.append_left (List.sublist_cons_self _ _) A
  · intro x y
    by_cases hx : x = k
    · subst hx
      rw [Finmap.lookup_erase]
      simp only [reduceCtorEq, iff_false]
      intro hm
      have hperm : (A ++ (x, v) :: B).Perm ((x, v) :: (A ++ B)) := List.perm_middle
      have hnd' := (hperm.map Prod.fst).nodup_iff.mp hnd
      have hmem : x ∈ (A ++ B).map Prod.fst := List.mem_map_of_mem hm
      exact (List.nodup_cons.mp hnd').1 hmem
    · rw [Finmap.lookup_erase_ne hx, ← h.2 x y]
      simp [hx]

/-- The range query: the values of the entries whose keys lie in `[lo, hi]`, in list order. -/
theorem range (h : Represents L m) (lo hi : K) :
    (L.filter fun e => lo ≤ e.1 ∧ e.1 ≤ hi).map Prod.snd = SortedMap.range m lo hi := by
  set F := L.filter fun e => lo ≤ e.1 ∧ e.1 ≤ hi with hF
  have hsub : (F.map Prod.fst).Sublist (L.map Prod.fst) := List.filter_sublist.map _
  have hkeys : (m.keys.filter fun k => lo ≤ k ∧ k ≤ hi) = (F.map Prod.fst).toFinset := by
    ext k
    rw [Finset.mem_filter, h.mem_keys, List.mem_toFinset, hF]
    simp only [List.mem_map, List.mem_filter, decide_eq_true_eq]
    constructor
    · rintro ⟨⟨e, he, rfl⟩, hk⟩
      exact ⟨e, ⟨he, hk⟩, rfl⟩
    · rintro ⟨e, ⟨he, hk⟩, rfl⟩
      exact ⟨⟨e, he, rfl⟩, hk⟩
  have hsort : (F.map Prod.fst).toFinset.sort (fun a b => a ≤ b) = F.map Prod.fst :=
    (List.toFinset_sort _ (h.nodup.sublist hsub)).mpr ((h.1.sublist hsub).imp fun h => h.le)
  rw [SortedMap.range, hkeys, hsort, List.filterMap_map]
  have hval : ∀ e ∈ F, ((fun k => m.lookup k) ∘ Prod.fst) e = some e.2 := fun e he =>
    h.lookup_eq_some (List.mem_filter.mp he).1
  rw [List.filterMap_congr hval, List.filterMap_eq_map']

end Represents

/-- The place of a new key in an ascending list. -/
theorem exists_place {L : List (K × V)} (hs : (L.map Prod.fst).Pairwise (· < ·))
    (hk : k ∉ L.map Prod.fst) :
    ∃ A B, L = A ++ B ∧ (∀ a ∈ A, a.1 < k) ∧ ∀ b ∈ B, k < b.1 := by
  induction L with
  | nil => exact ⟨[], [], rfl, by simp, by simp⟩
  | cons e L ih =>
    rw [List.map_cons, List.pairwise_cons] at hs
    rw [List.map_cons, List.mem_cons, not_or] at hk
    rcases lt_or_gt_of_ne hk.1 with hlt | hgt
    · refine ⟨[], e :: L, rfl, by simp, fun b hb => ?_⟩
      rcases List.mem_cons.mp hb with rfl | hb
      · exact hlt
      · exact hlt.trans (hs.1 b.1 (List.mem_map_of_mem hb))
    · obtain ⟨A, B, rfl, hA, hB⟩ := ih hs.2 hk.2
      refine ⟨e :: A, B, rfl, fun a ha => ?_, hB⟩
      rcases List.mem_cons.mp ha with rfl | ha
      · exact hgt
      · exact hA a ha

end SortedMap
