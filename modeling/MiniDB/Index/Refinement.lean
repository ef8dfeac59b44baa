import MiniDB.Index.Removal

/-!
# The tree as a finite map

The public calls of the tree against a finite map from keys to record identifiers. Every call that
does not read a child list out of range does to the tree what the map's operation does to the map,
so every run from the empty tree refines the run on the empty map. A run reads a child list out of
range exactly when it comes to a removal that leaves an only child short.

## Main definitions

* `mapCall`: the calls on the abstract map

## Main results

* `call_refines`: every call refines the map's operation
* `calls_refine_map`: whole runs, and the answers of the queries after them
* `calls_return_iff`: the runs whose accesses are all in range
-/

namespace MiniDB.BPlusTree

open SortedMap

/-- The calls on the abstract map: `insert` adds an absent key, `remove` deletes a present one. -/
def mapCall (m : Finmap fun _ : ℤ => RID) : Call → (Finmap fun _ : ℤ => RID) × Bool
  | .insert key value => if m.lookup key = none then (m.insert key value, true) else (m, false)
  | .remove key => if m.lookup key = none then (m, false) else (m.erase key, true)

variable {t : BPlusTree} {m : Finmap fun _ : ℤ => RID}

theorem models_new {order : ℕ} (h : 3 ≤ order) : Models (new order) ∅ :=
  ⟨⟨h, rfl, by show (order - 1 + 1) / 2 = order / 2; congr 1; omega, rfl⟩, Or.inl ⟨rfl, rfl, rfl⟩⟩

namespace Models

/-- `insert` is the map's insertion. -/
theorem insert_spec (h : Models t m) (key : ℤ) (value : RID) :
    ∃ t', t.insert key value = .ok (t', (mapCall m (.insert key value)).2) ∧
      Models t' (mapCall m (.insert key value)).1 ∧ t'.order = t.order := by
  obtain ⟨hb, ⟨hroot, hcount, rfl⟩ | ⟨r, H, hwf, hrep⟩⟩ := h
  · obtain ⟨t', r, hins, hwf, hent, horder⟩ := plant_spec hb hroot hcount key value
    refine ⟨t', hins, ⟨hwf.bounds, Or.inr ⟨r, 0, hwf, ?_⟩⟩, horder⟩
    rw [hent]
    have hone : Represents ([] ++ [(key, value)]) (Finmap.insert key value ∅) :=
      Represents.insert (by simpa using represents_nil) (by simp) (by simp)
    simpa [mapCall] using hone
  · obtain ⟨habsent, hpresent⟩ := hwf.insert_spec hrep key value
    by_cases hk : m.lookup key = none
    · obtain ⟨t', r', H', hins, hwf', hrep', horder⟩ := habsent hk
      rw [mapCall, if_pos hk]
      exact ⟨t', hins, ⟨hwf'.bounds, Or.inr ⟨r', H', hwf', hrep'⟩⟩, horder⟩
    · rw [mapCall, if_neg hk]
      exact ⟨t, hpresent hk, ⟨hb, Or.inr ⟨r, H, hwf, hrep⟩⟩, rfl⟩

/-- `remove` is the map's deletion, or it reads a child list out of range: exactly when it leaves an
only child short. -/
theorem remove_spec (h : Models t m) (key : ℤ) :
    (t.soleChildUnderflow key = true → t.remove key = .error .child) ∧
    (t.soleChildUnderflow key = false → ∃ t', t.remove key = .ok (t', (mapCall m (.remove key)).2) ∧
      Models t' (mapCall m (.remove key)).1 ∧ t'.order = t.order) := by
  obtain ⟨hb, ⟨hroot, hcount, rfl⟩ | ⟨r, H, hwf, hrep⟩⟩ := h
  · have hfind : t.findLeaf key = .ok none := by rw [findLeaf, hroot]; rfl
    have hsole : t.soleChildUnderflow key = false := by rw [soleChildUnderflow, hfind]
    refine ⟨fun hs => absurd hs (by simp [hsole]),
      fun _ => ⟨t, ?_, ⟨hb, Or.inl ⟨hroot, hcount, rfl⟩⟩, rfl⟩⟩
    rw [remove, hfind]
    rfl
  · obtain ⟨habsent, hsole, hpresent⟩ := hwf.remove_spec hrep key
    by_cases hk : m.lookup key = none
    · obtain ⟨hrem, hns⟩ := habsent hk
      rw [mapCall, if_pos hk]
      exact ⟨fun hs => absurd hs (by simp [hns]),
        fun _ => ⟨t, hrem, ⟨hb, Or.inr ⟨r, H, hwf, hrep⟩⟩, rfl⟩⟩
    · rw [mapCall, if_neg hk]
      exact ⟨hsole hk, fun hs => hpresent hk (by simp [hs])⟩

theorem search_spec (h : Models t m) (key : ℤ) : t.search key = .ok (m.lookup key) := by
  obtain ⟨hb, ⟨hroot, hcount, rfl⟩ | ⟨r, H, hwf, hrep⟩⟩ := h
  · simp [search, findLeaf, hroot]
  · exact hwf.toShape.search_spec hrep key

theorem rangeScan_spec (h : Models t m) (lowKey highKey : ℤ) (results : List RID) :
    t.rangeScan lowKey highKey results = .ok (results ++ SortedMap.range m lowKey highKey) := by
  obtain ⟨hb, ⟨hroot, hcount, rfl⟩ | ⟨r, H, hwf, hrep⟩⟩ := h
  · have hnil : SortedMap.range (∅ : Finmap fun _ : ℤ => RID) lowKey highKey = [] :=
      (represents_nil.range lowKey highKey).symm
    simp [rangeScan, findLeaf, hroot, hnil]
  · exact hwf.toShape.rangeScan_spec hrep lowKey highKey results

theorem getSize_spec (h : Models t m) : t.getSize = m.keys.card := by
  obtain ⟨hb, ⟨hroot, hcount, rfl⟩ | ⟨r, H, hwf, hrep⟩⟩ := h
  · rw [getSize, hcount, represents_nil.card]
    rfl
  · rw [getSize, hwf.count, hrep.card]

end Models

/-- Every call refines the map's operation, unless it reads a child list out of range. -/
theorem call_refines :
    Machine.Refines (fun _ _ => True) call mapCall Models (· = ·) (· = Fault.child) := by
  intro t m c h _
  cases c with
  | insert key value =>
    obtain ⟨t', ht', hm', -⟩ := h.insert_spec key value
    exact Or.inr ⟨t', _, ht', hm', rfl⟩
  | remove key =>
    obtain ⟨hfault, hok⟩ := h.remove_spec key
    cases hs : t.soleChildUnderflow key with
    | true => exact Or.inl ⟨.child, rfl, hfault hs⟩
    | false =>
      obtain ⟨t', ht', hm', -⟩ := hok hs
      exact Or.inr ⟨t', _, ht', hm', rfl⟩

/-- Every run of calls from the empty tree that reads no child list out of range returns, with the
values the map's operations return, and after it every query answers as the map does. -/
theorem calls_refine_map {order : ℕ} (horder : 3 ≤ order) (cs : List Call)
    (hchild : calls (new order) cs ≠ .error .child) :
    ∃ t, calls (new order) cs = .ok (t, (Machine.specRun mapCall ∅ cs).2) ∧
      (∀ key, t.search key = .ok ((Machine.specRun mapCall ∅ cs).1.lookup key)) ∧
      (∀ lowKey highKey results, t.rangeScan lowKey highKey results =
        .ok (results ++ SortedMap.range (Machine.specRun mapCall ∅ cs).1 lowKey highKey)) ∧
      t.getSize = (Machine.specRun mapCall ∅ cs).1.keys.card := by
  rcases Machine.run_refines call_refines cs (new order) ∅ (models_new horder)
    (Machine.along_true _ _ _) with ⟨e, rfl, he⟩ | ⟨t, outs, hrun, hm, houts⟩
  · exact absurd he hchild
  · rw [List.forall₂_eq_eq_eq] at houts
    exact ⟨t, by rw [calls, hrun, houts], hm.search_spec, hm.rangeScan_spec, hm.getSize_spec⟩

/-- Seven keys inserted in ascending order, which splits leaves and the root, a refused insertion,
and two removals, the second of which merges two leaves. -/
theorem calls_refine_map_order_three :
    ∃ t, calls (new 3) [.insert 1 ⟨0, 0⟩, .insert 2 ⟨0, 1⟩, .insert 3 ⟨0, 2⟩, .insert 4 ⟨0, 3⟩,
        .insert 5 ⟨0, 4⟩, .insert 6 ⟨0, 5⟩, .insert 7 ⟨0, 6⟩, .insert 4 ⟨1, 0⟩, .remove 7,
        .remove 6] = .ok (t, [true, true, true, true, true, true, true, false, true, true]) ∧
      t.search 4 = .ok (some ⟨0, 3⟩) ∧ t.search 6 = .ok none ∧ t.getSize = 5 := by
  obtain ⟨t, hrun, hsearch, -, hsize⟩ := calls_refine_map (le_refl 3)
    [.insert 1 ⟨0, 0⟩, .insert 2 ⟨0, 1⟩, .insert 3 ⟨0, 2⟩, .insert 4 ⟨0, 3⟩, .insert 5 ⟨0, 4⟩,
      .insert 6 ⟨0, 5⟩, .insert 7 ⟨0, 6⟩, .insert 4 ⟨1, 0⟩, .remove 7, .remove 6]
    (by decide +kernel)
  exact ⟨t, hrun, hsearch 4, hsearch 6, hsize⟩

/-- A run of calls from the empty tree goes through, every access in range, exactly when no removal
it comes to leaves an only child short. -/
theorem calls_return_iff {order : ℕ} (horder : 3 ≤ order) (cs : List Call) :
    (∃ r, calls (new order) cs = .ok r) ↔
      ∀ cs₁ key cs₂, cs = cs₁ ++ Call.remove key :: cs₂ → ∀ t outs,
        calls (new order) cs₁ = .ok (t, outs) → t.soleChildUnderflow key = false := by
  -- Every tree a run comes to represents a map, so the specs of the calls apply to it.
  have hmodels : ∀ cs₁ t outs, calls (new order) cs₁ = .ok (t, outs) → ∃ m, Models t m := by
    intro cs₁ t outs hrun
    rcases Machine.run_refines call_refines cs₁ (new order) ∅ (models_new horder)
      (Machine.along_true _ _ _) with ⟨e, -, he⟩ | ⟨t', outs', hrun', hm, -⟩
    · rw [calls, he] at hrun
      exact absurd hrun (by simp)
    · rw [calls, hrun'] at hrun
      obtain ⟨rfl, -⟩ := Prod.mk.inj (Except.ok.inj hrun)
      exact ⟨_, hm⟩
  rw [calls, Machine.run_ok_iff]
  constructor
  · intro h cs₁ key cs₂ heq t outs hrun
    obtain ⟨m, hm⟩ := hmodels cs₁ t outs hrun
    obtain ⟨r, hr⟩ := h cs₁ _ cs₂ heq t outs hrun
    cases hs : t.soleChildUnderflow key with
    | false => rfl
    | true =>
      have hfault : call t (.remove key) = .error .child := (hm.remove_spec key).1 hs
      rw [hfault] at hr
      exact absurd hr (by simp)
  · intro h cs₁ c cs₂ heq t outs hrun
    obtain ⟨m, hm⟩ := hmodels cs₁ t outs hrun
    cases c with
    | insert key value =>
      obtain ⟨t', ht', -⟩ := hm.insert_spec key value
      exact ⟨_, ht'⟩
    | remove key =>
      obtain ⟨t', ht', -⟩ := (hm.remove_spec key).2 (h cs₁ key cs₂ heq t outs hrun)
      exact ⟨_, ht'⟩

/-- A run that goes through. Its first removal leaves a leaf without keys, which takes one from the
leaf before it, and its second merges two leaves: neither leaves an only child short. -/
theorem calls_return_iff_order_three : ∃ t outs,
    calls (new 3) [.insert 1 ⟨0, 0⟩, .insert 2 ⟨0, 1⟩, .insert 3 ⟨0, 2⟩, .insert 4 ⟨0, 3⟩,
      .insert 5 ⟨0, 4⟩, .insert 6 ⟨0, 5⟩, .insert 7 ⟨0, 6⟩, .remove 7] = .ok (t, outs) ∧
      t.soleChildUnderflow 6 = false := by
  let before : List Call := [.insert 1 ⟨0, 0⟩, .insert 2 ⟨0, 1⟩, .insert 3 ⟨0, 2⟩, .insert 4 ⟨0, 3⟩,
    .insert 5 ⟨0, 4⟩, .insert 6 ⟨0, 5⟩, .insert 7 ⟨0, 6⟩, .remove 7]
  obtain ⟨⟨t, outs⟩, hbefore, -⟩ : ∃ r, calls (new 3) before = .ok r ∧ r.2.length = 8 :=
    Machine.map_eq_ok.mp (by decide +kernel)
  obtain ⟨r, hrun, -⟩ : ∃ r, calls (new 3) (before ++ [.remove 6]) = .ok r ∧ r.2.length = 9 :=
    Machine.map_eq_ok.mp (by decide +kernel)
  exact ⟨t, outs, hbefore,
    (calls_return_iff (le_refl 3) _).mp ⟨r, hrun⟩ before 6 [] rfl t outs hbefore⟩

/-- Seven keys inserted in ascending order and the last three removed again: the second removal
merges two leaves and leaves their parent with one child, and the third finds no neighbour to merge
that child with. -/
theorem calls_child_out_of_range :
    calls (new 3) [.insert 1 ⟨0, 0⟩, .insert 2 ⟨0, 1⟩, .insert 3 ⟨0, 2⟩, .insert 4 ⟨0, 3⟩,
      .insert 5 ⟨0, 4⟩, .insert 6 ⟨0, 5⟩, .insert 7 ⟨0, 6⟩, .remove 7, .remove 6, .remove 5] =
      .error .child := by
  decide +kernel

end MiniDB.BPlusTree
