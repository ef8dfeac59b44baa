import MiniDB.Index.Occupancy

/-!
# The height of the tree

The cells of a level have between `(order + 1) / 2` and `order` children when the internal nodes are
occupied, and the leaves between `order / 2` and `order - 1` entries. So the depth of the leaves is
logarithmic in the number of entries, and `findLeaf` reads one node of every level.

## Main results

* `WF.entries_le`, `WF.le_entries`: the number of entries of a tree of depth `H`
* `calls_height`: what `findLeaf` reads in every run that starves no node
-/

namespace MiniDB.BPlusTree

open Levels

variable {t : BPlusTree} {r H i : ℕ} {lo : WithBot ℤ}

theorem Internal.length_expand (h : Internal t i) :
    (expand t.ks t.cs (lo, i)).length = (t.nd i).size + 1 := by
  rw [← List.length_map Prod.snd, expand_snd (a := (lo, i)) h.children, h.children, h.size]

namespace WF

/-- A tree of depth `H` has not too many entries. -/
theorem entries_le (h : WF t r H) : t.entryCount ≤ t.order ^ H * (t.order - 1) := by
  have horder := h.bounds.order
  have hlevel : (lvl t r H).length ≤ t.order ^ H := by
    refine length_level_le fun e he a ha => ?_
    have hint := h.spine.internal a.2 ⟨e, he, a, ha, rfl⟩
    have hsize := hint.size_le
    rw [h.bounds.maxInternalKeys] at hsize
    rw [hint.length_expand, hint.size]
    omega
  rw [h.count, entries, blocks, List.flatMap_map, List.length_flatMap]
  refine (List.sum_le_card_nsmul _ (t.order - 1) (List.forall_mem_map.mpr fun a ha => ?_)).trans ?_
  · have hleaf := h.row.leaf a ha
    have hsize := hleaf.size_le
    rwa [← hleaf.size, hleaf.size_eq, h.bounds.maxLeafKeys] at hsize
  · rw [List.length_map, smul_eq_mul]
    exact Nat.mul_le_mul_right _ hlevel

/-- A tree of depth `H` whose internal nodes are occupied has many entries. -/
theorem le_entries (h : WF t r (H + 1)) (hocc : Occupied t) :
    (t.minInternalKeys + 1) ^ H * (t.order / 2) ≤ t.entryCount := by
  have hlevel : (t.minInternalKeys + 1) ^ H ≤ (lvl t r (H + 1)).length := by
    refine le_length_level ?_ fun e he a ha => ?_
    · exact expand_ne_nil (h.spine.internal r ⟨0, by omega, (⊥, r), by simp [lvl], rfl⟩).children
    · have hint := h.spine.internal a.2 ⟨e + 1, by omega, a, ha, rfl⟩
      have hne : a.2 ≠ r := fun hr => h.spine.disjoint (e + 1) (by omega) a ha
        ⟨0, by omega, (⊥, r), by simp [lvl], hr.symm⟩
      have hbelow : Below t r (e + 1) a.2 := h.below_iff.mpr ⟨by omega, a.1, ha⟩
      rw [hint.length_expand]
      exact Nat.succ_le_succ (hocc h.rootIdx hbelow hint.type hne)
  rw [h.count, entries, List.length_flatMap]
  refine le_trans ?_ (List.card_nsmul_le_sum _ (t.order / 2) (List.forall_mem_map.mpr ?_))
  · rw [List.length_map, blocks, List.length_map, smul_eq_mul]
    exact Nat.mul_le_mul_right _ hlevel
  · intro b hb
    have hfill := h.filled b hb
    rwa [fill, if_neg (Nat.succ_ne_zero H), h.bounds.minLeafKeys] at hfill

/-- `findLeaf` reads one node of every level. -/
theorem descent (h : WF t r H) (key : ℤ) : (∃ l, t.findLeaf key = .ok (some l) ∧
    t.findLeafFrom key (H + 1) r = .ok l) ∧ t.findLeafFrom key H r = .error .fuel := by
  have hroot : Located t r 0 key [] ⊥ r [] := ⟨lvl_zero, bot_le, by simp⟩
  refine ⟨?_, findLeafFrom_short h.spine h.ascending (by omega) hroot⟩
  obtain ⟨-, -, l, -, -, hfind⟩ := findLeafFrom_spec h.spine h.ascending h.row.leaf H 0 r [] [] ⊥
    (by omega) hroot
  refine ⟨l, ?_, hfind (H + 1) (Nat.lt_succ_self H)⟩
  rw [findLeaf, h.rootIdx]
  simp [hfind _ h.spine.depth_lt]

end WF

/-! ## Runs -/

/-- The trees of a run that starves no node. -/
theorem wf_of_calls {order : ℕ} (horder : 3 ≤ order) {cs : List Call}
    (hcalls : Machine.Meets (fun t c => ∀ key, c = .remove key → t.starves key = false) call
      (new order) cs) {outs : List Bool} (hrun : calls (new order) cs = .ok (t, outs)) :
    t.order = order ∧ t.minInternalKeys = (order + 1) / 2 - 1 ∧ Occupied t ∧ ∃ map, Models t map := by
  have hsim : Machine.Simulates (fun t c => ∀ key, c = .remove key → t.starves key = false) call
      (fun map c _ map' => map' = (mapCall map c).1)
      (fun t map => Models t map ∧ Sizes ((order + 1) / 2 - 1) (order - 1) t ∧ t.order = order)
      (· = Fault.child) := by
    rintro t map c ⟨hm, hs, ht⟩ hc
    rcases call_keeps_order order t map c ⟨hm, ht⟩ trivial with
      ⟨e, he, hfault⟩ | ⟨t', out, hcall, ⟨hm', ht'⟩, -⟩
    · exact Or.inl ⟨e, he, hfault⟩
    · refine Or.inr ⟨t', out, _, hcall, rfl, hm', ?_, ht'⟩
      cases c with
      | insert key value => exact hs.insert hcall
      | remove key => exact hs.remove hm (hc key rfl) hcall
  have hstart : Sizes ((order + 1) / 2 - 1) (order - 1) (new order) :=
    ⟨rfl, rfl, by omega, fun i hi => by cases hi⟩
  rcases Machine.run_simulates hsim cs (new order) ∅ ⟨models_new horder, hstart, rfl⟩ hcalls with
    ⟨e, -, he⟩ | ⟨t', outs', map, hrun', -, hm, hs, ht⟩
  · rw [calls, he] at hrun
    cases hrun
  · obtain ⟨rfl, -⟩ := Prod.mk.inj (Except.ok.inj (hrun'.symm.trans hrun))
    exact ⟨ht, hs.least, hs.occupied hm, map, hm⟩

/-- In every run from the empty tree in which no removal merges two leaves below a parent that has
no key to lose, `findLeaf` reads the same number of nodes for every key, and that number is
logarithmic in the number of entries. -/
theorem calls_height {order : ℕ} (horder : 3 ≤ order) (cs : List Call)
    (hcalls : Machine.Meets (fun t c => ∀ key, c = .remove key → t.starves key = false) call
      (new order) cs) {outs : List Bool} (hrun : calls (new order) cs = .ok (t, outs)) :
    (t.rootIdx = none ∧ t.entryCount = 0) ∨ ∃ r H, t.rootIdx = some r ∧
      (∀ key, (∃ l, t.findLeaf key = .ok (some l) ∧ t.findLeafFrom key (H + 1) r = .ok l) ∧
        t.findLeafFrom key H r = .error .fuel) ∧
      t.entryCount ≤ order ^ H * (order - 1) ∧
      (0 < H → ((order + 1) / 2) ^ (H - 1) * (order / 2) ≤ t.entryCount) ∧
      H ≤ 1 + Nat.log ((order + 1) / 2) (t.entryCount / (order / 2)) := by
  obtain ⟨ht, hmin, hocc, map, -, ⟨hroot, hcount, -⟩ | ⟨r, H, hwf, -⟩⟩ :=
    wf_of_calls horder hcalls hrun
  · exact Or.inl ⟨hroot, hcount⟩
  · have hmany : 0 < H → ((order + 1) / 2) ^ (H - 1) * (order / 2) ≤ t.entryCount := by
      intro hpos
      obtain ⟨H, rfl⟩ : ∃ h, H = h + 1 := ⟨H - 1, by omega⟩
      have hle := hwf.le_entries hocc
      rwa [hmin, ht, show (order + 1) / 2 - 1 + 1 = (order + 1) / 2 by omega] at hle
    refine Or.inr ⟨r, H, hwf.rootIdx, hwf.descent, ht ▸ hwf.entries_le, hmany, ?_⟩
    rcases Nat.eq_zero_or_pos H with rfl | hpos
    · exact Nat.zero_le _
    · have hlog : H - 1 ≤ Nat.log ((order + 1) / 2) (t.entryCount / (order / 2)) :=
        Nat.le_log_of_pow_le (by omega) ((Nat.le_div_iff_mul_le (by omega)).mpr (hmany hpos))
      omega

/-- Seven keys in order three: `findLeaf` reads two, three or four nodes. -/
theorem calls_height_order_three : ∃ t outs r H,
    calls (new 3) (ascendingInserts 7) = .ok (t, outs) ∧ t.rootIdx = some r ∧
      (∀ key, (∃ l, t.findLeaf key = .ok (some l) ∧ t.findLeafFrom key (H + 1) r = .ok l) ∧
        t.findLeafFrom key H r = .error .fuel) ∧ 1 ≤ H ∧ H ≤ 3 := by
  have hmeets : Machine.Meets (fun t c => ∀ key, c = .remove key → t.starves key = false) call
      (new 3) (ascendingInserts 7) := by
    rintro as₁ c as₂ heq t outs - key rfl
    have hmem : Call.remove key ∈ ascendingInserts 7 := by rw [heq]; simp
    simp [ascendingInserts] at hmem
  have hcount : ((calls (new 3) (ascendingInserts 7)).map fun r => r.1.entryCount).toOption =
      some 7 := by decide +kernel
  cases hrun : calls (new 3) (ascendingInserts 7) with
  | error e =>
    rw [hrun] at hcount
    cases hcount
  | ok r =>
    rw [hrun] at hcount
    have hseven : r.1.entryCount = 7 := Option.some.inj hcount
    rcases calls_height (le_refl 3) _ hmeets hrun with
      ⟨-, hnone⟩ | ⟨root, H, hroot, hread, hmost, -, hlog⟩
    · rw [hseven] at hnone
      cases hnone
    · refine ⟨r.1, r.2, root, H, rfl, hroot, hread, ?_, ?_⟩
      · rw [hseven] at hmost
        by_contra hzero
        obtain rfl : H = 0 := by omega
        simp at hmost
      · rw [hseven] at hlog
        exact hlog.trans (by decide)

end MiniDB.BPlusTree
