import Mathlib

/-!
# Depth-first search for a cycle

The search follows the edges of a graph from a node, keeps the nodes it has visited and those on the
path to where it is, and stops at an edge back to that path. It finds a cycle exactly when there is
one that can be reached: an edge back to the path closes one, and a node the search has left for
good has only such nodes behind it, so no infinite path starts there.

## Main definitions

* `CycleSearch.Edge next`: the edges of the graph with the successor lists `next`
* `CycleSearch.Trail`: the visited nodes and the path
* `CycleSearch.visit`, `CycleSearch.visitAll`: the search from a node and over a list of nodes
* `CycleSearch.found`: the search with fuel for every node that has successors

## Main results

* `CycleSearch.visit_spec`, `CycleSearch.found_iff`: the search ends, and it finds a cycle exactly
  when one can be reached
* `CycleSearch.through_of_acyclic`: a cycle that new edges of one node close goes through that node
* `CycleSearch.exists_sink`: in a finite graph without cycles a set has a node with no edge into it
-/

namespace CycleSearch

open Relation

variable {α : Type}

/-- The edges of the graph with the successor lists `next`. -/
def Edge (next : α → List α) (a b : α) : Prop := b ∈ next a

/-- The nodes a search has visited, and those on the path to where it is. -/
structure Trail (α : Type) where
  visited : List α
  inStack : List α

section Search

variable [DecidableEq α]

/-- The search over the successors of a node: it stops at an edge back to the path and passes over
the nodes it has visited. -/
def visitAll (visit : α → Trail α → Option (Bool × Trail α)) :
    List α → Trail α → Option (Bool × Trail α)
  | [], t => some (false, t)
  | n :: ns, t =>
    if n ∈ t.inStack then some (true, t)
    else if n ∈ t.visited then visitAll visit ns t
    else
      match visit n t with
      | some (false, t) => visitAll visit ns t
      | r => r

/-- The search from a node; `none` when the fuel is used up. -/
def visit (next : α → List α) : ℕ → α → Trail α → Option (Bool × Trail α)
  | 0, _, _ => none
  | fuel + 1, n, t =>
    match visitAll (visit next fuel) (next n) ⟨t.visited.insert n, t.inStack.insert n⟩ with
    | some (false, t) => some (false, { t with inStack := t.inStack.erase n })
    | r => r

/-- The search from a node of a graph in which only the nodes `nodes` have successors. -/
def found (next : α → List α) (nodes : List α) (n : α) : Bool :=
  match visit next (nodes.length + 1) n ⟨[], []⟩ with
  | some (b, _) => b
  | none => false

variable {next : α → List α} {fuel : ℕ} {n : α} {t t' : Trail α}

/-! ## The path -/

/-- A search that finds nothing leaves the path as it was and visits more. -/
structure Leaves (t t' : Trail α) : Prop where
  inStack : t'.inStack = t.inStack
  visited : t.visited ⊆ t'.visited

omit [DecidableEq α] in
theorem Leaves.refl (t : Trail α) : Leaves t t := ⟨rfl, List.Subset.refl _⟩

omit [DecidableEq α] in
theorem Leaves.trans {t t' t'' : Trail α} (h : Leaves t t') (h' : Leaves t' t'') : Leaves t t'' :=
  ⟨h'.inStack.trans h.inStack, fun _ hv => h'.visited (h.visited hv)⟩

theorem visitAll_leaves {go : α → Trail α → Option (Bool × Trail α)}
    (hgo : ∀ {n t t'}, n ∉ t.inStack → go n t = some (false, t') → Leaves t t') :
    ∀ {ns : List α} {t t' : Trail α}, visitAll go ns t = some (false, t') → Leaves t t' := by
  intro ns
  induction ns with
  | nil =>
    intro t t' h
    cases h
    exact .refl t
  | cons n ns ih =>
    intro t t' h
    rw [visitAll] at h
    split at h
    case isTrue => cases h
    case isFalse hn =>
      split at h
      case isTrue => exact ih h
      case isFalse =>
        split at h
        -- A visit that found nothing took off the stack what it had put there.
        case h_1 t₁ hvisit => exact (hgo hn hvisit).trans (ih h)
        case h_2 hother => exact absurd h (hother t')

theorem visit_leaves : ∀ {fuel : ℕ} {n : α} {t t' : Trail α}, n ∉ t.inStack →
    visit next fuel n t = some (false, t') → Leaves t t' := by
  intro fuel
  induction fuel with
  | zero => intro n t t' _ h; cases h
  | succ fuel ih =>
    intro n t t' hn h
    rw [visit] at h
    split at h
    case h_1 t₁ hall =>
      obtain ⟨hstack, hvisited⟩ := visitAll_leaves ih hall
      cases h
      refine ⟨?_, fun v hv => hvisited (List.mem_insert_of_mem hv)⟩
      rw [hstack, List.insert_of_not_mem hn, List.erase_cons_head]
    case h_2 hother => exact absurd h (hother t')

/-! ## What is found is a cycle -/

theorem visitAll_sound {go : α → Trail α → Option (Bool × Trail α)}
    (hleaves : ∀ {n t t'}, n ∉ t.inStack → go n t = some (false, t') → Leaves t t')
    (hgo : ∀ {n t t'}, (∀ s ∈ t.inStack, ReflTransGen (Edge next) s n) →
      go n t = some (true, t') → ∃ c, ReflTransGen (Edge next) n c ∧ TransGen (Edge next) c c) :
    ∀ {ns : List α} {t t' : Trail α}, ns ⊆ next n →
      (∀ s ∈ t.inStack, ReflTransGen (Edge next) s n) → visitAll go ns t = some (true, t') →
      ∃ c, ReflTransGen (Edge next) n c ∧ TransGen (Edge next) c c := by
  intro ns
  induction ns with
  | nil => intro t t' _ _ h; cases h
  | cons m ns ih =>
    intro t t' hns hstack h
    have hedge : Edge next n m := hns List.mem_cons_self
    have htail : ns ⊆ next n := fun _ hx => hns (List.mem_cons_of_mem _ hx)
    rw [visitAll] at h
    split at h
    case isTrue hm =>
      exact ⟨n, .refl, .head' hedge (hstack m hm)⟩
    case isFalse hm =>
      split at h
      case isTrue => exact ih htail hstack h
      case isFalse =>
        split at h
        case h_1 t₁ hvisit =>
          refine ih htail (fun s hs => hstack s ?_) h
          rwa [(hleaves hm hvisit).inStack] at hs
        case h_2 =>
          obtain ⟨c, hc, hcycle⟩ := hgo (fun s hs => (hstack s hs).tail hedge) h
          exact ⟨c, .head hedge hc, hcycle⟩

theorem visit_sound : ∀ {fuel : ℕ} {n : α} {t t' : Trail α},
    (∀ s ∈ t.inStack, ReflTransGen (Edge next) s n) → visit next fuel n t = some (true, t') →
    ∃ c, ReflTransGen (Edge next) n c ∧ TransGen (Edge next) c c := by
  intro fuel
  induction fuel with
  | zero => intro n t t' _ h; cases h
  | succ fuel ih =>
    intro n t t' hstack h
    rw [visit] at h
    split at h
    case h_1 => cases h
    case h_2 =>
      refine visitAll_sound visit_leaves ih (List.Subset.refl _) ?_ h
      intro s hs
      rcases List.mem_insert_iff.mp hs with rfl | hs
      · exact .refl
      · exact hstack s hs

/-! ## What is not found is not there -/

/-- The nodes from which every path ends. -/
def Ends (next : α → List α) (n : α) : Prop := Acc (fun b a => Edge next a b) n

/-- Every visited node is on the path, or every path from it ends. -/
def Explored (next : α → List α) (t : Trail α) : Prop :=
  ∀ v ∈ t.visited, v ∈ t.inStack ∨ Ends next v

theorem visitAll_complete {go : α → Trail α → Option (Bool × Trail α)}
    (hgo : ∀ {n t t'}, n ∉ t.inStack → Explored next t → go n t = some (false, t') →
      Explored next t' ∧ Ends next n) :
    ∀ {ns : List α} {t t' : Trail α}, Explored next t → visitAll go ns t = some (false, t') →
      Explored next t' ∧ ∀ n ∈ ns, Ends next n := by
  intro ns
  induction ns with
  | nil =>
    intro t t' ht h
    cases h
    exact ⟨ht, by simp⟩
  | cons n ns ih =>
    intro t t' ht h
    have hcons : Ends next n → Explored next t' ∧ (∀ m ∈ ns, Ends next m) →
        Explored next t' ∧ ∀ m ∈ n :: ns, Ends next m :=
      fun hn h => ⟨h.1, List.forall_mem_cons.mpr ⟨hn, h.2⟩⟩
    rw [visitAll] at h
    split at h
    case isTrue => cases h
    case isFalse hn =>
      split at h
      -- A node visited before and off the path was left with all paths from it ending.
      case isTrue hvisited => exact hcons ((ht n hvisited).resolve_left hn) (ih ht h)
      case isFalse =>
        split at h
        case h_1 t₁ hvisit =>
          obtain ⟨ht₁, hends⟩ := hgo hn ht hvisit
          exact hcons hends (ih ht₁ h)
        case h_2 hother => exact absurd h (hother t')

theorem visit_complete : ∀ {fuel : ℕ} {n : α} {t t' : Trail α}, n ∉ t.inStack → Explored next t →
    visit next fuel n t = some (false, t') → Explored next t' ∧ Ends next n := by
  intro fuel
  induction fuel with
  | zero => intro n t t' _ _ h; cases h
  | succ fuel ih =>
    intro n t t' hn ht h
    rw [visit, List.insert_of_not_mem hn] at h
    split at h
    case h_1 t₁ hall =>
      have henter : Explored next ⟨t.visited.insert n, n :: t.inStack⟩ := by
        intro v hv
        rcases List.mem_insert_iff.mp hv with rfl | hv
        · exact Or.inl List.mem_cons_self
        · exact (ht v hv).imp_left (List.mem_cons_of_mem n)
      obtain ⟨ht₁, hnext⟩ := visitAll_complete ih henter hall
      have hends : Ends next n := .intro n hnext
      have hstack : t₁.inStack = n :: t.inStack := (visitAll_leaves visit_leaves hall).inStack
      cases h
      refine ⟨fun v hv => ?_, hends⟩
      show v ∈ t₁.inStack.erase n ∨ _
      rw [hstack, List.erase_cons_head]
      rcases ht₁ v hv with hmem | hv
      · rw [hstack] at hmem
        rcases List.mem_cons.mp hmem with rfl | hmem
        · exact Or.inr hends
        · exact Or.inl hmem
      · exact Or.inr hv
    case h_2 hother => exact absurd h (hother t')

omit [DecidableEq α] in
theorem Ends.not_cycle {n : α} (h : Ends next n) : ¬ TransGen (Edge next) n n := by
  induction h with
  | intro n _ ih =>
    intro hcycle
    obtain ⟨m, hedge, hback⟩ := TransGen.head'_iff.mp hcycle
    exact ih m hedge (.tail' hback hedge)

omit [DecidableEq α] in
theorem Ends.of_reachable {c : α} (h : Ends next n) (hc : ReflTransGen (Edge next) n c) :
    Ends next c := by
  induction hc with
  | refl => exact h
  | tail _ hedge ih => exact ih.inv hedge

/-! ## The fuel -/

/-- The nodes with successors that the search has not visited. -/
def unvisited (nodes : List α) (t : Trail α) : ℕ := nodes.countP fun v => v ∉ t.visited

theorem unvisited_le {nodes : List α} (h : t.visited ⊆ t'.visited) :
    unvisited nodes t' ≤ unvisited nodes t :=
  List.countP_mono_left fun v _ hv => by
    rw [decide_eq_true_eq] at hv ⊢
    exact fun hmem => hv (h hmem)

theorem unvisited_enter {nodes : List α} (hn : n ∈ nodes) (hnew : n ∉ t.visited) (stack : List α) :
    unvisited nodes ⟨t.visited.insert n, stack⟩ < unvisited nodes t := by
  unfold unvisited
  induction nodes with
  | nil => cases hn
  | cons m nodes ih =>
    have hle : unvisited nodes ⟨t.visited.insert n, stack⟩ ≤ unvisited nodes t :=
      unvisited_le fun _ => List.mem_insert_of_mem
    simp only [unvisited] at hle
    rw [List.countP_cons, List.countP_cons]
    by_cases hm : m = n
    · subst hm
      simp only [List.mem_insert_self, not_true_eq_false, decide_false, hnew, not_false_eq_true,
        decide_true]
      simp only [Bool.false_eq_true, if_false, if_true]
      omega
    · have hrest := ih ((List.mem_cons.mp hn).resolve_left (Ne.symm hm))
      simp only [List.mem_insert_iff, hm, false_or] at hrest ⊢
      omega

theorem visitAll_isSome {nodes : List α} {k : ℕ} {go : α → Trail α → Option (Bool × Trail α)}
    (hleaves : ∀ {n t t'}, n ∉ t.inStack → go n t = some (false, t') → Leaves t t')
    (hgo : ∀ {n t}, n ∉ t.visited → unvisited nodes t < k → (go n t).isSome) :
    ∀ {ns : List α} {t : Trail α}, unvisited nodes t < k → (visitAll go ns t).isSome := by
  intro ns
  induction ns with
  | nil => intro t _; rfl
  | cons n ns ih =>
    intro t hk
    rw [visitAll]
    split
    case isTrue => rfl
    case isFalse hn =>
      split
      case isTrue => exact ih hk
      case isFalse hnew =>
        split
        case h_1 t₁ hvisit =>
          exact ih (Nat.lt_of_le_of_lt (unvisited_le (hleaves hn hvisit).visited) hk)
        case h_2 => exact hgo hnew hk

theorem visit_isSome {nodes : List α} (hnodes : ∀ n, next n ≠ [] → n ∈ nodes) :
    ∀ {fuel : ℕ} {n : α} {t : Trail α}, n ∉ t.visited → unvisited nodes t < fuel →
      (visit next fuel n t).isSome := by
  intro fuel
  induction fuel with
  | zero => intro n t _ h; exact absurd h (Nat.not_lt_zero _)
  | succ fuel ih =>
    intro n t hnew hfuel
    have hall : (visitAll (visit next fuel) (next n)
        ⟨t.visited.insert n, t.inStack.insert n⟩).isSome := by
      -- A node without successors need not be among `nodes`, and needs no fuel.
      by_cases hnil : next n = []
      · rw [hnil]; rfl
      · have hlt := unvisited_enter (hnodes n hnil) hnew (t.inStack.insert n)
        exact visitAll_isSome visit_leaves ih (by omega)
    rw [visit]
    split
    case h_1 => rfl
    case h_2 => exact hall

/-! ## The search -/

/-- With fuel for all nodes that have successors the search ends, and it has found a cycle exactly
when one can be reached. -/
theorem visit_spec {nodes : List α} (hnodes : ∀ n, next n ≠ [] → n ∈ nodes)
    (hfuel : nodes.length < fuel) (n : α) :
    ∃ b t, visit next fuel n ⟨[], []⟩ = some (b, t) ∧
      (b = true ↔ ∃ c, ReflTransGen (Edge next) n c ∧ TransGen (Edge next) c c) := by
  have hsome : (visit next fuel n ⟨[], []⟩).isSome :=
    visit_isSome hnodes List.not_mem_nil (Nat.lt_of_le_of_lt List.countP_le_length hfuel)
  obtain ⟨⟨b, t⟩, hvisit⟩ := Option.isSome_iff_exists.mp hsome
  refine ⟨b, t, hvisit, ?_⟩
  cases b with
  | true =>
    refine ⟨fun _ => visit_sound (fun s hs => ?_) hvisit, fun _ => rfl⟩
    cases hs
  | false =>
    -- From a node that the search has left no cycle can be reached.
    have hends := (visit_complete List.not_mem_nil (fun v hv => by cases hv) hvisit).2
    refine ⟨nofun, ?_⟩
    rintro ⟨c, hc, hcycle⟩
    exact absurd hcycle (hends.of_reachable hc).not_cycle

/-- The search finds a cycle exactly when one can be reached. -/
theorem found_iff {nodes : List α} (hnodes : ∀ n, next n ≠ [] → n ∈ nodes) :
    found next nodes n = true ↔ ∃ c, ReflTransGen (Edge next) n c ∧ TransGen (Edge next) c c := by
  obtain ⟨b, t, hvisit, hb⟩ := visit_spec hnodes (Nat.lt_succ_self nodes.length) n
  unfold found
  rw [hvisit]
  exact hb

end Search

/-! ## Edges added to one node -/

section NewEdges

variable {R R' : α → α → Prop} {n : α}

/-- A path to `n` does not need the edges out of `n`. -/
theorem reaches_without (hsame : ∀ {a b}, a ≠ n → R' a b → R a b) {a : α}
    (h : ReflTransGen R' a n) : ReflTransGen R a n := by
  induction h using ReflTransGen.head_induction_on with
  | refl => exact .refl
  | @head a b hedge _ ih =>
    by_cases ha : a = n
    · rw [ha]
    · exact .head (hsame ha hedge) ih

/-- In a graph that has no cycle without the edges out of `n`, every cycle goes through `n`: along
one of these edges, and back without them. -/
theorem through_of_acyclic (hacyclic : ∀ c, ¬ TransGen R c c)
    (hsame : ∀ {a b}, a ≠ n → R' a b → R a b) {c : α} (hcycle : TransGen R' c c) :
    ∃ b, R' n b ∧ ReflTransGen R b n := by
  -- A path either avoids the edges out of `n` or comes through `n`.
  have hpath : ∀ {b}, TransGen R' c b →
      TransGen R c b ∨ (ReflTransGen R' c n ∧ TransGen R' n b) := by
    intro b h
    induction h with
    | single hedge =>
      by_cases hc : c = n
      · exact Or.inr ⟨hc ▸ .refl, hc ▸ .single hedge⟩
      · exact Or.inl (.single (hsame hc hedge))
    | @tail b d hcb hedge ih =>
      by_cases hb : b = n
      · subst hb
        exact Or.inr ⟨hcb.to_reflTransGen, .single hedge⟩
      · rcases ih with h | ⟨hcn, hnb⟩
        · exact Or.inl (h.tail (hsame hb hedge))
        · exact Or.inr ⟨hcn, hnb.tail hedge⟩
  rcases hpath hcycle with h | ⟨hcn, hnc⟩
  · exact absurd h (hacyclic c)
  · obtain ⟨b, hedge, hback⟩ := TransGen.head'_iff.mp (hnc.trans_left hcn)
    exact ⟨b, hedge, reaches_without hsame hback⟩

end NewEdges

section Sinks

variable {R : α → α → Prop}

/-- In a finite graph without cycles every set of nodes has one with no edge into the set. -/
theorem exists_sink [Finite α] (hacyclic : ∀ c, ¬ TransGen R c c) {nodes : Set α}
    (hnonempty : nodes.Nonempty) : ∃ a ∈ nodes, ∀ b ∈ nodes, ¬ R a b := by
  let Behind : α → α → Prop := fun b a => TransGen R a b
  have : IsTrans α Behind := ⟨fun _ _ _ hba hcb => hcb.trans hba⟩
  have : Std.Irrefl Behind := ⟨hacyclic⟩
  obtain ⟨a, ha, hmin⟩ := (Finite.wellFounded_of_trans_of_irrefl Behind).has_min nodes hnonempty
  exact ⟨a, ha, fun b hb hedge => hmin b hb (.single hedge)⟩

/-- The edges of a cycle lead to nodes that have edges. -/
theorem to_source {a c : α} (h : TransGen R a c) (hc : ∃ d, R c d) :
    TransGen (fun a b => R a b ∧ ∃ d, R b d) a c := by
  induction h using TransGen.head_induction_on with
  | single hedge => exact .single ⟨hedge, hc⟩
  | head hedge hrest ih =>
    obtain ⟨d, hnext, -⟩ := TransGen.head'_iff.mp hrest
    exact .head ⟨hedge, d, hnext⟩ ih

end Sinks

end CycleSearch
