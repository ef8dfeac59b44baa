import MiniDB.Foundations.Machine

/-!
# Pull iterators

An iterator over the states `σ` hands out one element at each call of its `next`, until a call hands
out nothing; a call may fault. A loop over an iterator is bounded by a measure that every element
takes something off.

## Main definitions

* `Pull.Next σ ε α`: an iterator over the states `σ` that faults with an `ε`
* `Pull.Yields next s xs`: from the state `s` the iterator hands out the elements `xs`
* `Pull.Shrinks next measure`: every element takes something off the measure
* `Pull.Keeps next f`: no call changes `f` of the state
* `Pull.Mirrors R next next'`: from related states the calls of two iterators end alike
* `Pull.advance`, `Pull.nextWhere`, `Pull.nextMap`, `Pull.drain`, `Pull.skip`: a list with a position,
  the next element with a property, the next element's image, all elements, and a number of calls

## Main results

* `Pull.Yields.of_advance`, `Pull.Yields.nextWhere`, `Pull.Yields.nextMap`: the elements they hand
  out
* `Pull.Yields.drain`: the elements of a loop
* `Pull.Shrinks.faultsIn_drain`: a bound above the measure is never reached
* `Pull.Mirrors.drain`: a loop gathers the same elements from both
-/

namespace Pull

/-- An iterator: an element or none, and the state after the call. -/
abbrev Next (σ ε α : Type) := σ → Except ε (Option α × σ)

variable {σ ε α β : Type}

/-- From the state `s` the calls hand out `xs` one by one, and then nothing. -/
inductive Yields (next : Next σ ε α) : σ → List α → Prop
  | done {s s' : σ} : next s = .ok (none, s') → Yields next s []
  | more {s s' : σ} {x : α} {xs : List α} : next s = .ok (some x, s') → Yields next s' xs →
    Yields next s (x :: xs)

/-- Every element takes something off the measure. -/
def Shrinks (next : Next σ ε α) (measure : σ → ℕ) : Prop :=
  ∀ s x s', next s = .ok (some x, s') → measure s' < measure s

/-- No call changes `f` of the state. -/
def Keeps {γ : Type} (next : Next σ ε α) (f : σ → γ) : Prop :=
  ∀ s o s', next s = .ok (o, s') → f s' = f s

/-- The element at a position of a list, and the position after it. -/
def advance (xs : List α) (i : ℕ) : Option α × ℕ :=
  match xs[i]? with
  | none => (none, i)
  | some x => (some x, i + 1)

/-- The next element with the property, in at most `fuel` calls. -/
def nextWhere (e : ε) (next : Next σ ε α) (p : α → Bool) : ℕ → σ → Except ε (Option α × σ)
  | 0, _ => .error e
  | fuel + 1, s => do
    match ← next s with
    | (none, s) => return (none, s)
    | (some x, s) => if p x then return (some x, s) else nextWhere e next p fuel s

/-- The image of the next element. -/
def nextMap (next : Next σ ε α) (f : α → Except ε β) (s : σ) : Except ε (Option β × σ) := do
  match ← next s with
  | (none, s) => return (none, s)
  | (some x, s) => return (some (← f x), s)

/-- All elements, in at most `fuel` calls, behind those already gathered. -/
def drain (e : ε) (next : Next σ ε α) : ℕ → σ → List α → Except ε (List α × σ)
  | 0, _, _ => .error e
  | fuel + 1, s, gathered => do
    match ← next s with
    | (none, s) => return (gathered, s)
    | (some x, s) => drain e next fuel s (gathered ++ [x])

/-- The state after `n` calls. -/
def skip (next : Next σ ε α) : ℕ → σ → Except ε σ
  | 0, s => .ok s
  | n + 1, s => do
    let (_, s) ← next s
    skip next n s

namespace Yields

variable {next : Next σ ε α} {s : σ} {xs : List α} {measure : σ → ℕ}

/-- A measure bounds the number of elements. -/
theorem length_le (h : Yields next s xs) (hm : Shrinks next measure) : xs.length ≤ measure s := by
  induction h with
  | done => exact Nat.zero_le _
  | more hnext _ ih => exact Nat.lt_of_le_of_lt ih (hm _ _ _ hnext)

/-- A list with a position hands out what is behind the position. -/
theorem of_advance (state : ℕ → σ) (xs : List α)
    (hnext : ∀ i, next (state i) = .ok ((advance xs i).1, state (advance xs i).2)) :
    ∀ (rest : List α) (i : ℕ), xs.drop i = rest → Yields next (state i) rest
  | [], i, h => by
    have hnone : xs[i]? = none := List.getElem?_eq_none_iff.mpr (List.drop_eq_nil_iff.mp h)
    have hdone : next (state i) = .ok (none, state i) := by
      rw [hnext]
      simp [advance, hnone]
    exact .done hdone
  | x :: rest, i, h => by
    have hsome : xs[i]? = some x := by
      rw [← List.head?_drop, h]
      rfl
    have hmore : next (state i) = .ok (some x, state (i + 1)) := by
      rw [hnext]
      simp [advance, hsome]
    refine .more hmore (of_advance state xs hnext rest (i + 1) ?_)
    rw [← List.tail_drop, h]
    rfl

/-- One call for an element with the property: it skips those before it. -/
theorem nextWhere_step (h : Yields next s xs) (e : ε) (p : α → Bool) {fuel : ℕ}
    (hfuel : xs.length < fuel) :
    (xs.filter p = [] ∧ ∃ s', Pull.nextWhere e next p fuel s = .ok (none, s')) ∨
    ∃ x rest s', Pull.nextWhere e next p fuel s = .ok (some x, s') ∧ Yields next s' rest ∧
      xs.filter p = x :: rest.filter p ∧ rest.length < xs.length := by
  induction h generalizing fuel with
  | @done s s' hnext =>
    obtain ⟨fuel, rfl⟩ := Nat.exists_eq_add_one_of_ne_zero (Nat.ne_of_gt hfuel)
    exact Or.inl ⟨rfl, s', by simp only [Pull.nextWhere, hnext, Machine.ok_bind]; rfl⟩
  | @more s s' x xs hnext hrest ih =>
    obtain ⟨fuel, rfl⟩ := Nat.exists_eq_add_one_of_ne_zero (Nat.ne_of_gt (Nat.zero_lt_of_lt hfuel))
    simp only [Pull.nextWhere, hnext, Machine.ok_bind]
    cases hp : p x with
    | true => exact Or.inr ⟨x, xs, s', rfl, hrest, by simp [hp], by simp⟩
    | false =>
      simp only [Bool.false_eq_true, if_false, List.filter_cons, hp]
      rcases ih (Nat.lt_of_succ_lt_succ hfuel) with hnone | ⟨y, rest, s'', hy, hyields, heq, hlt⟩
      · exact Or.inl hnone
      · exact Or.inr ⟨y, rest, s'', hy, hyields, heq, by simp; omega⟩

/-- The elements with a property. -/
theorem nextWhere (h : Yields next s xs) (e : ε) (p : α → Bool) (hm : Shrinks next measure) :
    Yields (fun s => Pull.nextWhere e next p (measure s + 1) s) s (xs.filter p) := by
  induction hn : xs.length using Nat.strongRecOn generalizing s xs with
  | _ n ih =>
    subst hn
    rcases h.nextWhere_step e p (Nat.lt_succ_of_le (h.length_le hm)) with
      ⟨hnil, s', hnone⟩ | ⟨x, rest, s', hx, hrest, heq, hlt⟩
    · rw [hnil]
      exact .done hnone
    · rw [heq]
      exact .more hx (ih _ hlt hrest rfl)

/-- The images of the elements. -/
theorem nextMap (h : Yields next s xs) {f : α → Except ε β} {g : α → β}
    (hf : ∀ x ∈ xs, f x = .ok (g x)) : Yields (Pull.nextMap next f) s (xs.map g) := by
  induction h with
  | @done s s' hnext =>
    have hdone : Pull.nextMap next f s = .ok (none, s') := by
      simp only [Pull.nextMap, hnext]
      rfl
    exact .done hdone
  | @more s s' x xs hnext _ ih =>
    have hmore : Pull.nextMap next f s = .ok (some (g x), s') := by
      simp only [Pull.nextMap, hnext, Machine.ok_bind, hf x List.mem_cons_self]
      rfl
    exact .more hmore (ih fun y hy => hf y (List.mem_cons_of_mem _ hy))

/-- An iterator that carries the state of another one hands out the same elements. -/
theorem embed {τ : Type} {next' : Next τ ε α} (h : Yields next s xs) (state : σ → τ)
    (hnext : ∀ {s o s'}, next s = .ok (o, s') → next' (state s) = .ok (o, state s')) :
    Yields next' (state s) xs := by
  induction h with
  | done hs => exact .done (hnext hs)
  | more hs _ ih => exact .more (hnext hs) ih

/-- A loop gathers all elements. -/
theorem drain (h : Yields next s xs) (e : ε) {fuel : ℕ} (hfuel : xs.length < fuel)
    (gathered : List α) : ∃ s', Pull.drain e next fuel s gathered = .ok (gathered ++ xs, s') := by
  induction h generalizing fuel gathered with
  | @done s s' hnext =>
    obtain ⟨fuel, rfl⟩ := Nat.exists_eq_add_one_of_ne_zero (Nat.ne_of_gt hfuel)
    refine ⟨s', ?_⟩
    simp only [Pull.drain, hnext, Machine.ok_bind, List.append_nil]
    rfl
  | @more s s' x xs hnext _ ih =>
    obtain ⟨fuel, rfl⟩ := Nat.exists_eq_add_one_of_ne_zero (Nat.ne_of_gt (Nat.zero_lt_of_lt hfuel))
    obtain ⟨s'', hrest⟩ := ih (Nat.lt_of_succ_lt_succ hfuel) (gathered ++ [x])
    refine ⟨s'', ?_⟩
    simp only [Pull.drain, hnext, Machine.ok_bind]
    rw [hrest, List.append_assoc, List.singleton_append]

end Yields

/-- A position that has handed out an element has fewer elements behind it. -/
theorem length_sub_advance_lt {xs : List α} {i : ℕ} {x : α} (h : (advance xs i).1 = some x) :
    xs.length - (advance xs i).2 < xs.length - i := by
  unfold advance at h ⊢
  cases hx : xs[i]? with
  | none => rw [hx] at h; cases h
  | some y =>
    have hlt := (List.getElem?_eq_some_iff.mp hx).1
    show xs.length - (i + 1) < xs.length - i
    omega

namespace Shrinks

variable {next : Next σ ε α} {measure : σ → ℕ}

/-- Looking for an element with a property takes something off the measure too. -/
theorem nextWhere_lt (hm : Shrinks next measure) (e : ε) (p : α → Bool) : ∀ {fuel s x s'},
    Pull.nextWhere e next p fuel s = .ok (some x, s') → measure s' < measure s
  | 0, _, _, _, h => by cases h
  | fuel + 1, s, x, s', h => by
    simp only [Pull.nextWhere, Machine.bind_eq_ok] at h
    obtain ⟨⟨o, s₁⟩, hnext, h⟩ := h
    cases o with
    | none => cases h
    | some y =>
      simp only at h
      split at h
      · obtain ⟨-, rfl⟩ := Prod.mk.inj (Except.ok.inj h)
        exact hm _ _ _ hnext
      · exact Nat.lt_trans (nextWhere_lt hm e p h) (hm _ _ _ hnext)

theorem nextWhere (hm : Shrinks next measure) (e : ε) (p : α → Bool) :
    Shrinks (fun s => Pull.nextWhere e next p (measure s + 1) s) measure :=
  fun _ _ _ h => hm.nextWhere_lt e p h

theorem nextMap (hm : Shrinks next measure) (f : α → Except ε β) :
    Shrinks (Pull.nextMap next f) measure := by
  intro s x s' h
  simp only [Pull.nextMap, Machine.bind_eq_ok] at h
  obtain ⟨⟨o, s₁⟩, hnext, h⟩ := h
  cases o with
  | none => cases h
  | some y =>
    simp only [Machine.bind_eq_ok] at h
    obtain ⟨z, -, h⟩ := h
    obtain ⟨-, rfl⟩ := Prod.mk.inj (Except.ok.inj h)
    exact hm _ _ _ hnext

variable {P : ε → Prop}

/-- A bound above the measure is never reached. -/
theorem faultsIn_nextWhere (hm : Shrinks next measure) (hnext : ∀ s, Machine.FaultsIn P (next s))
    (e : ε) (p : α → Bool) : ∀ {fuel s}, measure s < fuel →
    Machine.FaultsIn P (Pull.nextWhere e next p fuel s)
  | 0, s, hlt => absurd hlt (Nat.not_lt_zero _)
  | fuel + 1, s, hlt => by
    refine (hnext s).bind ?_
    rintro ⟨o, s'⟩ hs
    cases o with
    | none => exact Machine.faultsIn_ok _
    | some x =>
      refine .ite (Machine.faultsIn_ok _) (faultsIn_nextWhere hm hnext e p ?_)
      exact Nat.lt_of_lt_of_le (hm _ _ _ hs) (Nat.le_of_lt_succ hlt)

theorem faultsIn_drain (hm : Shrinks next measure) (hnext : ∀ s, Machine.FaultsIn P (next s))
    (e : ε) : ∀ {fuel s} (gathered : List α), measure s < fuel →
    Machine.FaultsIn P (Pull.drain e next fuel s gathered)
  | 0, s, _, hlt => absurd hlt (Nat.not_lt_zero _)
  | fuel + 1, s, gathered, hlt => by
    refine (hnext s).bind ?_
    rintro ⟨o, s'⟩ hs
    cases o with
    | none => exact Machine.faultsIn_ok _
    | some x =>
      refine faultsIn_drain hm hnext e (gathered ++ [x]) ?_
      exact Nat.lt_of_lt_of_le (hm _ _ _ hs) (Nat.le_of_lt_succ hlt)

end Shrinks

theorem faultsIn_nextMap {P : ε → Prop} {next : Next σ ε α} {f : α → Except ε β} {s : σ}
    (hnext : Machine.FaultsIn P (next s)) (hf : ∀ x, Machine.FaultsIn P (f x)) :
    Machine.FaultsIn P (nextMap next f s) := by
  refine hnext.bind ?_
  rintro ⟨o, s'⟩ -
  cases o with
  | none => exact Machine.faultsIn_ok _
  | some x => exact (hf x).bind fun y _ => Machine.faultsIn_ok _

namespace Keeps

variable {γ : Type} {next : Next σ ε α} {f : σ → γ}

theorem nextWhere (hf : Keeps next f) (e : ε) (p : α → Bool) : ∀ {fuel s o s'},
    Pull.nextWhere e next p fuel s = .ok (o, s') → f s' = f s
  | 0, _, _, _, h => by cases h
  | fuel + 1, s, o, s', h => by
    simp only [Pull.nextWhere, Machine.bind_eq_ok] at h
    obtain ⟨⟨y, s₁⟩, hnext, h⟩ := h
    cases y with
    | none =>
      obtain ⟨-, rfl⟩ := Prod.mk.inj (Except.ok.inj h)
      exact hf _ _ _ hnext
    | some y =>
      simp only at h
      split at h
      · obtain ⟨-, rfl⟩ := Prod.mk.inj (Except.ok.inj h)
        exact hf _ _ _ hnext
      · exact (nextWhere hf e p h).trans (hf _ _ _ hnext)

theorem nextMap (hf : Keeps next f) (g : α → Except ε β) : Keeps (Pull.nextMap next g) f := by
  intro s o s' h
  simp only [Pull.nextMap, Machine.bind_eq_ok] at h
  obtain ⟨⟨y, s₁⟩, hnext, h⟩ := h
  cases y with
  | none =>
    obtain ⟨-, rfl⟩ := Prod.mk.inj (Except.ok.inj h)
    exact hf _ _ _ hnext
  | some y =>
    simp only [Machine.bind_eq_ok] at h
    obtain ⟨z, -, h⟩ := h
    obtain ⟨-, rfl⟩ := Prod.mk.inj (Except.ok.inj h)
    exact hf _ _ _ hnext

theorem drain (hf : Keeps next f) (e : ε) : ∀ {fuel s gathered xs s'},
    Pull.drain e next fuel s gathered = .ok (xs, s') → f s' = f s
  | 0, _, _, _, _, h => by cases h
  | fuel + 1, s, gathered, xs, s', h => by
    simp only [Pull.drain, Machine.bind_eq_ok] at h
    obtain ⟨⟨y, s₁⟩, hnext, h⟩ := h
    cases y with
    | none =>
      obtain ⟨-, rfl⟩ := Prod.mk.inj (Except.ok.inj h)
      exact hf _ _ _ hnext
    | some y => exact (drain hf e h).trans (hf _ _ _ hnext)

end Keeps

/-! ## Two iterators side by side -/

/-- Two calls end alike: with the same fault, or with the same element and related states. -/
def Alike {τ : Type} (R : σ → τ → Prop) :
    Except ε (Option α × σ) → Except ε (Option α × τ) → Prop
  | .ok (o, s), .ok (o', t) => o = o' ∧ R s t
  | .error e, .error e' => e = e'
  | _, _ => False

/-- From related states the calls of two iterators end alike. -/
def Mirrors {τ : Type} (R : σ → τ → Prop) (next : Next σ ε α) (next' : Next τ ε α) : Prop :=
  ∀ s t, R s t → Alike R (next s) (next' t)

namespace Mirrors

variable {τ : Type} {R : σ → τ → Prop} {next : Next σ ε α} {next' : Next τ ε α} {s : σ} {t : τ}

/-- The two calls fault, or both hand out the same. -/
theorem cases (h : Mirrors R next next') (hR : R s t) :
    (∃ e, next s = .error e ∧ next' t = .error e) ∨
      ∃ o s' t', next s = .ok (o, s') ∧ next' t = .ok (o, t') ∧ R s' t' := by
  have hend := h s t hR
  cases hs : next s with
  | error e =>
    cases ht : next' t with
    | error e' =>
      rw [hs, ht] at hend
      exact Or.inl ⟨e, rfl, by rw [show e = e' from hend]⟩
    | ok r => rw [hs, ht] at hend; exact hend.elim
  | ok r =>
    obtain ⟨o, s'⟩ := r
    cases ht : next' t with
    | error e' => rw [hs, ht] at hend; exact hend.elim
    | ok r' =>
      obtain ⟨o', t'⟩ := r'
      rw [hs, ht] at hend
      obtain ⟨rfl, hR'⟩ := hend
      exact Or.inr ⟨o, s', t', rfl, rfl, hR'⟩

theorem nextWhere (h : Mirrors R next next') (e : ε) (p : α → Bool) : ∀ {fuel s t}, R s t →
    Alike R (Pull.nextWhere e next p fuel s) (Pull.nextWhere e next' p fuel t)
  | 0, _, _, _ => rfl
  | fuel + 1, s, t, hR => by
    simp only [Pull.nextWhere]
    rcases h.cases hR with ⟨e', hs, ht⟩ | ⟨o, s', t', hs, ht, hR'⟩
    · rw [hs, ht]
      exact rfl
    · rw [hs, ht]
      cases o with
      | none => exact ⟨rfl, hR'⟩
      | some x =>
        simp only [Machine.ok_bind]
        cases p x with
        | true => exact ⟨rfl, hR'⟩
        | false => exact nextWhere h e p hR'

theorem nextMap (h : Mirrors R next next') (f : α → Except ε β) :
    Mirrors R (Pull.nextMap next f) (Pull.nextMap next' f) := by
  intro s t hR
  simp only [Pull.nextMap]
  rcases h.cases hR with ⟨e', hs, ht⟩ | ⟨o, s', t', hs, ht, hR'⟩
  · rw [hs, ht]
    exact rfl
  · rw [hs, ht]
    cases o with
    | none => exact ⟨rfl, hR'⟩
    | some x =>
      simp only [Machine.ok_bind]
      cases f x with
      | error e => exact rfl
      | ok y => exact ⟨rfl, hR'⟩

/-- A loop gathers the same elements from both. -/
theorem drain (h : Mirrors R next next') (e : ε) : ∀ {fuel s t} (gathered : List α), R s t →
    (Pull.drain e next fuel s gathered).map Prod.fst =
      (Pull.drain e next' fuel t gathered).map Prod.fst
  | 0, _, _, _, _ => rfl
  | fuel + 1, s, t, gathered, hR => by
    simp only [Pull.drain]
    rcases h.cases hR with ⟨e', hs, ht⟩ | ⟨o, s', t', hs, ht, hR'⟩
    · rw [hs, ht]
      rfl
    · rw [hs, ht]
      cases o with
      | none => rfl
      | some x => exact drain h e (gathered ++ [x]) hR'

end Mirrors

/-- Calls change nothing that a single one does not. -/
theorem Keeps.skip {γ : Type} {next : Next σ ε α} {f : σ → γ} (hf : Keeps next f) :
    ∀ {n s s'}, Pull.skip next n s = .ok s' → f s' = f s
  | 0, _, _, h => by
    rw [Except.ok.inj h]
  | n + 1, s, s', h => by
    simp only [Pull.skip, Machine.bind_eq_ok] at h
    obtain ⟨⟨o, s₁⟩, hnext, h⟩ := h
    exact (Keeps.skip hf h).trans (hf _ _ _ hnext)

end Pull
