import Mathlib

/-!
# Machines that may fault

A machine takes one step per input; a step returns the next state and an output, or it faults and
the run ends there. A specification is a machine that never faults. The machine refines it when
every step that does not fault moves related states to related states and gives a related output;
the rule for whole runs is proved once, here.

## Main definitions

* `Machine.run step s as`: the state and the outputs after the inputs `as`
* `Machine.specRun step m as`: the same for a machine that never faults
* `Machine.Refines`, `Machine.Along`: refinement step by step on admissible inputs, and runs whose
  inputs are all admissible
* `Machine.Simulates`, `Machine.Meets`: the same for a specification whose steps are a relation, and
  for a condition on the states of the machine itself

## Main results

* `Machine.run_ok_iff`: a run goes through when its steps do
* `Machine.run_invariant`, `Machine.Along.invariant`: what every step keeps holds after every run
* `Machine.run_amortized`: the potential method
* `Machine.run_refines`, `Machine.run_simulates`: refinement of every step gives refinement of every
  run
* `ok_bind`, `error_bind`, `bind_eq_ok`: computing with computations that may fault
* `FaultsIn.bind`, `FaultsIn.ite`, `FaultsIn.mapM`: the faults of a computation, part by part
* `Ensures.bind`, `Ensures.mono`: how it ends, part by part
-/

namespace Machine

variable {ε σ μ α β γ : Type}

/-! ## Computations that may fault -/

section Bind

variable {A B : Type}

@[simp] theorem ok_bind (a : A) (f : A → Except ε B) : (Except.ok a >>= f) = f a := rfl

@[simp] theorem error_bind (e : ε) (f : A → Except ε B) :
    ((Except.error e : Except ε A) >>= f) = .error e := rfl

@[simp] theorem pure_eq_ok (a : A) : (pure a : Except ε A) = .ok a := rfl

@[simp] theorem ok_map (f : A → B) (a : A) : (f <$> (Except.ok a : Except ε A)) = .ok (f a) := rfl

@[simp] theorem error_map (f : A → B) (e : ε) :
    (f <$> (Except.error e : Except ε A)) = .error e := rfl

theorem bind_eq_ok {x : Except ε A} {f : A → Except ε B} {b : B} :
    (x >>= f) = .ok b ↔ ∃ a, x = .ok a ∧ f a = .ok b := by
  cases x <;> simp

theorem ne_error_of_isOk {x : Except ε A} (h : x.isOk = true) (e : ε) : x ≠ .error e := by
  rintro rfl
  cases h

theorem map_eq_ok {x : Except ε A} {f : A → B} {b : B} :
    x.map f = .ok b ↔ ∃ a, x = .ok a ∧ f a = b := by
  cases x <;> simp [Except.map]

theorem toOption_eq_some {x : Except ε A} {a : A} : x.toOption = some a ↔ x = .ok a := by
  cases x <;> simp [Except.toOption]

/-- The faults of a computation are all of a kind. -/
def FaultsIn (P : ε → Prop) (x : Except ε A) : Prop := ∀ e, x = .error e → P e

section FaultsIn

variable {P : ε → Prop}

theorem faultsIn_ok (a : A) : FaultsIn P (.ok a : Except ε A) := fun _ h => by cases h

theorem FaultsIn.bind {x : Except ε A} {f : A → Except ε B} (hx : FaultsIn P x)
    (hf : ∀ a, x = .ok a → FaultsIn P (f a)) : FaultsIn P (x >>= f) := by
  cases x with
  | error e => exact fun e' h => hx e' (by rwa [error_bind, Except.error.injEq] at *)
  | ok a => exact hf a rfl

theorem FaultsIn.map {x : Except ε A} {f : A → B} (hx : FaultsIn P x) : FaultsIn P (f <$> x) := by
  cases x with
  | error e => exact fun e' h => hx e' (by rwa [error_map, Except.error.injEq] at *)
  | ok a => exact faultsIn_ok (f a)

theorem FaultsIn.ite {c : Prop} [Decidable c] {x y : Except ε A} (hx : FaultsIn P x)
    (hy : FaultsIn P y) : FaultsIn P (if c then x else y) := by
  split
  · exact hx
  · exact hy

theorem FaultsIn.mapM {f : A → Except ε B} (hf : ∀ a, FaultsIn P (f a)) : ∀ xs : List A,
    FaultsIn P (xs.mapM f)
  | [] => faultsIn_ok []
  | x :: xs => by
    rw [List.mapM_cons]
    exact (hf x).bind fun y _ => (FaultsIn.mapM hf xs).bind fun ys _ => faultsIn_ok (y :: ys)

end FaultsIn

/-- The computation returns with `Q`, or it faults with a `P`. -/
def Ensures (P : ε → Prop) (Q : A → Prop) : Except ε A → Prop
  | .ok a => Q a
  | .error e => P e

section Ensures

variable {P : ε → Prop} {Q : A → Prop}

@[simp] theorem ensures_ok {a : A} : Ensures P Q (.ok a) ↔ Q a := Iff.rfl

@[simp] theorem ensures_error {e : ε} : Ensures P Q (.error e) ↔ P e := Iff.rfl

theorem Ensures.bind {x : Except ε A} {f : A → Except ε B} {R : B → Prop} (hx : Ensures P Q x)
    (hf : ∀ a, Q a → Ensures P R (f a)) : Ensures P R (x >>= f) := by
  cases x with
  | error e => exact hx
  | ok a => exact hf a hx

theorem Ensures.mono {x : Except ε A} {R : A → Prop} (hx : Ensures P Q x) (hQ : ∀ a, Q a → R a) :
    Ensures P R x := by
  cases x with
  | error e => exact hx
  | ok a => exact hQ a hx

end Ensures

/-- A loop whose every turn adds to what has been gathered. -/
theorem foldlM_gather {step : List B → A → Except ε (List B)} {g : A → List B} : ∀ {xs : List A},
    (∀ x ∈ xs, ∀ gathered, step gathered x = .ok (gathered ++ g x)) → ∀ gathered : List B,
      xs.foldlM step gathered = .ok (gathered ++ xs.flatMap g)
  | [], _, gathered => by simp
  | x :: xs, h, gathered => by
    rw [List.foldlM_cons, h x List.mem_cons_self, ok_bind,
      foldlM_gather fun y hy => h y (List.mem_cons_of_mem _ hy)]
    simp

/-- A loop that gathers the images of the elements that satisfy a test. -/
theorem foldlM_select {step : List B → A → Except ε (List B)} {test : A → Bool} {image : A → B} :
    ∀ {xs : List A}, (∀ x ∈ xs, ∀ gathered, step gathered x =
      .ok (if test x then gathered ++ [image x] else gathered)) → ∀ gathered : List B,
      xs.foldlM step gathered = .ok (gathered ++ (xs.filter test).map image)
  | [], _, gathered => by simp
  | x :: xs, h, gathered => by
    rw [List.foldlM_cons, h x List.mem_cons_self, ok_bind,
      foldlM_select fun y hy => h y (List.mem_cons_of_mem _ hy)]
    cases hx : test x <;> simp [hx]

/-- A loop that stops at the first failure returns the results of all its rounds. -/
theorem mapM_eq_some {f : A → Option B} : ∀ {xs : List A} {ys : List B},
    xs.mapM f = some ys ↔ List.Forall₂ (fun x y => f x = some y) xs ys
  | [], ys => by
    rw [List.forall₂_nil_left_iff]
    exact ⟨fun h => (Option.some.inj h).symm, fun h => h ▸ rfl⟩
  | x :: xs, ys => by
    rw [List.mapM_cons, List.forall₂_cons_left_iff]
    cases hx : f x with
    | none => simp
    | some y =>
      cases hxs : xs.mapM f with
      | none => simp [← mapM_eq_some, hxs]
      | some ys' => simp [← mapM_eq_some, hxs, eq_comm]

theorem toOption_mapM {f : A → Except ε B} {g : A → Option B} (h : ∀ a, (f a).toOption = g a) :
    ∀ as : List A, (as.mapM f).toOption = as.mapM g
  | [] => rfl
  | a :: as => by
    rw [List.mapM_cons, List.mapM_cons, ← toOption_mapM h as, ← h a]
    cases f a with
    | error e => rfl
    | ok b => cases as.mapM f <;> rfl

end Bind

/-! ## Runs -/

/-- The run of a machine over a list of inputs. -/
def run (step : σ → α → Except ε (σ × β)) : σ → List α → Except ε (σ × List β)
  | s, [] => .ok (s, [])
  | s, a :: as => do
    let (s, b) ← step s a
    let (s, bs) ← run step s as
    return (s, b :: bs)

/-- The run of a machine that never faults. -/
def specRun (step : μ → α → μ × γ) : μ → List α → μ × List γ
  | m, [] => (m, [])
  | m, a :: as =>
    let r := specRun step (step m a).1 as
    (r.1, (step m a).2 :: r.2)

variable {step : σ → α → Except ε (σ × β)} {spec : μ → α → μ × γ}

@[simp] theorem run_nil (s : σ) : run step s [] = .ok (s, []) := rfl

theorem run_cons_ok {s s' : σ} {a : α} {b : β} (h : step s a = .ok (s', b)) (as : List α) :
    run step s (a :: as) = (run step s' as).map fun r => (r.1, b :: r.2) := by
  simp only [run, h, ok_bind]
  cases run step s' as <;> rfl

theorem run_cons_error {s : σ} {a : α} {e : ε} (h : step s a = .error e) (as : List α) :
    run step s (a :: as) = .error e := by
  simp [run, h]

/-- A run that stops stops whatever comes after. -/
theorem run_append_error {e : ε} {as : List α} : ∀ {s : σ}, run step s as = .error e →
    ∀ bs, run step s (as ++ bs) = .error e := by
  induction as with
  | nil => intro s h; cases h
  | cons a as ih =>
    intro s h bs
    rw [List.cons_append]
    cases hstep : step s a with
    | error e' =>
      rw [run_cons_error hstep] at h ⊢
      exact h
    | ok r =>
      rw [run_cons_ok hstep] at h ⊢
      cases hrun : run step r.1 as with
      | ok r' =>
        rw [hrun] at h
        cases h
      | error e' =>
        rw [hrun] at h
        rw [ih (hrun.trans h) bs]
        rfl

/-- A run that goes through, by its first step and the others. -/
theorem run_cons_inv {s s' : σ} {a : α} {as : List α} {bs : List β}
    (h : run step s (a :: as) = .ok (s', bs)) : ∃ t b bs', step s a = .ok (t, b) ∧
      run step t as = .ok (s', bs') ∧ bs = b :: bs' := by
  cases hstep : step s a with
  | error e => rw [run_cons_error hstep] at h; cases h
  | ok r =>
    obtain ⟨t, b⟩ := r
    rw [run_cons_ok hstep] at h
    obtain ⟨r', hr', heq⟩ := map_eq_ok.mp h
    obtain ⟨rfl, rfl⟩ := Prod.mk.inj heq
    exact ⟨t, b, r'.2, rfl, hr', rfl⟩

/-- A run behind another one. -/
theorem run_append_ok : ∀ {as : List α} {s s' : σ} {bs : List β}, run step s as = .ok (s', bs) →
    ∀ cs, run step s (as ++ cs) = (run step s' cs).map fun r => (r.1, bs ++ r.2) := by
  intro as
  induction as with
  | nil =>
    intro s s' bs h cs
    obtain ⟨rfl, rfl⟩ := Prod.mk.inj (Except.ok.inj h)
    rw [List.nil_append]
    cases run step s cs <;> rfl
  | cons a as ih =>
    intro s s' bs h cs
    obtain ⟨t, b, bs', hstep, hrest, rfl⟩ := run_cons_inv h
    rw [List.cons_append, run_cons_ok hstep, ih hrest]
    cases run step s' cs <;> rfl

/-- What every step keeps holds at the end of every run. -/
theorem run_invariant {I : σ → Prop} (hstep : ∀ {s s' a b}, step s a = .ok (s', b) → I s → I s') :
    ∀ {as : List α} {s s' : σ} {bs : List β}, run step s as = .ok (s', bs) → I s → I s' := by
  intro as
  induction as with
  | nil =>
    intro s s' bs h hs
    obtain ⟨rfl, -⟩ := Prod.mk.inj (Except.ok.inj h)
    exact hs
  | cons a as ih =>
    intro s s' bs h hs
    obtain ⟨t, b, bs', hs', hrest, -⟩ := run_cons_inv h
    exact ih hrest (hstep hs' hs)

/-- The potential method: when no step raises the potential by more than its grant, no run raises
it by more than the grants together. -/
theorem run_amortized {I : σ → Prop} {potential : σ → ℕ} {grant : α → β → ℕ}
    (hstep : ∀ {s s' a b}, step s a = .ok (s', b) → I s →
      I s' ∧ potential s' ≤ potential s + grant a b) :
    ∀ {as : List α} {s s' : σ} {bs : List β}, run step s as = .ok (s', bs) → I s →
      I s' ∧ potential s' ≤ potential s + (List.zipWith grant as bs).sum := by
  intro as
  induction as with
  | nil =>
    intro s s' bs h hs
    obtain ⟨rfl, rfl⟩ := Prod.mk.inj (Except.ok.inj h)
    exact ⟨hs, Nat.le_refl _⟩
  | cons a as ih =>
    intro s s' bs h hs
    obtain ⟨t, b, bs', hs', hrest, rfl⟩ := run_cons_inv h
    obtain ⟨ht, hpay⟩ := hstep hs' hs
    obtain ⟨hend, hpays⟩ := ih hrest ht
    refine ⟨hend, ?_⟩
    rw [List.zipWith_cons_cons, List.sum_cons]
    omega

/-- A run goes through exactly when every step it comes to does. -/
theorem run_ok_iff : ∀ (as : List α) (s : σ), (∃ r, run step s as = .ok r) ↔
    ∀ as₁ a as₂, as = as₁ ++ a :: as₂ → ∀ s' bs, run step s as₁ = .ok (s', bs) →
      ∃ r, step s' a = .ok r := by
  intro as
  induction as with
  | nil =>
    intro s
    exact ⟨fun _ as₁ a as₂ h => absurd h (by simp), fun _ => ⟨_, rfl⟩⟩
  | cons a as ih =>
    intro s
    cases hstep : step s a with
    | error e =>
      refine ⟨fun h => absurd h (by simp [run_cons_error hstep]), fun h => ?_⟩
      obtain ⟨r, hr⟩ := h [] a as rfl s [] rfl
      rw [hstep] at hr
      exact absurd hr (by simp)
    | ok r =>
      obtain ⟨s', b⟩ := r
      have hrun : (∃ r, run step s (a :: as) = .ok r) ↔ ∃ r, run step s' as = .ok r := by
        rw [run_cons_ok hstep]
        cases run step s' as <;> simp [Except.map]
      rw [hrun, ih s']
      constructor
      · intro h as₁ c as₂ heq t bs hrun₁
        cases as₁ with
        | nil =>
          obtain ⟨rfl, -⟩ := List.cons.inj heq
          obtain ⟨rfl, -⟩ := Prod.mk.inj (Except.ok.inj hrun₁)
          exact ⟨_, hstep⟩
        | cons a' as₁ =>
          obtain ⟨rfl, htail⟩ := List.cons.inj heq
          rw [run_cons_ok hstep] at hrun₁
          cases hr : run step s' as₁ with
          | error e => rw [hr] at hrun₁; exact absurd hrun₁ (by simp [Except.map])
          | ok r =>
            rw [hr] at hrun₁
            obtain ⟨rfl, -⟩ := Prod.mk.inj (Except.ok.inj hrun₁)
            exact h as₁ c as₂ htail r.1 r.2 hr
      · intro h as₁ c as₂ heq t bs hrun₁
        refine h (a :: as₁) c as₂ (by rw [heq]; rfl) t (b :: bs) ?_
        rw [run_cons_ok hstep, hrun₁]
        rfl

/-- Refinement of a machine by a specification, step by step: from related states an admissible
input leads to related states with related outputs, unless the step faults in an allowed way. -/
def Refines (admissible : μ → α → Prop) (step : σ → α → Except ε (σ × β)) (spec : μ → α → μ × γ)
    (R : σ → μ → Prop) (Q : β → γ → Prop) (allowed : ε → Prop) : Prop :=
  ∀ s m a, R s m → admissible m a → (∃ e, allowed e ∧ step s a = .error e) ∨
    ∃ s' b, step s a = .ok (s', b) ∧ R s' (spec m a).1 ∧ Q b (spec m a).2

/-- A step that goes through is related to the step of the specification. -/
theorem Refines.of_ok {admissible : μ → α → Prop} {R : σ → μ → Prop} {Q : β → γ → Prop}
    {allowed : ε → Prop} (h : Refines admissible step spec R Q allowed) {s s' : σ} {m : μ} {a : α}
    {b : β} (hR : R s m) (ha : admissible m a) (hstep : step s a = .ok (s', b)) :
    R s' (spec m a).1 ∧ Q b (spec m a).2 := by
  rcases h s m a hR ha with ⟨e, -, he⟩ | ⟨t, b', hok, hR', hb⟩
  · rw [he] at hstep
    cases hstep
  · obtain ⟨rfl, rfl⟩ := Prod.mk.inj (Except.ok.inj (hok.symm.trans hstep))
    exact ⟨hR', hb⟩

/-- Refinement on fewer inputs, with an invariant of the specification on these inputs. -/
theorem Refines.inv {admissible admissible' : μ → α → Prop} {R : σ → μ → Prop} {Q : β → γ → Prop}
    {allowed : ε → Prop} (h : Refines admissible step spec R Q allowed) {I : μ → Prop}
    (hle : ∀ m a, admissible' m a → admissible m a)
    (hI : ∀ s m a, R s m → I m → admissible' m a → I (spec m a).1) :
    Refines admissible' step spec (fun s m => R s m ∧ I m) Q allowed := by
  rintro s m a ⟨hR, hm⟩ ha
  rcases h s m a hR (hle m a ha) with hfault | ⟨s', b, hs, hR', hb⟩
  · exact Or.inl hfault
  · exact Or.inr ⟨s', b, hs, ⟨hR', hI s m a hR hm ha⟩, hb⟩

/-- Every input is admissible in the state the specification has reached when it comes. -/
def Along (admissible : μ → α → Prop) (spec : μ → α → μ × γ) (m : μ) (as : List α) : Prop :=
  ∀ as₁ a as₂, as = as₁ ++ a :: as₂ → admissible (specRun spec m as₁).1 a

theorem along_true (spec : μ → α → μ × γ) (m : μ) (as : List α) :
    Along (fun _ _ => True) spec m as := fun _ _ _ _ => trivial

theorem Along.head {admissible : μ → α → Prop} {m : μ} {a : α} {as : List α}
    (h : Along admissible spec m (a :: as)) : admissible m a := h [] a as rfl

theorem Along.tail {admissible : μ → α → Prop} {m : μ} {a : α} {as : List α}
    (h : Along admissible spec m (a :: as)) : Along admissible spec (spec m a).1 as := by
  intro as₁ b as₂ heq
  exact h (a :: as₁) b as₂ (by rw [heq]; rfl)

theorem Along.nil {admissible : μ → α → Prop} {m : μ} : Along admissible spec m [] :=
  fun as₁ a as₂ h => absurd h (by simp)

theorem Along.cons {admissible : μ → α → Prop} {m : μ} {a : α} {as : List α}
    (ha : admissible m a) (has : Along admissible spec (spec m a).1 as) :
    Along admissible spec m (a :: as) := by
  intro as₁ b as₂ heq
  cases as₁ with
  | nil =>
    obtain ⟨rfl, -⟩ := List.cons.inj heq
    exact ha
  | cons a' as₁ =>
    obtain ⟨rfl, htail⟩ := List.cons.inj heq
    exact has as₁ b as₂ htail

instance Along.decidable {admissible : μ → α → Prop} [∀ m a, Decidable (admissible m a)] :
    ∀ (m : μ) (as : List α), Decidable (Along admissible spec m as)
  | _, [] => isTrue .nil
  | m, a :: as =>
    have : Decidable (Along admissible spec (spec m a).1 as) := Along.decidable (spec m a).1 as
    decidable_of_iff (admissible m a ∧ Along admissible spec (spec m a).1 as)
      ⟨fun h => .cons h.1 h.2, fun h => ⟨h.head, h.tail⟩⟩

/-- The inputs of a run up to one of them, and that one. -/
theorem Along.of_append {admissible : μ → α → Prop} {m : μ} {a : α} {as bs : List α}
    (h : Along admissible spec m (as ++ a :: bs)) :
    Along admissible spec m as ∧ admissible (specRun spec m as).1 a := by
  refine ⟨?_, h as a bs rfl⟩
  intro as₁ b as₂ heq
  exact h as₁ b (as₂ ++ a :: bs) (by rw [heq]; simp)

theorem specRun_append (m : μ) (as bs : List α) :
    (specRun spec m (as ++ bs)).1 = (specRun spec (specRun spec m as).1 bs).1 := by
  induction as generalizing m with
  | nil => rfl
  | cons a as ih => exact ih (spec m a).1

theorem Along.append {admissible : μ → α → Prop} {m : μ} {as bs : List α}
    (has : Along admissible spec m as) (hbs : Along admissible spec (specRun spec m as).1 bs) :
    Along admissible spec m (as ++ bs) := by
  induction as generalizing m with
  | nil => exact hbs
  | cons a as ih => exact .cons has.head (ih has.tail hbs)

/-- What every admissible step keeps holds after every run. -/
theorem Along.invariant {admissible : μ → α → Prop} {I : μ → Prop}
    (hstep : ∀ m a, I m → admissible m a → I (spec m a).1) :
    ∀ {as : List α} {m : μ}, Along admissible spec m as → I m → I (specRun spec m as).1 := by
  intro as
  induction as with
  | nil => exact fun _ hm => hm
  | cons a as ih => exact fun h hm => ih h.tail (hstep _ a hm h.head)

/-- Refinement of every step gives refinement of every run. -/
theorem run_refines {admissible : μ → α → Prop} {R : σ → μ → Prop} {Q : β → γ → Prop}
    {allowed : ε → Prop} (h : Refines admissible step spec R Q allowed) :
    ∀ (as : List α) (s : σ) (m : μ), R s m → Along admissible spec m as →
      (∃ e, allowed e ∧ run step s as = .error e) ∨
      ∃ s' bs, run step s as = .ok (s', bs) ∧ R s' (specRun spec m as).1 ∧
        List.Forall₂ Q bs (specRun spec m as).2 := by
  intro as
  induction as with
  | nil => exact fun s m hR _ => Or.inr ⟨s, [], rfl, hR, .nil⟩
  | cons a as ih =>
    intro s m hR hadm
    rcases h s m a hR hadm.head with ⟨e, he, hs⟩ | ⟨s', b, hs, hR', hb⟩
    · exact Or.inl ⟨e, he, run_cons_error hs as⟩
    · rw [run_cons_ok hs]
      rcases ih s' (spec m a).1 hR' hadm.tail with ⟨e, he, hr⟩ | ⟨s'', bs, hr, hR'', hbs⟩
      · exact Or.inl ⟨e, he, by rw [hr]; rfl⟩
      · exact Or.inr ⟨s'', b :: bs, by rw [hr]; rfl, hR'', .cons hb hbs⟩

/-- A run that goes through ends in related states. -/
theorem related_of_run {admissible : μ → α → Prop} {R : σ → μ → Prop} {Q : β → γ → Prop}
    {allowed : ε → Prop} (h : Refines admissible step spec R Q allowed) {as : List α} {s s' : σ}
    {m : μ} {bs : List β} (hR : R s m) (hadm : Along admissible spec m as)
    (hrun : run step s as = .ok (s', bs)) : R s' (specRun spec m as).1 := by
  rcases run_refines h as s m hR hadm with ⟨e, -, he⟩ | ⟨t, bs', hrun', hR', -⟩
  · rw [he] at hrun
    cases hrun
  · rw [hrun'] at hrun
    obtain ⟨rfl, -⟩ := Prod.mk.inj (Except.ok.inj hrun)
    exact hR'

/-! ## Specifications with a choice -/

/-- The runs of a specification whose steps are a relation. -/
inductive Steps (Spec : μ → α → β → μ → Prop) : μ → List α → List β → μ → Prop
  | nil (m : μ) : Steps Spec m [] [] m
  | cons {m m' m'' : μ} {a : α} {b : β} {as : List α} {bs : List β} :
    Spec m a b m' → Steps Spec m' as bs m'' → Steps Spec m (a :: as) (b :: bs) m''

/-- Every input meets a condition in the state the machine has reached when it comes. -/
def Meets (cond : σ → α → Prop) (step : σ → α → Except ε (σ × β)) (s : σ) (as : List α) : Prop :=
  ∀ as₁ a as₂, as = as₁ ++ a :: as₂ → ∀ s' bs, run step s as₁ = .ok (s', bs) → cond s' a

theorem Meets.nil {cond : σ → α → Prop} {s : σ} : Meets cond step s [] :=
  fun as₁ a as₂ h => absurd h (by simp)

theorem Meets.cons {cond : σ → α → Prop} {s : σ} {a : α} {as : List α} (ha : cond s a)
    (has : ∀ s' b, step s a = .ok (s', b) → Meets cond step s' as) :
    Meets cond step s (a :: as) := by
  intro as₁ c as₂ heq s' bs hrun
  cases as₁ with
  | nil =>
    obtain ⟨rfl, -⟩ := List.cons.inj heq
    obtain ⟨rfl, -⟩ := Prod.mk.inj (Except.ok.inj hrun)
    exact ha
  | cons a' as₁ =>
    obtain ⟨rfl, htail⟩ := List.cons.inj heq
    obtain ⟨t, b, bs', hstep, hrest, -⟩ := run_cons_inv hrun
    exact has t b hstep as₁ c as₂ htail s' bs' hrest

theorem Meets.cons_ok {cond : σ → α → Prop} {s t : σ} {a : α} {b : β} {as : List α}
    (ha : cond s a) (hstep : step s a = .ok (t, b)) (has : Meets cond step t as) :
    Meets cond step s (a :: as) := by
  refine .cons ha fun s' b' h => ?_
  rw [hstep] at h
  obtain ⟨rfl, -⟩ := Prod.mk.inj (Except.ok.inj h)
  exact has

theorem Meets.head {cond : σ → α → Prop} {s : σ} {a : α} {as : List α}
    (h : Meets cond step s (a :: as)) : cond s a := h [] a as rfl s [] rfl

theorem Meets.tail {cond : σ → α → Prop} {s s' : σ} {a : α} {b : β} {as : List α}
    (h : Meets cond step s (a :: as)) (hstep : step s a = .ok (s', b)) :
    Meets cond step s' as := by
  intro as₁ c as₂ heq t bs hrun
  refine h (a :: as₁) c as₂ (by rw [heq]; rfl) t (b :: bs) ?_
  rw [run_cons_ok hstep, hrun]
  rfl

/-- Simulation of a machine by a specification with a choice: from related states an input that
meets the condition is a step of the specification to a related state, unless it faults in an
allowed way. -/
def Simulates (cond : σ → α → Prop) (step : σ → α → Except ε (σ × β))
    (Spec : μ → α → β → μ → Prop) (R : σ → μ → Prop) (allowed : ε → Prop) : Prop :=
  ∀ s m a, R s m → cond s a → (∃ e, allowed e ∧ step s a = .error e) ∨
    ∃ s' b m', step s a = .ok (s', b) ∧ Spec m a b m' ∧ R s' m'

/-- Simulation of every step gives simulation of every run. -/
theorem run_simulates {cond : σ → α → Prop} {Spec : μ → α → β → μ → Prop} {R : σ → μ → Prop}
    {allowed : ε → Prop} (h : Simulates cond step Spec R allowed) :
    ∀ (as : List α) (s : σ) (m : μ), R s m → Meets cond step s as →
      (∃ e, allowed e ∧ run step s as = .error e) ∨
      ∃ s' bs m', run step s as = .ok (s', bs) ∧ Steps Spec m as bs m' ∧ R s' m' := by
  intro as
  induction as with
  | nil => exact fun s m hR _ => Or.inr ⟨s, [], m, rfl, .nil m, hR⟩
  | cons a as ih =>
    intro s m hR hmeets
    rcases h s m a hR hmeets.head with ⟨e, he, hs⟩ | ⟨s', b, m', hs, hspec, hR'⟩
    · exact Or.inl ⟨e, he, run_cons_error hs as⟩
    · rw [run_cons_ok hs]
      rcases ih s' m' hR' (hmeets.tail hs) with ⟨e, he, hr⟩ | ⟨s'', bs, m'', hr, hsteps, hR''⟩
      · exact Or.inl ⟨e, he, by rw [hr]; rfl⟩
      · exact Or.inr ⟨s'', b :: bs, m'', by rw [hr]; rfl, .cons hspec hsteps, hR''⟩

end Machine
