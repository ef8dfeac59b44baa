import Mathlib

/-!
# Stateful programs that may fault

A program reads and changes a state and returns a value or faults; after a fault the state is the
one the fault left behind. A precondition is computed from a postcondition, one rule for each
statement form, and faults of an allowed kind end a program without any obligation.

## Main definitions

* `Program σ ε α`: the programs over the state `σ` that return an `α` or fault with an `ε`
* `Program.zoom`: a program over a part of the state
* `Program.Preserves I x`: the program keeps `I`, whether it returns or faults
* `Program.wp F x Q`: the states from which `x` returns with `Q`, or faults with an `F`
* `Program.Keeps I x`: the program keeps `I` when it returns

## Main results

* `Program.wp_pure`, `Program.wp_bind`, `Program.wp_zoom`, …: the rules of the statement forms
* `Program.wp_foldlM`: the rule of a loop over a list
* `Program.wp_mono`: the rule of consequence
* `Program.Preserves.bind`, `Program.Preserves.ite`, …: one rule for each statement form
* `Program.Keeps.bind`, `Program.Keeps.foldlM`, …: the same for what a program keeps
-/

/-- A program over the state `σ` that returns an `α` or faults with an `ε`. -/
def Program (σ ε α : Type) : Type := σ → Except ε α × σ

namespace Program

variable {σ τ ε α β : Type}

instance : Monad (Program σ ε) where
  pure a := fun s => (.ok a, s)
  bind x f := fun s =>
    match x s with
    | (.ok a, s) => f a s
    | (.error e, s) => (.error e, s)

/-- The result of a program from a state, and the state it leaves. -/
def run (x : Program σ ε α) (s : σ) : Except ε α × σ := x s

/-- The state. -/
def get : Program σ ε σ := fun s => (.ok s, s)

/-- The state replaced. -/
def set (s : σ) : Program σ ε Unit := fun _ => (.ok (), s)

/-- The state changed by a function. -/
def modify (f : σ → σ) : Program σ ε Unit := fun s => (.ok (), f s)

/-- A fault. -/
def throw (e : ε) : Program σ ε α := fun s => (.error e, s)

/-- A computation that does not touch the state. -/
def lift (x : Except ε α) : Program σ ε α := fun s => (x, s)

/-- A program over a part of the state. -/
def zoom (proj : τ → σ) (put : σ → τ → τ) (x : Program σ ε α) : Program τ ε α := fun t =>
  ((x.run (proj t)).1, put (x.run (proj t)).2 t)

/-- From the state `s` the program returns with `Q`, or it faults with an `F`. -/
def wp (F : ε → Prop) (x : Program σ ε α) (Q : α → σ → Prop) (s : σ) : Prop :=
  match x.run s with
  | (.ok a, s') => Q a s'
  | (.error e, _) => F e

variable {F : ε → Prop} {s : σ}

/-! ## Running programs -/

@[simp] theorem run_pure (a : α) (s : σ) : (pure a : Program σ ε α).run s = (.ok a, s) := rfl

theorem run_pure_eq_ok {a b : α} {s' : σ} :
    (pure a : Program σ ε α).run s = (.ok b, s') ↔ a = b ∧ s = s' := by
  rw [run_pure, Prod.mk.injEq, Except.ok.injEq]

theorem run_lift_eq_ok {x : Except ε α} {b : α} {s' : σ} :
    (lift x : Program σ ε α).run s = (.ok b, s') ↔ x = .ok b ∧ s = s' := Prod.mk.injEq .. ▸ Iff.rfl

theorem run_bind_ok {x : Program σ ε α} {f : α → Program σ ε β} {a : α} {s' : σ}
    (h : x.run s = (.ok a, s')) : (x >>= f).run s = (f a).run s' := by
  show (match x.run s with | (.ok a, s) => f a s | (.error e, s) => (.error e, s)) = _
  rw [h]
  rfl

theorem run_bind_error {x : Program σ ε α} {f : α → Program σ ε β} {e : ε} {s' : σ}
    (h : x.run s = (.error e, s')) : (x >>= f).run s = (.error e, s') := by
  show (match x.run s with | (.ok a, s) => f a s | (.error e, s) => (.error e, s)) = _
  rw [h]

/-- A composition of three parts. -/
theorem bind_assoc {γ : Type} (x : Program σ ε α) (f : α → Program σ ε β) (g : β → Program σ ε γ) :
    x >>= f >>= g = x >>= fun a => f a >>= g := by
  funext s
  show (x >>= f >>= g).run s = (x >>= fun a => f a >>= g).run s
  rcases hx : x.run s with ⟨e | a, s'⟩
  · rw [run_bind_error hx, run_bind_error (run_bind_error hx)]
  · rw [run_bind_ok hx]
    rcases hf : (f a).run s' with ⟨e | b, s''⟩
    · rw [run_bind_error hf, run_bind_error ((run_bind_ok hx).trans hf)]
    · rw [run_bind_ok hf, run_bind_ok ((run_bind_ok hx).trans hf)]

/-- A composition faults in its first part, or in its second part after the first has returned. -/
theorem run_bind_eq_error {x : Program σ ε α} {f : α → Program σ ε β} {e : ε} {s' : σ} :
    (x >>= f).run s = (.error e, s') ↔
      x.run s = (.error e, s') ∨ ∃ a s₁, x.run s = (.ok a, s₁) ∧ (f a).run s₁ = (.error e, s') := by
  rcases hx : x.run s with ⟨e' | a, s₁⟩
  · rw [run_bind_error hx]
    simp
  · rw [run_bind_ok hx]
    simp

/-- A composition returns when its first part does and then its second part. -/
theorem run_bind_eq_ok {x : Program σ ε α} {f : α → Program σ ε β} {b : β} {s' : σ} :
    (x >>= f).run s = (.ok b, s') ↔
      ∃ a s₁, x.run s = (.ok a, s₁) ∧ (f a).run s₁ = (.ok b, s') := by
  rcases hx : x.run s with ⟨e' | a, s₁⟩
  · rw [run_bind_error hx]
    simp
  · rw [run_bind_ok hx]
    simp

/-- A result that is not used. -/
theorem state_discard (x : Program σ ε α) :
    ((x >>= fun _ => (pure () : Program σ ε Unit)).run s).2 = (x.run s).2 := by
  rcases hx : x.run s with ⟨e | a, s'⟩
  · rw [run_bind_error hx]
  · rw [run_bind_ok hx]
    rfl

theorem run_of_result {x : Program σ ε α} {a : α} (h : (x.run s).1 = .ok a) :
    x.run s = (.ok a, (x.run s).2) := by
  rw [← h]

theorem run_get_bind (f : σ → Program σ ε β) : (get >>= f).run s = (f s).run s := rfl

theorem run_modify_bind (g : σ → σ) (f : Unit → Program σ ε β) :
    (modify g >>= f).run s = (f ()).run (g s) := rfl

/-! ## What a program preserves, however it ends -/

/-- From a state with `I` the program leaves a state with `I`, whether it returns or faults. -/
def Preserves (I : σ → Prop) (x : Program σ ε α) : Prop := ∀ s, I s → I (x.run s).2

namespace Preserves

variable {I : σ → Prop}

theorem pure (a : α) : Preserves I (Pure.pure a : Program σ ε α) := fun _ h => h

theorem get : Preserves I (get : Program σ ε σ) := fun _ h => h

theorem throw (e : ε) : Preserves I (throw e : Program σ ε α) := fun _ h => h

theorem modify {f : σ → σ} (hf : ∀ s, I s → I (f s)) : Preserves I (modify f : Program σ ε Unit) :=
  hf

/-- The second part may use that the first one has returned. -/
theorem bind_of_ok {x : Program σ ε α} {f : α → Program σ ε β} (hx : Preserves I x)
    (hf : ∀ {a s s'}, I s → x.run s = (.ok a, s') → I s' → I ((f a).run s').2) :
    Preserves I (x >>= f) := by
  intro s hs
  have hleft := hx s hs
  rcases h : x.run s with ⟨e | a, s'⟩
  · rw [run_bind_error h]
    rwa [h] at hleft
  · rw [run_bind_ok h]
    rw [h] at hleft
    exact hf hs h hleft

theorem bind {x : Program σ ε α} {f : α → Program σ ε β} (hx : Preserves I x)
    (hf : ∀ a, Preserves I (f a)) : Preserves I (x >>= f) :=
  hx.bind_of_ok fun _ _ hs' => hf _ _ hs'

/-- What follows may use what holds of the state that was read. -/
theorem get_bind {f : σ → Program σ ε β} (hf : ∀ s, I s → I ((f s).run s).2) :
    Preserves I (Program.get >>= f) := hf

theorem ite {c : Prop} [Decidable c] {x y : Program σ ε α} (hx : Preserves I x)
    (hy : Preserves I y) : Preserves I (if c then x else y) := by
  split
  · exact hx
  · exact hy

theorem zoom {proj : τ → σ} {put : σ → τ → τ} {J : τ → Prop} {x : Program σ ε α}
    (hx : ∀ t, J t → J (put (x.run (proj t)).2 t)) : Preserves J (zoom proj put x) := hx

theorem foldlM {f : β → α → Program σ ε β} (hf : ∀ b a, Preserves I (f b a)) (xs : List α) (b : β) :
    Preserves I (xs.foldlM f b) := by
  induction xs generalizing b with
  | nil => exact Preserves.pure b
  | cons x xs ih =>
    rw [List.foldlM_cons]
    exact (hf b x).bind ih

end Preserves

/-! ## Preconditions -/

@[simp] theorem wp_pure {Q : α → σ → Prop} (a : α) : wp F (pure a) Q s ↔ Q a s := Iff.rfl

@[simp] theorem wp_get {Q : σ → σ → Prop} : wp F get Q s ↔ Q s s := Iff.rfl

@[simp] theorem wp_set {Q : Unit → σ → Prop} (s' : σ) : wp F (set s') Q s ↔ Q () s' := Iff.rfl

@[simp] theorem wp_modify {Q : Unit → σ → Prop} (f : σ → σ) :
    wp F (modify f) Q s ↔ Q () (f s) := Iff.rfl

@[simp] theorem wp_throw {Q : α → σ → Prop} (e : ε) : wp F (throw e) Q s ↔ F e := Iff.rfl

@[simp] theorem wp_lift_ok {Q : α → σ → Prop} (a : α) : wp F (lift (.ok a)) Q s ↔ Q a s := Iff.rfl

@[simp] theorem wp_lift_error {Q : α → σ → Prop} (e : ε) :
    wp F (lift (.error e)) Q s ↔ F e := Iff.rfl

@[simp] theorem wp_bind {x : Program σ ε α} {f : α → Program σ ε β} {Q : β → σ → Prop} :
    wp F (x >>= f) Q s ↔ wp F x (fun a s' => wp F (f a) Q s') s := by
  unfold wp
  rcases h : x.run s with ⟨_ | a, s'⟩
  · rw [run_bind_error h]
  · rw [run_bind_ok h]

@[simp] theorem wp_zoom {proj : τ → σ} {put : σ → τ → τ} {x : Program σ ε α} {Q : α → τ → Prop}
    {t : τ} : wp F (zoom proj put x) Q t ↔ wp F x (fun a s => Q a (put s t)) (proj t) := by
  have hrun : (zoom proj put x).run t = ((x.run (proj t)).1, put (x.run (proj t)).2 t) := rfl
  unfold wp
  rw [hrun]
  rcases x.run (proj t) with ⟨_ | a, s'⟩ <;> exact Iff.rfl

/-- The rule of consequence. -/
theorem wp_mono {x : Program σ ε α} {Q Q' : α → σ → Prop} (h : wp F x Q s)
    (hQ : ∀ a s', Q a s' → Q' a s') : wp F x Q' s := by
  unfold wp at h ⊢
  rcases hx : x.run s with ⟨_ | a, s'⟩
  · rw [hx] at h; exact h
  · rw [hx] at h; exact hQ a s' h

/-- A sharper set of allowed faults is enough. -/
theorem wp_weaken {G : ε → Prop} {x : Program σ ε α} {Q : α → σ → Prop} (h : wp F x Q s)
    (hF : ∀ e, F e → G e) : wp G x Q s := by
  unfold wp at h ⊢
  rcases hx : x.run s with ⟨e | a, s'⟩
  · rw [hx] at h; exact hF e h
  · rw [hx] at h; exact h

/-- The rule of consequence for a program that does not fault. -/
theorem wp_mono_total {x : Program σ ε α} {Q Q' : α → σ → Prop} (h : wp (fun _ => False) x Q s)
    (hQ : ∀ a s', Q a s' → Q' a s') : wp F x Q' s :=
  wp_mono (wp_weaken h fun _ => False.elim) hQ

/-- Two postconditions together. -/
theorem wp_and {G : ε → Prop} {x : Program σ ε α} {Q Q' : α → σ → Prop} (h : wp F x Q s)
    (h' : wp G x Q' s) : wp F x (fun a s' => Q a s' ∧ Q' a s') s := by
  unfold wp at h h' ⊢
  rcases hx : x.run s with ⟨e | a, s'⟩
  · rw [hx] at h; exact h
  · rw [hx] at h h'; exact ⟨h, h'⟩

/-- A postcondition that holds of everything, when every fault is allowed. -/
theorem wp_of_forall {x : Program σ ε α} {Q : α → σ → Prop} (hF : ∀ e, F e)
    (hQ : ∀ a s', Q a s') : wp F x Q s := by
  unfold wp
  rcases x.run s with ⟨e | a, s'⟩
  · exact hF e
  · exact hQ a s'

/-- A program that returns, returns with what its precondition promises. -/
theorem wp_of_ok {x : Program σ ε α} {Q : α → σ → Prop} {a : α} {s' : σ} (h : wp F x Q s)
    (hx : x.run s = (.ok a, s')) : Q a s' := by
  unfold wp at h
  rw [hx] at h
  exact h

/-- A program that meets its precondition returns, or faults in an allowed way. -/
theorem wp_iff {x : Program σ ε α} {Q : α → σ → Prop} :
    wp F x Q s ↔ (∃ e s', x.run s = (.error e, s') ∧ F e) ∨
      ∃ a s', x.run s = (.ok a, s') ∧ Q a s' := by
  unfold wp
  rcases x.run s with ⟨e | a, s'⟩ <;> simp

/-- A program as a step of a machine: a fault ends the run. -/
def toStep (x : Program σ ε α) (s : σ) : Except ε (σ × α) :=
  match x.run s with
  | (.ok a, s') => .ok (s', a)
  | (.error e, _) => .error e

theorem toStep_of_run {x : Program σ ε α} {a : α} {s' : σ} (h : x.run s = (.ok a, s')) :
    x.toStep s = .ok (s', a) := by
  rw [toStep, h]

theorem run_of_toStep {x : Program σ ε α} {a : α} {s' : σ} (h : x.toStep s = .ok (s', a)) :
    x.run s = (.ok a, s') := by
  unfold toStep at h
  rcases hx : x.run s with ⟨e | b, t⟩
  · rw [hx] at h; cases h
  · rw [hx] at h
    obtain ⟨rfl, rfl⟩ := Prod.mk.inj (Except.ok.inj h)
    rfl

theorem state_of_toStep {x : Program σ ε α} {a : α} {s' : σ} (h : x.toStep s = .ok (s', a)) :
    s' = (x.run s).2 := by
  rw [run_of_toStep h]

/-- A program that meets its precondition, as a step. -/
theorem toStep_of_wp {x : Program σ ε α} {Q : α → σ → Prop} (h : wp F x Q s) :
    (∃ e, F e ∧ x.toStep s = .error e) ∨ ∃ s' a, x.toStep s = .ok (s', a) ∧ Q a s' := by
  rcases wp_iff.mp h with ⟨e, s', hrun, he⟩ | ⟨a, s', hrun, hQ⟩
  · exact Or.inl ⟨e, he, by rw [toStep, hrun]⟩
  · exact Or.inr ⟨s', a, toStep_of_run hrun, hQ⟩

/-- Without allowed faults a program that meets its precondition returns. -/
theorem wp_total {x : Program σ ε α} {Q : α → σ → Prop} :
    wp (fun _ => False) x Q s ↔ ∃ a s', x.run s = (.ok a, s') ∧ Q a s' := by
  simp [wp_iff]

/-- A loop over a list keeps an invariant that speaks of the elements already visited. -/
theorem wp_foldlM {f : β → α → Program σ ε β} (I : List α → β → σ → Prop) (xs : List α)
    (hstep : ∀ done x rest b s, xs = done ++ x :: rest → I done b s →
      wp F (f b x) (fun b' s' => I (done ++ [x]) b' s') s) {b : β} {s : σ} (h : I [] b s) :
    wp F (xs.foldlM f b) (I xs) s := by
  -- The induction runs over the elements still to come; `done` is what has been visited.
  suffices key : ∀ rest done b s, xs = done ++ rest → I done b s →
      wp F (rest.foldlM f b) (I xs) s from key xs [] b s rfl h
  intro rest
  induction rest with
  | nil =>
    intro done b s hxs hI
    rw [List.append_nil] at hxs
    subst hxs
    exact hI
  | cons x rest ih =>
    intro done b s hxs hI
    rw [List.foldlM_cons, wp_bind]
    refine wp_mono (hstep done x rest b s hxs hI) fun b' s' hI' => ?_
    exact ih (done ++ [x]) b' s' (by rw [hxs]; simp) hI'

/-! ## What a program keeps when it returns -/

/-- From a state with `I` the program returns with `I`, if it returns. -/
def Keeps (I : σ → Prop) (x : Program σ ε α) : Prop :=
  ∀ s, I s → wp (fun _ => True) x (fun _ s' => I s') s

namespace Keeps

variable {I : σ → Prop}

theorem pure (a : α) : Keeps I (Pure.pure a : Program σ ε α) := fun _ h => h

theorem get : Keeps I (get : Program σ ε σ) := fun _ h => h

theorem lift (x : Except ε α) : Keeps I (Program.lift x : Program σ ε α) := by
  intro s h
  cases x with
  | error e => trivial
  | ok a => exact h

theorem modify {f : σ → σ} (hf : ∀ s, I s → I (f s)) : Keeps I (modify f : Program σ ε Unit) := hf

theorem bind {x : Program σ ε α} {f : α → Program σ ε β} (hx : Keeps I x)
    (hf : ∀ a, Keeps I (f a)) : Keeps I (x >>= f) := by
  intro s h
  rw [wp_bind]
  exact wp_mono (hx s h) fun a s' h' => hf a s' h'

theorem foldlM {f : β → α → Program σ ε β} (hf : ∀ b a, Keeps I (f b a)) :
    ∀ (as : List α) (b : β), Keeps I (as.foldlM f b)
  | [], b => pure b
  | a :: as, b => by
    rw [List.foldlM_cons]
    exact (hf b a).bind fun b' => foldlM hf as b'

end Keeps

end Program
