import MiniDB.Foundations.Program

/-!
# Programs taken apart into atomic steps

A program is a function from states to states and shows nothing of what lies between. A resumption
is a program with its moments: it is over, or it makes one atomic change and goes on from there. The
states it passes through are then a list, and an invariant of all of them is proved by one rule for
each statement form, together with what holds at the end.

## Main definitions

* `Resumption σ ε α`: the resumptions over the state `σ` that return an `α` or fault with an `ε`
* `Resumption.atomic`: a program as one step
* `Resumption.run`: the program a resumption is a version of
* `Resumption.visited`: the states it passes through, the first and the last one included
* `Resumption.Always I F x Q`: the states from which `x` passes through states with `I` only and
  returns with `Q`, or faults with an `F`

## Main results

* `Resumption.run_bind`, `Resumption.run_atomic`: the program of a resumption, part by part
* `Resumption.always_iff`: what `Always` says of the states visited and of the program
* `Resumption.Always.bind`, `Resumption.Always.atomic`: the rules of the statement forms
-/

/-- A program over the state `σ` in atomic steps. What follows a step depends on the state before
it. -/
inductive Resumption (σ ε α : Type) : Type
  | done (a : α)
  | fail (e : ε)
  | step (change : σ → σ) (next : σ → Resumption σ ε α)

namespace Resumption

variable {σ ε α β : Type}

/-- One resumption after the other. -/
def andThen : Resumption σ ε α → (α → Resumption σ ε β) → Resumption σ ε β
  | done a, f => f a
  | fail e, _ => fail e
  | step change next, f => step change fun s => andThen (next s) f

instance : Monad (Resumption σ ε) where
  pure := done
  bind := andThen

/-- A computation that takes no step. -/
def lift : Except ε α → Resumption σ ε α
  | .ok a => done a
  | .error e => fail e

/-- A program as one step. -/
def atomic (x : Program σ ε α) : Resumption σ ε α :=
  step (fun s => (x.run s).2) fun s => lift (x.run s).1

/-- The program a resumption is a version of. -/
def run : Resumption σ ε α → Program σ ε α
  | done a => pure a
  | fail e => Program.throw e
  | step change next => fun s => (run (next s)).run (change s)

/-- The states a resumption passes through. -/
def visited : Resumption σ ε α → σ → List σ
  | done _, s => [s]
  | fail _, s => [s]
  | step change next, s => s :: visited (next s) (change s)

/-- Every state visited from `s` on has `I`; at the end there is a result with `Q`, or a fault with
`F`. -/
def Always (I : σ → Prop) (F : ε → Prop) : Resumption σ ε α → (α → σ → Prop) → σ → Prop
  | done a, Q, s => I s ∧ Q a s
  | fail e, _, s => I s ∧ F e
  | step change next, Q, s => I s ∧ Always I F (next s) Q (change s)

/-! ## The program of a resumption -/

@[simp] theorem run_pure (a : α) : (pure a : Resumption σ ε α).run = pure a := rfl

theorem run_bind (x : Resumption σ ε α) (f : α → Resumption σ ε β) :
    (x >>= f).run = x.run >>= fun a => (f a).run := by
  show (andThen x f).run = _
  induction x with
  | done a => rfl
  | fail e => rfl
  | step change next ih =>
    funext s
    show (andThen (next s) f).run.run (change s) = _
    rw [ih s]
    rfl

theorem run_discard (x : Resumption σ ε α) : (discard x).run = discard x.run := run_bind x _

@[simp] theorem run_lift (x : Except ε α) : (lift x : Resumption σ ε α).run = Program.lift x := by
  cases x <;> rfl

@[simp] theorem run_atomic (x : Program σ ε α) : (atomic x).run = x := by
  funext s
  show (lift (x.run s).1).run.run (x.run s).2 = x.run s
  rw [run_lift]
  rfl

/-! ## What holds at every moment -/

section Always

variable {I : σ → Prop} {F : ε → Prop} {Q : α → σ → Prop} {s : σ}

theorem always_iff {x : Resumption σ ε α} : Always I F x Q s ↔
    (∀ t ∈ x.visited s, I t) ∧ Program.wp F x.run Q s := by
  induction x generalizing s with
  | done a => simp [Always, visited, run]
  | fail e => simp [Always, visited, run]
  | step change next ih =>
    have hrun : Program.wp F (step change next).run Q s ↔
        Program.wp F (next s).run Q (change s) := Iff.rfl
    rw [Always, visited, List.forall_mem_cons, ih, hrun, and_assoc]

/-- The first moment. -/
theorem Always.start {x : Resumption σ ε α} (h : Always I F x Q s) : I s := by
  cases x <;> exact h.1

/-- The rule of consequence. -/
theorem Always.mono {x : Resumption σ ε α} {Q' : α → σ → Prop} (h : Always I F x Q s)
    (hQ : ∀ a s', Q a s' → Q' a s') : Always I F x Q' s := by
  rw [always_iff] at h ⊢
  exact ⟨h.1, Program.wp_mono h.2 hQ⟩

theorem Always.pure {a : α} (hI : I s) (hQ : Q a s) :
    Always I F (Pure.pure a : Resumption σ ε α) Q s := ⟨hI, hQ⟩

theorem Always.bind {x : Resumption σ ε α} {f : α → Resumption σ ε β} {Q' : β → σ → Prop}
    (h : Always I F x (fun a s' => Always I F (f a) Q' s') s) : Always I F (x >>= f) Q' s := by
  show Always I F (andThen x f) Q' s
  induction x generalizing s with
  | done a => exact h.2
  | fail e => exact h
  | step change next ih => exact ⟨h.1, ih _ h.2⟩

/-- A result that is not used. -/
theorem Always.discard {x : Resumption σ ε α} {Q' : Unit → σ → Prop}
    (h : Always I F x (fun _ s' => I s' ∧ Q' () s') s) : Always I F (discard x) Q' s :=
  .bind (h.mono fun _ _ hQ => .pure hQ.1 hQ.2)

/-- A computation that may fault only in an allowed way. -/
theorem Always.lift {x : Except ε α} (hI : I s) (hF : ∀ e, x = .error e → F e)
    (hQ : ∀ a, x = .ok a → Q a s) : Always I F (lift x : Resumption σ ε α) Q s := by
  cases x with
  | error e => exact ⟨hI, hF e rfl⟩
  | ok a => exact ⟨hI, hQ a rfl⟩

/-- A step that leaves a state with `I`, however it ends. -/
theorem Always.atomic {x : Program σ ε α} (hI : I s) (hI' : I (x.run s).2)
    (hQ : Program.wp F x Q s) : Always I F (atomic x) Q s := by
  refine ⟨hI, ?_⟩
  show Always I F (Resumption.lift (x.run s).1) Q (x.run s).2
  rcases Program.wp_iff.mp hQ with ⟨e, s', hrun, he⟩ | ⟨a, s', hrun, ha⟩
  · rw [hrun] at hI' ⊢
    exact ⟨hI', he⟩
  · rw [hrun] at hI' ⊢
    exact ⟨hI', ha⟩

/-- A step that does not fault. -/
theorem Always.atomic_total {x : Program σ ε α} (hI : I s)
    (h : Program.wp (fun _ => False) x (fun a s' => I s' ∧ Q a s') s) :
    Always I F (Resumption.atomic x) Q s := by
  obtain ⟨a, s', hrun, hI', hQ⟩ := Program.wp_total.mp h
  refine .atomic hI ?_ ?_
  · rw [hrun]
    exact hI'
  · rw [Program.wp, hrun]
    exact hQ

end Always

end Resumption
