import Mathlib

/-!
# Steps that commute, in another order

Steps of several owners come in any order. The steps of one owner after those of another, in an order
of the owners, do the same when every step commutes with the later steps of the owners that come
before its own.

## Main definitions

* `Commute step a b`: the two steps do the same in either order
* `Before order x y`: an owner that comes before another one

## Main results

* `foldl_split`: the steps of a class first
* `foldl_byOwner`: the steps of one owner after those of another
-/

namespace Reorder

variable {σ α ι : Type*} {step : σ → α → σ} {a : α} {l : List α}

/-- The two steps do the same in either order, in every state. -/
def Commute (step : σ → α → σ) (a b : α) : Prop := ∀ s, step (step s a) b = step (step s b) a

/-- A step behind others that it commutes with. -/
theorem foldl_past (h : ∀ b ∈ l, Commute step a b) (s : σ) :
    l.foldl step (step s a) = step (l.foldl step s) a := by
  induction l generalizing s with
  | nil => rfl
  | cons b l ih =>
    rw [List.foldl_cons, h b List.mem_cons_self s, ih fun c hc => h c (List.mem_cons_of_mem b hc)]
    rfl

/-- The steps of a class first, when each of them commutes with the others before it. -/
theorem foldl_split {p : α → Bool}
    (h : l.Pairwise fun a b => p a = false → p b = true → Commute step a b) (s : σ) :
    l.foldl step s = (l.filter fun a => !p a).foldl step ((l.filter p).foldl step s) := by
  induction l generalizing s with
  | nil => rfl
  | cons a l ih =>
    obtain ⟨hhead, htail⟩ := List.pairwise_cons.mp h
    rw [List.foldl_cons, ih htail]
    cases hp : p a with
    | true =>
      rw [List.filter_cons_of_pos hp, List.filter_cons_of_neg (by simp [hp]), List.foldl_cons]
    | false =>
      rw [List.filter_cons_of_neg (by simp [hp]), List.filter_cons_of_pos (by simp [hp]),
        List.foldl_cons, foldl_past fun b hb => ?_]
      obtain ⟨hb, hpb⟩ := List.mem_filter.mp hb
      exact hhead b hb hp hpb

/-- A first part of the order has the one and not the other. -/
def Before (order : List ι) (x y : ι) : Prop := ∃ early, early <+: order ∧ x ∈ early ∧ y ∉ early

variable {order : List ι} {x y : ι}

theorem Before.mono {order' : List ι} (h : Before order x y) (hbegins : order <+: order') :
    Before order' x y :=
  h.imp fun _ ⟨hearly, hmem⟩ => ⟨hearly.trans hbegins, hmem⟩

/-- Of two first parts one is a part of the other. -/
theorem Before.asymm (h : Before order x y) : ¬ Before order y x := by
  obtain ⟨early, hearly, hx, hy⟩ := h
  rintro ⟨early', hearly', hy', hx'⟩
  rcases List.prefix_or_prefix_of_prefix hearly hearly' with hsub | hsub
  · exact hx' (hsub.subset hx)
  · exact hy (hsub.subset hy')

variable [DecidableEq ι]

/-- The steps of one owner after those of another. -/
def byOwner (owner : α → ι) (order : List ι) (l : List α) : List α :=
  order.flatMap fun t => l.filter fun a => owner a = t

/-- The steps in the order of their owners do what they do in their own order, when every step
commutes with the later ones of the owners before its own. -/
theorem foldl_byOwner {owner : α → ι} (hcover : ∀ a ∈ l, owner a ∈ order) (hnodup : order.Nodup)
    (h : l.Pairwise fun a b => Before order (owner b) (owner a) → Commute step a b) (s : σ) :
    l.foldl step s = (byOwner owner order l).foldl step s := by
  induction order generalizing l s with
  | nil =>
    cases l with
    | nil => rfl
    | cons a l => exact absurd (hcover a List.mem_cons_self) List.not_mem_nil
  | cons t order ih =>
    obtain ⟨ht, hnodup⟩ := List.nodup_cons.mp hnodup
    -- The steps of the first owner come first; the others are those of the rest of the order.
    have hfirst : l.Pairwise fun a b => decide (owner a = t) = false →
        decide (owner b = t) = true → Commute step a b := by
      refine h.imp fun hab ha hb => hab ⟨[t], ?_, ?_, ?_⟩
      · exact (List.prefix_append [t] order)
      · rw [of_decide_eq_true hb]
        exact List.mem_singleton_self t
      · exact fun hmem => of_decide_eq_false ha (List.mem_singleton.mp hmem)
    rw [foldl_split hfirst, byOwner, List.flatMap_cons, List.foldl_append]
    have hrest : ∀ t' ∈ order, (l.filter fun a => owner a = t') =
        (l.filter fun a => !decide (owner a = t)).filter fun a => owner a = t' := by
      intro t' ht'
      rw [List.filter_filter]
      refine List.filter_congr fun a _ => ?_
      by_cases ha : owner a = t'
      · have hne : owner a ≠ t := fun he => ht ((he.symm.trans ha) ▸ ht')
        simp [ha, ha ▸ hne]
      · simp [ha]
    rw [ih (l := l.filter fun a => !decide (owner a = t)) ?_ hnodup ?_, byOwner,
      List.flatMap_congr hrest]
    · intro a ha
      obtain ⟨ha, hne⟩ := List.mem_filter.mp ha
      refine (List.mem_cons.mp (hcover a ha)).resolve_left fun he => ?_
      simp [he] at hne
    · refine (h.filter _).imp_of_mem fun {a b} ha hb hab hbefore => hab ?_
      obtain ⟨early, hearly, hb', ha'⟩ := hbefore
      refine ⟨t :: early, (List.cons_prefix_cons.mpr ⟨rfl, hearly⟩), List.mem_cons_of_mem t hb', ?_⟩
      rintro hmem
      rcases List.mem_cons.mp hmem with he | hmem
      · have hne := (List.mem_filter.mp ha).2
        simp [he] at hne
      · exact ha' hmem

end Reorder
