import Mathlib

/-!
# Parsers that look one token ahead

A parser takes tokens off the front of its input and returns the rest, or it ends with an error. A
parser that only looks at the first token of what is left is guided by it: what it has taken does not
depend on the tokens behind that one, and where it ends with an error, the error is the same whatever
stands behind the token it looks at. If besides every parser can be completed from wherever it may
stop, the token it looks at is the first one at which no accepted input can go on.

## Main definitions

* `Heads C ts`: the input begins with a token of the class `C`
* `Guided`: parsers that one token guides, with the class of tokens they can be completed with and
  the class of tokens they can be followed by

## Main results

* `Guided.bind`, `Guided.branch`, `Guided.orElse`: one parser behind another, and choices
* `Guided.loop`: loops over the elements of a list
-/

namespace LookAhead

variable {τ ε α β : Type}

/-- The input begins with a token of the class. -/
def Heads (C : τ → Prop) : List τ → Prop
  | [] => False
  | t :: _ => C t

theorem Heads.mono {C D : τ → Prop} (h : ∀ t, C t → D t) : ∀ {ts : List τ}, Heads C ts → Heads D ts
  | _ :: _, ht => h _ ht

/-- The first tokens agree, or the input begins with a token of the class. -/
def Alike (C : τ → Prop) (rest rest' : List τ) : Prop := Heads C rest' ∨ rest'.head? = rest.head?

/-- What completes a parser, in front of what may follow it. -/
structure Completes (Good First Follow : τ → Prop) (f : List τ → Except ε (α × List τ))
    (front : List τ) (more : List τ) (a : α) : Prop where
  good : ∀ t ∈ more, Good t
  parses : ∀ rest, Heads Follow rest → f (front ++ (more ++ rest)) = .ok (a, rest)
  first : front = [] → ∀ rest, Heads Follow rest → Heads First (more ++ rest)

/-- A parser of inputs with a token of the class `End` in them, none of which it takes. It is guided
by the first token of what is left, its errors `Names` that token, and from wherever it stops it is
completed with tokens of the class `Good`; the first of them is in `First` when nothing has been
taken, and in `Follow` are tokens that it may be followed by. -/
structure Guided (End Good : τ → Prop) (Names : ε → τ → Prop) (First Follow : τ → Prop)
    (f : List τ → Except ε (α × List τ)) : Prop where
  start : ∃ more a, Completes Good First Follow f [] more a
  ok : ∀ {ts a rest}, (∃ t ∈ ts, End t) → f ts = .ok (a, rest) → ∃ front, ts = front ++ rest ∧
    (∀ t ∈ front, ¬ End t) ∧ (front = [] → ∀ t, Follow t → First t) ∧
    ∀ rest', Alike Follow rest rest' → f (front ++ rest') = .ok (a, rest')
  error : ∀ {ts e}, (∃ t ∈ ts, End t) → f ts = .error e → ∃ front t rest,
    ts = front ++ t :: rest ∧ Names e t ∧ (∀ t ∈ front, ¬ End t) ∧
    (∀ rest', f (front ++ t :: rest') = .error e) ∧
    ∃ more a, Completes Good First Follow f front more a

section Guided

variable {End Good : τ → Prop} {Names : ε → τ → Prop} {First First' Follow Follow' : τ → Prop}
  {f : List τ → Except ε (α × List τ)}

/-- What the parser leaves has a token of the class `End` too. -/
theorem end_of_append {front rest : List τ} (h : ∃ t ∈ front ++ rest, End t)
    (hfront : ∀ t ∈ front, ¬ End t) : ∃ t ∈ rest, End t := by
  obtain ⟨t, ht, hend⟩ := h
  rcases List.mem_append.mp ht with ht | ht
  · exact absurd hend (hfront t ht)
  · exact ⟨t, ht, hend⟩

/-- What stands in front of what follows, when the parser behind it has taken something or begins
with a token that may follow. -/
theorem alike_append {front rest rest' : List τ} (hrest : front = [] → Alike Follow rest rest') :
    Alike Follow (front ++ rest) (front ++ rest') := by
  cases front with
  | nil => exact hrest rfl
  | cons t front => exact Or.inr rfl

theorem Guided.pure (a : α) : Guided End Good Names Follow Follow
    (fun ts => (.ok (a, ts) : Except ε (α × List τ))) where
  start := ⟨[], a, by simp, fun _ _ => rfl, fun _ _ h => h⟩
  ok := by
    rintro ts _ _ _ ⟨⟩
    exact ⟨[], rfl, by simp, fun _ _ h => h, fun _ _ => rfl⟩
  error := fun _ h => by cases h

/-- One parser behind the other. -/
theorem Guided.bind {k : α × List τ → Except ε (β × List τ)}
    (hf : Guided End Good Names First Follow' f)
    (hk : ∀ a, Guided End Good Names First' Follow fun ts => k (a, ts))
    (hsub : ∀ t, First' t → Follow' t) : Guided End Good Names First Follow fun ts => f ts >>= k where
  start := by
    obtain ⟨more, a, hmore⟩ := hf.start
    obtain ⟨more', b, hmore'⟩ := (hk a).start
    refine ⟨more ++ more', b, ?_, fun rest hrest => ?_, fun _ rest hrest => ?_⟩
    · exact List.forall_mem_append.mpr ⟨hmore.good, hmore'.good⟩
    · have hhead := (hmore'.first rfl rest hrest).mono hsub
      have hparse := hmore.parses _ hhead
      simp only [List.nil_append, List.append_assoc] at hparse ⊢
      rw [hparse]
      exact hmore'.parses rest hrest
    · rw [List.append_assoc]
      exact hmore.first rfl _ ((hmore'.first rfl rest hrest).mono hsub)
  ok := by
    intro ts b rest hend h
    cases hfts : f ts with
    | error e => rw [hfts] at h; cases h
    | ok r =>
      obtain ⟨a, mid⟩ := r
      rw [hfts] at h
      obtain ⟨front, rfl, hfront, hempty, hf'⟩ := hf.ok hend hfts
      obtain ⟨front', rfl, hfront', hempty', hk'⟩ := (hk a).ok (end_of_append hend hfront) h
      refine ⟨front ++ front', by rw [List.append_assoc], ?_, fun hnil t ht => ?_,
        fun rest' hrest' => ?_⟩
      · exact List.forall_mem_append.mpr ⟨hfront, hfront'⟩
      · obtain ⟨rfl, rfl⟩ := List.append_eq_nil_iff.mp hnil
        exact hempty rfl t (hsub t (hempty' rfl t ht))
      · have halike : Alike Follow' (front' ++ rest) (front' ++ rest') := by
          refine alike_append fun hnil => hrest'.imp (fun hhead => ?_) id
          exact hhead.mono fun t ht => hsub t (hempty' hnil t ht)
        rw [List.append_assoc, hf' _ halike]
        exact hk' _ hrest'
  error := by
    intro ts e hend h
    cases hfts : f ts with
    | error e' =>
      rw [hfts] at h
      obtain rfl : e' = e := Except.error.inj h
      obtain ⟨front, t, rest, rfl, hnames, hfront, hsame, more, a, hmore⟩ := hf.error hend hfts
      obtain ⟨more', b, hmore'⟩ := (hk a).start
      refine ⟨front, t, rest, rfl, hnames, hfront, fun rest' => by rw [hsame]; rfl, more ++ more', b,
        ?_, fun rest hrest => ?_, fun hnil rest hrest => ?_⟩
      · exact List.forall_mem_append.mpr ⟨hmore.good, hmore'.good⟩
      · have hparse := hmore.parses _ ((hmore'.first rfl rest hrest).mono hsub)
        rw [List.append_assoc, hparse]
        exact hmore'.parses rest hrest
      · rw [List.append_assoc]
        exact hmore.first hnil _ ((hmore'.first rfl rest hrest).mono hsub)
    | ok r =>
      obtain ⟨a, mid⟩ := r
      rw [hfts] at h
      obtain ⟨front, rfl, hfront, hempty, hf'⟩ := hf.ok hend hfts
      obtain ⟨front', t, rest, rfl, hnames, hfront', hsame, more, b, hmore⟩ :=
        (hk a).error (end_of_append hend hfront) h
      refine ⟨front ++ front', t, rest, by rw [List.append_assoc], hnames, ?_, fun rest' => ?_, more,
        b, hmore.good, fun rest' hrest' => ?_, fun hnil rest' hrest' => ?_⟩
      · exact List.forall_mem_append.mpr ⟨hfront, hfront'⟩
      · have halike : Alike Follow' (front' ++ t :: rest) (front' ++ t :: rest') :=
          alike_append fun _ => Or.inr rfl
        rw [List.append_assoc, hf' _ halike]
        exact hsame rest'
      · have halike : Alike Follow' (front' ++ t :: rest) (front' ++ (more ++ rest')) :=
          alike_append fun hnil => Or.inl ((hmore.first hnil rest' hrest').mono hsub)
        rw [List.append_assoc, hf' _ halike]
        exact hmore.parses rest' hrest'
      · obtain ⟨rfl, rfl⟩ := List.append_eq_nil_iff.mp hnil
        exact (hmore.first rfl rest' hrest').mono fun t ht => hempty rfl t (hsub t ht)

/-- A parser of a single token. -/
theorem Guided.token {accepts : τ → Prop} {e : τ → ε} (value : τ → α) (t₀ : τ)
    (haccepts : ∀ t ts, accepts t → f (t :: ts) = .ok (value t, ts))
    (hrejects : ∀ t ts, ¬ accepts t → f (t :: ts) = .error (e t)) (hnames : ∀ t, Names (e t) t)
    (hend : ∀ t, accepts t → ¬ End t) (ht₀ : accepts t₀) (hgood : Good t₀) :
    Guided End Good Names accepts Follow f := by
  have hmore : Completes Good accepts Follow f [] [t₀] (value t₀) :=
    ⟨by simpa using hgood, fun rest _ => haccepts t₀ rest ht₀, fun _ _ _ => ht₀⟩
  refine ⟨⟨_, _, hmore⟩, ?_, ?_⟩
  · intro ts a rest hts h
    cases ts with
    | nil => simp at hts
    | cons t ts =>
      by_cases ht : accepts t
      · rw [haccepts t ts ht] at h
        obtain ⟨rfl, rfl⟩ := Prod.mk.inj (Except.ok.inj h)
        exact ⟨[t], rfl, by simpa using hend t ht, by simp, fun rest' _ => haccepts t rest' ht⟩
      · rw [hrejects t ts ht] at h
        cases h
  · intro ts e' hts h
    cases ts with
    | nil => simp at hts
    | cons t ts =>
      by_cases ht : accepts t
      · rw [haccepts t ts ht] at h
        cases h
      · rw [hrejects t ts ht] at h
        obtain rfl := Except.error.inj h
        exact ⟨[], t, ts, rfl, hnames t, by simp, fun rest' => hrejects t rest' ht, _, _, hmore⟩

/-- The first token is the same one, or there is another one of the class. -/
theorem heads_append {c : τ → Prop} {front rest rest' : List τ} (h : Heads c (front ++ rest))
    (hrest : front = [] → Heads c rest') : Heads c (front ++ rest') := by
  cases front with
  | nil => exact hrest rfl
  | cons t front => exact h

section Branches

variable {k : List τ → Except ε (α × List τ)} {c D : τ → Prop}

/-- A parser that is another one where the first token asks for it is completed like that one. -/
theorem Completes.on (hk : ∀ ts, Heads c ts → k ts = f ts) (hfirst : ∀ t, First t → c t ∧ D t)
    {front more : List τ} {a : α} (h : Completes Good First Follow f front more a)
    (hfront : front = [] ∨ Heads c front) : Completes Good D Follow k front more a := by
  refine ⟨h.good, fun rest hrest => ?_, fun hnil rest hrest =>
    (h.first hnil rest hrest).mono fun t ht => (hfirst t ht).2⟩
  rw [hk, h.parses rest hrest]
  rcases hfront with rfl | hfront
  · exact (h.first rfl rest hrest).mono fun t ht => (hfirst t ht).1
  · cases front with
    | nil => cases hfront
    | cons t front => exact hfront

theorem Guided.ok_on (hf : Guided End Good Names First Follow f) (hk : ∀ ts, Heads c ts → k ts = f ts)
    (hfirst : ∀ t, First t → c t ∧ D t) {ts rest : List τ} {a : α} (hts : Heads c ts)
    (hend : ∃ t ∈ ts, End t) (h : k ts = .ok (a, rest)) : ∃ front, ts = front ++ rest ∧
      (∀ t ∈ front, ¬ End t) ∧ (front = [] → ∀ t, Follow t → D t) ∧
      ∀ rest', Alike Follow rest rest' → k (front ++ rest') = .ok (a, rest') := by
  rw [hk ts hts] at h
  obtain ⟨front, rfl, hfront, hempty, hf'⟩ := hf.ok hend h
  refine ⟨front, rfl, hfront, fun hnil t ht => (hfirst t (hempty hnil t ht)).2,
    fun rest' hrest' => ?_⟩
  rw [hk, hf' rest' hrest']
  refine heads_append hts fun hnil => ?_
  subst hnil
  rcases hrest' with hhead | hhead
  · exact hhead.mono fun t ht => (hfirst t (hempty rfl t ht)).1
  · cases rest with
    | nil => cases hts
    | cons t rest =>
      cases rest' with
      | nil => cases hhead
      | cons t' rest' =>
        obtain rfl : t' = t := Option.some.inj hhead
        exact hts

theorem Guided.error_on (hf : Guided End Good Names First Follow f)
    (hk : ∀ ts, Heads c ts → k ts = f ts) (hfirst : ∀ t, First t → c t ∧ D t) {ts : List τ} {e : ε}
    (hts : Heads c ts) (hend : ∃ t ∈ ts, End t) (h : k ts = .error e) : ∃ front t rest,
      ts = front ++ t :: rest ∧ Names e t ∧ (∀ t ∈ front, ¬ End t) ∧
      (∀ rest', k (front ++ t :: rest') = .error e) ∧
      ∃ more a, Completes Good D Follow k front more a := by
  rw [hk ts hts] at h
  obtain ⟨front, t, rest, rfl, hnames, hfront, hsame, more, a, hmore⟩ := hf.error hend h
  refine ⟨front, t, rest, rfl, hnames, hfront, fun rest' => ?_, more, a, hmore.on hk hfirst ?_⟩
  · rw [hk, hsame]
    refine heads_append hts fun hnil => ?_
    subst hnil
    exact hts
  · cases front with
    | nil => exact Or.inl rfl
    | cons t front => exact Or.inr hts

/-- A choice by the first token. -/
theorem Guided.branch {g : List τ → Except ε (α × List τ)}
    (hf : Guided End Good Names First Follow f) (hg : Guided End Good Names First' Follow g)
    (c c' : τ → Prop) (hk : ∀ ts, Heads c ts → k ts = f ts) (hk' : ∀ ts, Heads c' ts → k ts = g ts)
    (hcases : ∀ t, c t ∨ c' t) (hfirst : ∀ t, First t → c t) (hfirst' : ∀ t, First' t → c' t) :
    Guided End Good Names (fun t => First t ∨ First' t) Follow k := by
  have hleft : ∀ t, First t → c t ∧ (First t ∨ First' t) := fun t ht => ⟨hfirst t ht, Or.inl ht⟩
  have hright : ∀ t, First' t → c' t ∧ (First t ∨ First' t) := fun t ht => ⟨hfirst' t ht, Or.inr ht⟩
  have hhead : ∀ {ts : List τ}, (∃ t ∈ ts, End t) → Heads c ts ∨ Heads c' ts := by
    intro ts hend
    cases ts with
    | nil => simp at hend
    | cons t ts => exact hcases t
  refine ⟨?_, ?_, ?_⟩
  · obtain ⟨more, a, hmore⟩ := hf.start
    exact ⟨more, a, hmore.on hk hleft (Or.inl rfl)⟩
  · intro ts a rest hend h
    rcases hhead hend with hts | hts
    · exact hf.ok_on hk hleft hts hend h
    · exact hg.ok_on hk' hright hts hend h
  · intro ts e hend h
    rcases hhead hend with hts | hts
    · exact hf.error_on hk hleft hts hend h
    · exact hg.error_on hk' hright hts hend h

theorem Guided.mono (hf : Guided End Good Names First Follow f) (hfirst : ∀ t, First t → D t) :
    Guided End Good Names D Follow f := by
  refine ⟨?_, fun hend h => ?_, fun hend h => ?_⟩
  · obtain ⟨more, a, hmore⟩ := hf.start
    exact ⟨more, a, hmore.good, hmore.parses, fun hnil rest hrest =>
      (hmore.first hnil rest hrest).mono hfirst⟩
  · obtain ⟨front, heq, hfront, hempty, hf'⟩ := hf.ok hend h
    exact ⟨front, heq, hfront, fun hnil t ht => hfirst t (hempty hnil t ht), hf'⟩
  · obtain ⟨front, t, rest, heq, hnames, hfront, hsame, more, a, hmore⟩ := hf.error hend h
    exact ⟨front, t, rest, heq, hnames, hfront, hsame, more, a, hmore.good, hmore.parses,
      fun hnil rest hrest => (hmore.first hnil rest hrest).mono hfirst⟩

/-- A parser where the first token asks for it, and an error otherwise. -/
theorem Guided.orElse {e : τ → ε} (hf : Guided End Good Names First Follow f)
    (hk : ∀ ts, Heads c ts → k ts = f ts) (hnot : ∀ t ts, ¬ c t → k (t :: ts) = .error (e t))
    (hnames : ∀ t, Names (e t) t) (hfirst : ∀ t, First t → c t) :
    Guided End Good Names First Follow k := by
  have hleft : ∀ t, First t → c t ∧ First t := fun t ht => ⟨hfirst t ht, ht⟩
  obtain ⟨more, a, hmore⟩ := hf.start
  have hstart := hmore.on hk hleft (Or.inl rfl)
  refine ⟨⟨more, a, hstart⟩, ?_, ?_⟩
  · intro ts a rest hend h
    cases ts with
    | nil => simp at hend
    | cons t ts =>
      by_cases ht : c t
      · exact hf.ok_on hk hleft ht hend h
      · rw [hnot t ts ht] at h
        cases h
  · intro ts e' hend h
    cases ts with
    | nil => simp at hend
    | cons t ts =>
      by_cases ht : c t
      · exact hf.error_on hk hleft ht hend h
      · rw [hnot t ts ht] at h
        obtain rfl := Except.error.inj h
        exact ⟨[], t, ts, rfl, hnames t, by simp, fun rest' => hnot t rest' ht, more, a, hstart⟩

end Branches

/-! ## Loops -/

theorem heads_or_not {C : τ → Prop} {ts : List τ} (hend : ∃ t ∈ ts, End t) :
    Heads C ts ∨ Heads (fun t => ¬ C t) ts := by
  cases ts with
  | nil => simp at hend
  | cons t ts => exact em (C t)

theorem Alike.heads {C : τ → Prop} {rest rest' : List τ} (h : Alike C rest rest')
    (hrest : Heads C rest) : Heads C rest' := by
  rcases h with h | h
  · exact h
  · cases rest with
    | nil => cases hrest
    | cons t rest =>
      cases rest' with
      | nil => cases h
      | cons t' rest' =>
        obtain rfl : t' = t := Option.some.inj h
        exact hrest

section Loop

variable {Stop : τ → Prop}

/-- A round of the loop takes something. -/
theorem Guided.round (hf : Guided End Good Names First Follow f)
    (hne : ∀ {ts a rest}, f ts = .ok (a, rest) → rest.length < ts.length) {ts mid : List τ} {a : α}
    (hend : ∃ t ∈ ts, End t) (hts : Heads (fun t => ¬ Stop t) ts) (h : f ts = .ok (a, mid)) :
    ∃ front, ts = front ++ mid ∧ (∀ t ∈ front, ¬ End t) ∧ Heads (fun t => ¬ Stop t) front ∧
      ∀ mid', Alike Follow mid mid' → f (front ++ mid') = .ok (a, mid') := by
  obtain ⟨front, rfl, hfront, -, hf'⟩ := hf.ok hend h
  refine ⟨front, rfl, hfront, ?_, hf'⟩
  cases front with
  | nil => exact absurd (hne h) (Nat.lt_irrefl _)
  | cons t front => exact hts

theorem heads_left {C : τ → Prop} {front : List τ} (h : Heads C front) (rest : List τ) :
    Heads C (front ++ rest) := by
  cases front with
  | nil => cases h
  | cons t front => exact h

/-- A loop that stops at a token of the class `Stop` and parses an element otherwise. -/
theorem Guided.loop (hf : Guided End Good Names First Follow f)
    (go : β → List τ → Except ε (β × List τ)) (add : β → α → β)
    (hstop : ∀ acc ts, Heads Stop ts → go acc ts = .ok (acc, ts))
    (hstep : ∀ acc ts, Heads (fun t => ¬ Stop t) ts → go acc ts =
      f ts >>= fun r => go (add acc r.1) r.2)
    (hne : ∀ {ts a rest}, f ts = .ok (a, rest) → rest.length < ts.length)
    (hfollow : ∀ t, Stop t → Follow t) (acc : β) :
    Guided End Good Names Stop Stop (go acc) := by
  have hdone : ∀ acc, Completes Good Stop Stop (go acc) [] [] acc := fun acc =>
    ⟨by simp, fun rest hrest => hstop acc rest hrest, fun _ _ hrest => hrest⟩
  refine ⟨⟨[], acc, hdone acc⟩, ?_, ?_⟩
  · intro ts
    induction hn : ts.length using Nat.strong_induction_on generalizing ts acc with
    | _ n ih =>
      intro b rest hend h
      rcases heads_or_not (C := Stop) hend with hts | hts
      · rw [hstop acc ts hts] at h
        obtain ⟨rfl, rfl⟩ := Prod.mk.inj (Except.ok.inj h)
        exact ⟨[], rfl, by simp, fun _ _ ht => ht, fun rest' hrest' =>
          hstop acc rest' (hrest'.heads hts)⟩
      · rw [hstep acc ts hts] at h
        cases hfts : f ts with
        | error e => rw [hfts] at h; cases h
        | ok r =>
          obtain ⟨a, mid⟩ := r
          rw [hfts] at h
          obtain ⟨front, rfl, hfront, hhead, hf'⟩ := hf.round hne hend hts hfts
          obtain ⟨front', rfl, hfront', -, hloop⟩ :=
            ih mid.length (hn ▸ hne hfts) (add acc a) rfl (end_of_append hend hfront) h
          refine ⟨front ++ front', by rw [List.append_assoc],
            List.forall_mem_append.mpr ⟨hfront, hfront'⟩, fun hnil => ?_, fun rest' hrest' => ?_⟩
          · rw [(List.append_eq_nil_iff.mp hnil).1] at hhead
            cases hhead
          · have halike : Alike Follow (front' ++ rest) (front' ++ rest') :=
              alike_append fun _ => hrest'.imp (Heads.mono hfollow) id
            rw [List.append_assoc, hstep _ _ (heads_left hhead _), hf' _ halike]
            exact hloop rest' hrest'
  · intro ts
    induction hn : ts.length using Nat.strong_induction_on generalizing ts acc with
    | _ n ih =>
      intro e hend h
      rcases heads_or_not (C := Stop) hend with hts | hts
      · rw [hstop acc ts hts] at h
        cases h
      · rw [hstep acc ts hts] at h
        cases hfts : f ts with
        | error e' =>
          rw [hfts] at h
          obtain rfl : e' = e := Except.error.inj h
          obtain ⟨front, t, rest, rfl, hnames, hfront, hsame, more, a, hmore⟩ := hf.error hend hfts
          have hsame' : ∀ rest', go acc (front ++ t :: rest') = .error e' := by
            intro rest'
            rw [hstep, hsame]
            · rfl
            · exact heads_append hts fun hnil => by subst hnil; exact hts
          refine ⟨front, t, rest, rfl, hnames, hfront, hsame', ?_⟩
          cases front with
          | nil => exact ⟨[], acc, hdone acc⟩
          | cons t' front =>
            refine ⟨more, add acc a, hmore.good, fun rest' hrest' => ?_, fun hnil => by cases hnil⟩
            have hts' : Heads (fun t => ¬ Stop t) (t' :: front ++ (more ++ rest')) := hts
            rw [hstep _ _ hts', hmore.parses rest' (hrest'.mono hfollow)]
            exact hstop _ rest' hrest'
        | ok r =>
          obtain ⟨a, mid⟩ := r
          rw [hfts] at h
          obtain ⟨front, rfl, hfront, hhead, hf'⟩ := hf.round hne hend hts hfts
          obtain ⟨front', t, rest, rfl, hnames, hfront', hsame, more, b, hmore⟩ :=
            ih mid.length (hn ▸ hne hfts) (add acc a) rfl (end_of_append hend hfront) h
          refine ⟨front ++ front', t, rest, by rw [List.append_assoc], hnames,
            List.forall_mem_append.mpr ⟨hfront, hfront'⟩, fun rest' => ?_, more, b, hmore.good,
            fun rest' hrest' => ?_, fun hnil => ?_⟩
          · have halike : Alike Follow (front' ++ t :: rest) (front' ++ t :: rest') :=
              alike_append fun _ => Or.inr rfl
            rw [List.append_assoc, hstep _ _ (heads_left hhead _), hf' _ halike]
            exact hsame rest'
          · have halike : Alike Follow (front' ++ t :: rest) (front' ++ (more ++ rest')) :=
              alike_append fun hnil => Or.inl ((hmore.first hnil rest' hrest').mono hfollow)
            rw [List.append_assoc, hstep _ _ (heads_left hhead _), hf' _ halike]
            exact hmore.parses rest' hrest'
          · rw [(List.append_eq_nil_iff.mp hnil).1] at hhead
            cases hhead

/-- A loop with more fuel than tokens does not run out of it. -/
theorem fuel_eq {run : ℕ → List τ → β → Except ε (β × List τ)} {add : β → α → β}
    (hnil : ∀ fuel acc, run (fuel + 1) [] acc = run 1 [] acc)
    (hstop : ∀ fuel ts acc, Heads Stop ts → run (fuel + 1) ts acc = .ok (acc, ts))
    (hstep : ∀ fuel ts acc, Heads (fun t => ¬ Stop t) ts → run (fuel + 1) ts acc =
      f ts >>= fun r => run fuel r.2 (add acc r.1))
    (hne : ∀ {ts a rest}, f ts = .ok (a, rest) → rest.length < ts.length) :
    ∀ {fuel fuel' : ℕ} {ts : List τ} (acc : β), ts.length < fuel → ts.length < fuel' →
      run fuel ts acc = run fuel' ts acc
  | fuel + 1, fuel' + 1, [], acc, _, _ => (hnil fuel acc).trans (hnil fuel' acc).symm
  | fuel + 1, fuel' + 1, t :: ts, acc, h, h' => by
    by_cases ht : Stop t
    · rw [hstop fuel (t :: ts) acc ht, hstop fuel' (t :: ts) acc ht]
    · rw [hstep fuel (t :: ts) acc ht, hstep fuel' (t :: ts) acc ht]
      cases hfts : f (t :: ts) with
      | error e => rfl
      | ok r =>
        have hlt := hne hfts
        exact fuel_eq hnil hstop hstep hne (add acc r.1) (by omega) (by omega)

/-- A loop that runs on fuel, with more of it than tokens. -/
theorem Guided.fueled (hf : Guided End Good Names First Follow f)
    {run : ℕ → List τ → β → Except ε (β × List τ)} (add : β → α → β)
    (hnil : ∀ fuel acc, run (fuel + 1) [] acc = run 1 [] acc)
    (hstop : ∀ fuel ts acc, Heads Stop ts → run (fuel + 1) ts acc = .ok (acc, ts))
    (hstep : ∀ fuel ts acc, Heads (fun t => ¬ Stop t) ts → run (fuel + 1) ts acc =
      f ts >>= fun r => run fuel r.2 (add acc r.1))
    (hne : ∀ {ts a rest}, f ts = .ok (a, rest) → rest.length < ts.length)
    (hfollow : ∀ t, Stop t → Follow t) (acc : β) :
    Guided End Good Names Stop Stop (fun ts => run (ts.length + 1) ts acc) := by
  refine hf.loop (fun acc ts => run (ts.length + 1) ts acc) add
    (fun acc ts hts => hstop ts.length ts acc hts) (fun acc ts hts => ?_) hne hfollow acc
  rw [hstep ts.length ts acc hts]
  cases hfts : f ts with
  | error e => rfl
  | ok r => exact fuel_eq hnil hstop hstep hne (add acc r.1) (hne hfts) (Nat.lt_succ_self _)

end Loop

end Guided

end LookAhead
