import Mathlib

/-!
# The order of last releases

A machine holds keys, each some number of times, and keeps a queue of keys that it does not hold. A
call releases a key when the key was held before it and is not held after it. If every call takes
keys out of the queue or puts the one key that it releases at the front, then the queue is in the
order of the last releases, the most recent one first, after every run.

## Main definitions

* `Releases`, `LastRelease`: the calls of a run that release a key, and the last one of them
* `Moves held queue s s'`: what a call may do to the queue
* `InOrder`: the queue is in the order of the last releases

## Main results

* `inOrder_run`: every run
* `InOrder.earliest`: the key at the end of the queue was released first
-/

namespace Recency

variable {σ α κ : Type} {step : σ → α → σ} {held : σ → κ → ℕ} {queue : σ → List κ} {s : σ}
  {calls : List α} {a : α} {key : κ} {k : ℕ}

/-- The call number `k` of the run releases the key. -/
def Releases (step : σ → α → σ) (held : σ → κ → ℕ) (s : σ) (calls : List α) (k : ℕ) (key : κ) :
    Prop :=
  k < calls.length ∧ held ((calls.take k).foldl step s) key ≠ 0 ∧
    held ((calls.take (k + 1)).foldl step s) key = 0

/-- The call number `k` is the last one of the run that releases the key. -/
def LastRelease (step : σ → α → σ) (held : σ → κ → ℕ) (s : σ) (calls : List α) (key : κ) (k : ℕ) :
    Prop :=
  Releases step held s calls k key ∧ ∀ k', Releases step held s calls k' key → k' ≤ k

/-- A call takes keys out of the queue and releases none, or it releases one key and puts it at the
front. -/
inductive Moves (held : σ → κ → ℕ) (queue : σ → List κ) (s s' : σ) : Prop
  | thin : (queue s').Sublist (queue s) → (∀ key, held s key ≠ 0 → held s' key ≠ 0) →
    Moves held queue s s'
  | push (key : κ) : queue s' = key :: queue s → key ∉ queue s → held s key ≠ 0 → held s' key = 0 →
    (∀ key', key' ≠ key → held s key' ≠ 0 → held s' key' ≠ 0) → Moves held queue s s'

/-- Every key in the queue has a last release, and each was released after those behind it. -/
structure InOrder (step : σ → α → σ) (held : σ → κ → ℕ) (queue : σ → List κ) (s : σ)
    (calls : List α) : Prop where
  released : ∀ key ∈ queue (calls.foldl step s), ∃ k, LastRelease step held s calls key k
  sorted : (queue (calls.foldl step s)).Pairwise fun key key' => ∀ k k',
    LastRelease step held s calls key k → LastRelease step held s calls key' k' → k' < k

/-! ## One more call -/

theorem releases_concat : Releases step held s (calls ++ [a]) k key ↔
    Releases step held s calls k key ∨ (k = calls.length ∧
      held (calls.foldl step s) key ≠ 0 ∧ held (step (calls.foldl step s) a) key = 0) := by
  unfold Releases
  rw [List.length_append, List.length_singleton]
  rcases Nat.lt_trichotomy k calls.length with hlt | rfl | hgt
  · rw [List.take_append_of_le_length (by omega), List.take_append_of_le_length (by omega)]
    constructor
    · rintro ⟨-, hheld, hfree⟩
      exact Or.inl ⟨hlt, hheld, hfree⟩
    · rintro (⟨-, hheld, hfree⟩ | ⟨heq, -⟩)
      · exact ⟨by omega, hheld, hfree⟩
      · omega
  · rw [List.take_append_of_le_length (Nat.le_refl _), List.take_length,
      List.take_of_length_le (l := calls ++ [a]) (by simp), List.foldl_append]
    constructor
    · rintro ⟨-, hheld, hfree⟩
      exact Or.inr ⟨rfl, hheld, hfree⟩
    · rintro (⟨hlt, -⟩ | ⟨-, hheld, hfree⟩)
      · omega
      · exact ⟨by omega, hheld, hfree⟩
  · constructor
    · rintro ⟨hlt, -⟩
      omega
    · rintro (⟨hlt, -⟩ | ⟨heq, -⟩)
      · omega
      · omega

/-- A call that does not release the key leaves its last release. -/
theorem lastRelease_concat_of_kept
    (hkept : held (calls.foldl step s) key ≠ 0 → held (step (calls.foldl step s) a) key ≠ 0) :
    LastRelease step held s (calls ++ [a]) key k ↔ LastRelease step held s calls key k := by
  have hsame : ∀ k', Releases step held s (calls ++ [a]) k' key ↔
      Releases step held s calls k' key := by
    intro k'
    rw [releases_concat]
    exact ⟨fun h => h.resolve_right fun h' => hkept h'.2.1 h'.2.2, Or.inl⟩
  simp only [LastRelease, hsame]

/-- A call that releases the key is its last release. -/
theorem lastRelease_concat_self (hheld : held (calls.foldl step s) key ≠ 0)
    (hfree : held (step (calls.foldl step s) a) key = 0) :
    LastRelease step held s (calls ++ [a]) key calls.length := by
  refine ⟨releases_concat.mpr (Or.inr ⟨rfl, hheld, hfree⟩), fun k' hk' => ?_⟩
  have hlt := hk'.1
  rw [List.length_append, List.length_singleton] at hlt
  omega

theorem LastRelease.lt (h : LastRelease step held s calls key k) : k < calls.length := h.1.1

theorem LastRelease.unique {k' : ℕ} (h : LastRelease step held s calls key k)
    (h' : LastRelease step held s calls key k') : k = k' :=
  Nat.le_antisymm (h'.2 k h.1) (h.2 k' h'.1)

/-! ## Every run -/

/-- One call keeps the queue in order. -/
theorem InOrder.concat (h : InOrder step held queue s calls)
    (hmoves : Moves held queue (calls.foldl step s) (step (calls.foldl step s) a)) :
    InOrder step held queue s (calls ++ [a]) := by
  have hafter : (calls ++ [a]).foldl step s = step (calls.foldl step s) a := by simp
  cases hmoves with
  | thin hsub hkept =>
    constructor
    · rw [hafter]
      intro key hkey
      obtain ⟨k, hk⟩ := h.released key (hsub.subset hkey)
      exact ⟨k, (lastRelease_concat_of_kept (hkept key)).mpr hk⟩
    · rw [hafter]
      refine (h.sorted.sublist hsub).imp fun hlt k k' hk hk' => hlt k k' ?_ ?_
      · exact (lastRelease_concat_of_kept (hkept _)).mp hk
      · exact (lastRelease_concat_of_kept (hkept _)).mp hk'
  | push key hpush hnew hheld hfree hkept =>
    have hself := lastRelease_concat_self hheld hfree
    have hold : ∀ {key' k}, key' ∈ queue (calls.foldl step s) →
        (LastRelease step held s (calls ++ [a]) key' k ↔ LastRelease step held s calls key' k) :=
      fun hmem => lastRelease_concat_of_kept (hkept _ fun heq => hnew (heq ▸ hmem))
    constructor
    · rw [hafter, hpush]
      intro key' hkey'
      rcases List.mem_cons.mp hkey' with rfl | hmem
      · exact ⟨_, hself⟩
      · obtain ⟨k, hk⟩ := h.released key' hmem
        exact ⟨k, (hold hmem).mpr hk⟩
    · rw [hafter, hpush, List.pairwise_cons]
      refine ⟨fun key' hmem k k' hk hk' => ?_, h.sorted.imp_of_mem ?_⟩
      · rw [hk.unique hself]
        exact ((hold hmem).mp hk').lt
      · intro x y hx hy hlt k k' hk hk'
        exact hlt k k' ((hold hx).mp hk) ((hold hy).mp hk')

/-- After every run of calls that move the queue as they should, it is in order. -/
theorem inOrder_run {I : σ → Prop} {P : α → Prop} (hstart : queue s = []) (hI : I s)
    (hstep : ∀ {s a}, I s → P a → I (step s a) ∧ Moves held queue s (step s a)) :
    ∀ calls : List α, (∀ a ∈ calls, P a) →
      I (calls.foldl step s) ∧ InOrder step held queue s calls := by
  intro calls
  induction calls using List.reverseRecOn with
  | nil =>
    intro _
    refine ⟨hI, ⟨fun key hkey => ?_, ?_⟩⟩
    · rw [List.foldl_nil, hstart] at hkey
      cases hkey
    · rw [List.foldl_nil, hstart]
      exact .nil
  | append_singleton calls a ih =>
    intro hP
    obtain ⟨hI', horder⟩ := ih fun b hb => hP b (List.mem_append_left _ hb)
    obtain ⟨hI'', hmoves⟩ := hstep hI' (hP a (by simp))
    refine ⟨?_, horder.concat hmoves⟩
    rw [List.foldl_append]
    exact hI''

/-- The key at the end of the queue was released before all others in it. -/
theorem InOrder.earliest (h : InOrder step held queue s calls)
    (hlast : (queue (calls.foldl step s)).getLast? = some key) :
    ∃ k, LastRelease step held s calls key k ∧ ∀ key' ∈ queue (calls.foldl step s), key' ≠ key →
      ∃ k', LastRelease step held s calls key' k' ∧ k < k' := by
  obtain ⟨front, hsplit⟩ := List.getLast?_eq_some_iff.mp hlast
  have hsorted := h.sorted
  rw [hsplit, List.pairwise_append] at hsorted
  obtain ⟨k, hk⟩ := h.released key (by rw [hsplit]; simp)
  refine ⟨k, hk, fun key' hmem hne => ?_⟩
  obtain ⟨k', hk'⟩ := h.released key' hmem
  have hfront : key' ∈ front := by
    rw [hsplit, List.mem_append, List.mem_singleton] at hmem
    exact hmem.resolve_right hne
  exact ⟨k', hk', hsorted.2.2 key' hfront key (List.mem_singleton_self key) k' k hk' hk⟩

end Recency
