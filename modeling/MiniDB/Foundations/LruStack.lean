import Mathlib

/-!
# The stack property of least-recently-used caches

A cache with a number of places holds keys, each pinned some number of times. A pin of a key that is
not cached takes an unused place, or the place of the unpinned key that was released first; a key
whose last pin goes is the most recent one of the unpinned keys. Two caches that differ in their
number of places and see the same calls hold the unpinned keys in the same order, the smaller one a
first part of those of the larger one. What the smaller one has, the larger one has too, so that it
misses no more often.

## Main definitions

* `Cache`, `Call`: the cache, and the calls on it
* `Cache.pin`, `Cache.unpin`, `Cache.run`: what the calls do
* `Within c c'`: the smaller cache beside the larger one

## Main results

* `Within.run`: every run of the smaller cache is one of the larger cache
* `Within.cached`: what the smaller cache holds
-/

namespace Lru

variable {κ : Type}

/-- A cache: the pins of each key, the keys that are cached and not pinned from the most to the least
recently released one, the number of unused places, and how many pins hit and missed. -/
structure Cache (κ : Type) where
  pins : κ → ℕ
  queue : List κ
  free : ℕ
  hits : ℕ
  misses : ℕ

/-- A call on the cache. -/
inductive Call (κ : Type)
  | pin (key : κ)
  | unpin (key : κ)

/-- The key is in the cache. -/
def Cache.Cached (c : Cache κ) (key : κ) : Prop := c.pins key ≠ 0 ∨ key ∈ c.queue

/-- The smaller cache and the larger one after the same calls. As long as the smaller one has unused
places, nothing has been given up. -/
structure Within (c c' : Cache κ) : Prop where
  pins : c.pins = c'.pins
  queue : c.queue <+: c'.queue
  hits : c.hits ≤ c'.hits
  misses : c'.misses ≤ c.misses
  free : 0 < c.free → c.queue = c'.queue ∧ c.free ≤ c'.free

/-- What the smaller cache holds, the larger one holds. -/
theorem Within.cached {c c' : Cache κ} {key : κ} (h : Within c c') (hkey : c.Cached key) :
    c'.Cached key := by
  rcases hkey with hpin | hmem
  · exact Or.inl (h.pins ▸ hpin)
  · exact Or.inr (h.queue.subset hmem)

theorem dropLast_prefix_dropLast {xs ys : List κ} (h : xs <+: ys) : xs.dropLast <+: ys.dropLast := by
  obtain ⟨tail, rfl⟩ := h
  rcases List.eq_nil_or_concat tail with rfl | ⟨front, x, rfl⟩
  · rw [List.append_nil]
  · rw [List.concat_eq_append, ← List.append_assoc, List.dropLast_concat]
    exact (List.dropLast_prefix xs).trans (List.prefix_append xs front)

variable [DecidableEq κ]

namespace Cache

instance (c : Cache κ) (key : κ) : Decidable (c.Cached key) := inferInstanceAs (Decidable (_ ∨ _))

/-- A pin; there is none when the key is not in the cache and all places have pinned keys. -/
def pin (c : Cache κ) (key : κ) : Option (Cache κ) :=
  let pins := Function.update c.pins key (c.pins key + 1)
  if c.Cached key then some { c with
      pins := pins, queue := c.queue.filter (· ≠ key), hits := c.hits + 1 }
  else if 0 < c.free then
    some { c with pins := pins, free := c.free - 1, misses := c.misses + 1 }
  else if c.queue = [] then none
  else some { c with pins := pins, queue := c.queue.dropLast, misses := c.misses + 1 }

section Pin

variable {c : Cache κ} {key : κ}

theorem pin_of_cached (h : c.Cached key) : c.pin key = some { c with
    pins := Function.update c.pins key (c.pins key + 1)
    queue := c.queue.filter (· ≠ key)
    hits := c.hits + 1 } := if_pos h

theorem pin_of_free (h : ¬ c.Cached key) (hfree : 0 < c.free) : c.pin key = some { c with
    pins := Function.update c.pins key (c.pins key + 1)
    free := c.free - 1
    misses := c.misses + 1 } := (if_neg h).trans (if_pos hfree)

theorem pin_of_last (h : ¬ c.Cached key) (hfree : ¬ 0 < c.free) (hqueue : c.queue ≠ []) :
    c.pin key = some { c with
      pins := Function.update c.pins key (c.pins key + 1)
      queue := c.queue.dropLast
      misses := c.misses + 1 } := (if_neg h).trans ((if_neg hfree).trans (if_neg hqueue))

theorem pin_of_full (h : ¬ c.Cached key) (hfree : ¬ 0 < c.free) (hqueue : c.queue = []) :
    c.pin key = none := (if_neg h).trans ((if_neg hfree).trans (if_pos hqueue))

end Pin

/-- An unpin; one of a key that is not pinned does nothing. -/
def unpin (c : Cache κ) (key : κ) : Cache κ :=
  if c.pins key = 0 then c
  else { c with
    pins := Function.update c.pins key (c.pins key - 1)
    queue := if c.pins key = 1 then key :: c.queue else c.queue }

/-- One call. -/
def step (c : Cache κ) : Call κ → Option (Cache κ)
  | .pin key => c.pin key
  | .unpin key => some (c.unpin key)

/-- Calls one after another. -/
def run (c : Cache κ) (calls : List (Call κ)) : Option (Cache κ) := calls.foldlM step c

end Cache

namespace Within

variable {c c' d : Cache κ} {key : κ}

/-- A pin. When it misses in the larger cache it misses in the smaller one. -/
theorem pin (h : Within c c') (hpin : c.pin key = some d) :
    ∃ d', c'.pin key = some d' ∧ Within d d' := by
  have hpins : Function.update c.pins key (c.pins key + 1) =
      Function.update c'.pins key (c'.pins key + 1) := by rw [h.pins]
  by_cases hcached : c.Cached key
  case pos =>
    obtain rfl := Option.some.inj ((Cache.pin_of_cached hcached).symm.trans hpin)
    refine ⟨_, Cache.pin_of_cached (h.cached hcached), ⟨hpins, h.queue.filter _,
      Nat.succ_le_succ h.hits, h.misses, fun hfree => ?_⟩⟩
    obtain ⟨hqueue, hle⟩ := h.free hfree
    exact ⟨by rw [hqueue], hle⟩
  case neg =>
    by_cases hfree : 0 < c.free
    case pos =>
      -- Nothing has been given up, so the key is not in the larger cache either.
      obtain ⟨hqueue, hle⟩ := h.free hfree
      have hcached' : ¬ c'.Cached key := by
        unfold Cache.Cached at hcached ⊢
        rwa [← h.pins, ← hqueue]
      obtain rfl := Option.some.inj ((Cache.pin_of_free hcached hfree).symm.trans hpin)
      exact ⟨_, Cache.pin_of_free hcached' (Nat.lt_of_lt_of_le hfree hle), ⟨hpins, h.queue, h.hits,
        Nat.succ_le_succ h.misses, fun _ => ⟨hqueue, Nat.sub_le_sub_right hle 1⟩⟩⟩
    case neg =>
      by_cases hqueue : c.queue = []
      case pos => cases (Cache.pin_of_full hcached hfree hqueue).symm.trans hpin
      case neg =>
        obtain rfl := Option.some.inj ((Cache.pin_of_last hcached hfree hqueue).symm.trans hpin)
        by_cases hcached' : c'.Cached key
        case pos =>
          have hnot : c.queue.filter (· ≠ key) = c.queue :=
            List.filter_eq_self.mpr fun x hx =>
              decide_eq_true fun heq => hcached (Or.inr (heq ▸ hx))
          have hbegins : c.queue <+: c'.queue.filter (· ≠ key) := hnot ▸ h.queue.filter _
          exact ⟨_, Cache.pin_of_cached hcached', ⟨hpins, (List.dropLast_prefix _).trans hbegins,
            Nat.le_succ_of_le h.hits, Nat.le_succ_of_le h.misses, fun hpos => absurd hpos hfree⟩⟩
        case neg =>
          by_cases hfree' : 0 < c'.free
          case pos =>
            exact ⟨_, Cache.pin_of_free hcached' hfree', ⟨hpins,
              (List.dropLast_prefix _).trans h.queue, h.hits, Nat.succ_le_succ h.misses,
              fun hpos => absurd hpos hfree⟩⟩
          case neg =>
            have hqueue' : c'.queue ≠ [] :=
              fun hnil => hqueue (List.prefix_nil.mp (hnil ▸ h.queue))
            exact ⟨_, Cache.pin_of_last hcached' hfree' hqueue', ⟨hpins,
              dropLast_prefix_dropLast h.queue, h.hits, Nat.succ_le_succ h.misses,
              fun hpos => absurd hpos hfree⟩⟩

theorem unpin (h : Within c c') (key : κ) : Within (c.unpin key) (c'.unpin key) := by
  unfold Cache.unpin
  rw [← h.pins]
  split
  case isTrue => exact h
  case isFalse =>
    refine ⟨rfl, ?_, h.hits, h.misses, fun hfree => ⟨?_, (h.free hfree).2⟩⟩
    · show (if c.pins key = 1 then key :: c.queue else c.queue) <+:
        if c.pins key = 1 then key :: c'.queue else c'.queue
      split
      case isTrue => exact List.prefix_cons_inj key |>.mpr h.queue
      case isFalse => exact h.queue
    · show (if c.pins key = 1 then key :: c.queue else c.queue) =
        if c.pins key = 1 then key :: c'.queue else c'.queue
      rw [(h.free hfree).1]

theorem step (h : Within c c') {call : Call κ} (hstep : c.step call = some d) :
    ∃ d', c'.step call = some d' ∧ Within d d' := by
  cases call with
  | pin key => exact h.pin hstep
  | unpin key =>
    obtain rfl := Option.some.inj hstep
    exact ⟨_, rfl, h.unpin key⟩

/-- Every run of the smaller cache is one of the larger cache. -/
theorem run (h : Within c c') {calls : List (Call κ)} (hrun : c.run calls = some d) :
    ∃ d', c'.run calls = some d' ∧ Within d d' := by
  induction calls generalizing c c' with
  | nil =>
    obtain rfl := Option.some.inj hrun
    exact ⟨c', rfl, h⟩
  | cons call calls ih =>
    rw [Cache.run, List.foldlM_cons] at hrun
    obtain ⟨c₁, hstep, hrest⟩ := Option.bind_eq_some_iff.mp hrun
    obtain ⟨c₁', hstep', h₁⟩ := h.step hstep
    obtain ⟨d', hrun', hd⟩ := ih h₁ hrest
    refine ⟨d', ?_, hd⟩
    rw [Cache.run, List.foldlM_cons, hstep']
    exact hrun'

end Within

end Lru
