import Mathlib

/-!
# Dictionaries

A dictionary as an association list in which the front entry of a key is the one that counts. Adding
a key replaces its entry, so a dictionary built by these operations has one entry a key.

## Main definitions

* `Dict κ ν`: the dictionaries
* `Dict.find?`, `Dict.insert`, `Dict.erase`: looking up, adding and removing a key

## Main results

* `Dict.find?_insert`, `Dict.find?_erase`: what the operations do to every key
* `Dict.mem_iff`: with one entry a key, the entries are what is found
* `Dict.countP_erase`, `Dict.countP_insert`: the entries of a kind counted
-/

/-- A dictionary from `κ` to `ν`. -/
def Dict (κ ν : Type) : Type := List (κ × ν)

namespace Dict

variable {κ ν : Type} [DecidableEq κ]

/-- The dictionary without entries. -/
def empty : Dict κ ν := []

/-- The entries, in the order a loop over the dictionary visits them. -/
def entries (m : Dict κ ν) : List (κ × ν) := m

/-- The value of a key. -/
def find? : Dict κ ν → κ → Option ν
  | [], _ => none
  | (k', v) :: m, k => if k = k' then some v else find? m k

/-- A key removed. -/
def erase (m : Dict κ ν) (k : κ) : Dict κ ν := List.filter (fun e => e.1 ≠ k) m

/-- A key given a value. -/
def insert (m : Dict κ ν) (k : κ) (v : ν) : Dict κ ν := (k, v) :: erase m k

/-- One entry a key. -/
def Unique (m : Dict κ ν) : Prop := (m.entries.map Prod.fst).Nodup

@[simp] theorem find?_empty (k : κ) : find? (empty : Dict κ ν) k = none := rfl

theorem find?_erase (m : Dict κ ν) (k k' : κ) :
    (m.erase k).find? k' = if k' = k then none else m.find? k' := by
  induction m with
  | nil => simp [erase, find?]
  | cons e m ih =>
    unfold erase at ih ⊢
    by_cases he : e.1 = k
    · rw [List.filter_cons_of_neg (by simpa using he), ih]
      by_cases hk : k' = k
      · simp [hk]
      · have hne : k' ≠ e.1 := he ▸ hk
        simp [hk, find?, hne]
    · rw [List.filter_cons_of_pos (by simpa using he), find?, ih, find?]
      by_cases hk : k' = e.1
      · have hne : k' ≠ k := fun h => he (hk ▸ h)
        rw [if_pos hk, if_pos hk, if_neg hne]
      · rw [if_neg hk, if_neg hk]

theorem find?_insert (m : Dict κ ν) (k k' : κ) (v : ν) :
    (m.insert k v).find? k' = if k' = k then some v else m.find? k' := by
  show (if k' = k then some v else (m.erase k).find? k') = _
  rw [find?_erase]
  by_cases h : k' = k
  · rw [if_pos h, if_pos h]
  · rw [if_neg h, if_neg h, if_neg h]

@[simp] theorem find?_insert_self (m : Dict κ ν) (k : κ) (v : ν) :
    (m.insert k v).find? k = some v := by
  rw [find?_insert, if_pos rfl]

theorem find?_insert_of_ne (m : Dict κ ν) {k k' : κ} (v : ν) (h : k' ≠ k) :
    (m.insert k v).find? k' = m.find? k' := by
  rw [find?_insert, if_neg h]

@[simp] theorem find?_erase_self (m : Dict κ ν) (k : κ) : (m.erase k).find? k = none := by
  rw [find?_erase, if_pos rfl]

theorem find?_erase_of_ne (m : Dict κ ν) {k k' : κ} (h : k' ≠ k) :
    (m.erase k).find? k' = m.find? k' := by
  rw [find?_erase, if_neg h]

/-- What is found after a key was removed was there before. -/
theorem find?_of_find?_erase {m : Dict κ ν} {k k' : κ} {v : ν} (h : (m.erase k).find? k' = some v) :
    m.find? k' = some v := by
  rw [find?_erase] at h
  split at h
  case isTrue => cases h
  case isFalse => exact h

/-- What is found after a key was given a value is that value, or was there before. -/
theorem eq_or_find?_of_find?_insert {m : Dict κ ν} {k k' : κ} {v v' : ν}
    (h : (m.insert k v).find? k' = some v') : k' = k ∧ v' = v ∨ m.find? k' = some v' := by
  rw [find?_insert] at h
  split at h
  case isTrue heq => exact Or.inl ⟨heq, (Option.some.inj h).symm⟩
  case isFalse => exact Or.inr h

omit [DecidableEq κ] in
theorem unique_empty : (empty : Dict κ ν).Unique := List.nodup_nil

theorem Unique.erase {m : Dict κ ν} (h : m.Unique) (k : κ) : (m.erase k).Unique :=
  h.sublist (List.Sublist.map _ List.filter_sublist)

theorem Unique.insert {m : Dict κ ν} (h : m.Unique) (k : κ) (v : ν) : (m.insert k v).Unique := by
  refine List.nodup_cons.mpr ⟨?_, h.erase k⟩
  intro hmem
  obtain ⟨e, he, hk⟩ := List.mem_map.mp hmem
  simpa [hk] using (List.mem_filter.mp he).2

/-- With one entry a key, the entries are what is found. -/
theorem mem_iff {m : Dict κ ν} (h : m.Unique) {k : κ} {v : ν} :
    (k, v) ∈ m.entries ↔ m.find? k = some v := by
  induction m with
  | nil => simp [entries, find?]
  | cons e m ih =>
    obtain ⟨hnot, htail⟩ := List.nodup_cons.mp h
    show (k, v) ∈ e :: m ↔ _
    rw [List.mem_cons, find?]
    by_cases hk : k = e.1
    · have habsent : ¬ (k, v) ∈ m := fun hmem => hnot (List.mem_map.mpr ⟨(k, v), hmem, hk⟩)
      rw [if_pos hk, or_iff_left habsent, Option.some.injEq, Prod.ext_iff]
      exact ⟨fun h => h.2.symm, fun h => ⟨hk, h.symm⟩⟩
    · have hne : (k, v) ≠ e := fun h => hk (by rw [← h])
      rw [if_neg hk, or_iff_right hne]
      exact ih htail

theorem mem_keys_of_find? {m : Dict κ ν} {k : κ} {v : ν} (h : m.find? k = some v) :
    k ∈ m.entries.map Prod.fst := by
  induction m with
  | nil => cases h
  | cons e m ih =>
    rw [find?] at h
    split at h
    case isTrue hk => exact List.mem_cons.mpr (Or.inl hk)
    case isFalse => exact List.mem_cons_of_mem _ (ih h)

theorem erase_eq_self {m : Dict κ ν} {k : κ} (h : m.find? k = none) : m.erase k = m := by
  induction m with
  | nil => rfl
  | cons e m ih =>
    unfold erase at ih ⊢
    rw [find?] at h
    split at h
    case isTrue => cases h
    case isFalse hne =>
      rw [List.filter_cons_of_pos (by simpa using Ne.symm hne), ih h]

/-- A key removed takes its entry away. -/
theorem countP_erase {m : Dict κ ν} (h : m.Unique) {k : κ} {v : ν} (hk : m.find? k = some v)
    (p : κ × ν → Bool) :
    (m.erase k).entries.countP p + (if p (k, v) then 1 else 0) = m.entries.countP p := by
  induction m with
  | nil => cases hk
  | cons e m ih =>
    obtain ⟨hnot, htail⟩ := List.nodup_cons.mp h
    show List.countP p (List.filter (fun e => e.1 ≠ k) (e :: m)) + _ = List.countP p (e :: m)
    by_cases hke : k = e.1
    · rw [find?, if_pos hke] at hk
      obtain rfl := Option.some.inj hk
      have habsent : ∀ e' ∈ m, decide (e'.1 ≠ k) = true := by
        intro e' he'
        rw [decide_eq_true_eq]
        rintro rfl
        exact hnot (hke ▸ List.mem_map_of_mem he')
      rw [List.filter_cons_of_neg (by simp [hke]), List.filter_eq_self.mpr habsent,
        List.countP_cons, hke]
    · rw [find?, if_neg hke] at hk
      have hrest : List.countP p (List.filter (fun e => e.1 ≠ k) m) +
          (if p (k, v) then 1 else 0) = List.countP p m := ih htail hk
      rw [List.filter_cons_of_pos (by simpa using Ne.symm hke), List.countP_cons,
        List.countP_cons, ← hrest]
      omega

/-- A new key brings its entry. -/
theorem countP_insert (m : Dict κ ν) (k : κ) (v : ν) (p : κ × ν → Bool) :
    (m.insert k v).entries.countP p =
      (m.erase k).entries.countP p + if p (k, v) then 1 else 0 := List.countP_cons

end Dict
