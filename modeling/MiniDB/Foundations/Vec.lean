import Mathlib

/-!
# Vectors with checked access

A program over growable vectors indexes them without a check. Here every access is checked and an
access out of range raises the fault `e` the caller names, so that a run without a fault is a run
whose accesses were all in range.

## Main definitions

* `Vec.get`, `Vec.set`, `Vec.insert`, `Vec.erase`, `Vec.back`, `Vec.popBack`: single elements
* `Vec.firstN`, `Vec.suffix`, `Vec.slice`: the initial segment a loop reads, the segment up to the
  end and a segment of a given length
* `Vec.resize`: the resized vector
-/

namespace Vec

variable {ε α : Type}

/-- The element at `i`. -/
def get (e : ε) (xs : List α) (i : ℕ) : Except ε α :=
  match xs[i]? with
  | some x => .ok x
  | none => .error e

/-- The element at `i` replaced. -/
def set (e : ε) (xs : List α) (i : ℕ) (x : α) : Except ε (List α) :=
  if i < xs.length then .ok (xs.set i x) else .error e

/-- A new element before position `i`. -/
def insert (e : ε) (xs : List α) (i : ℕ) (x : α) : Except ε (List α) :=
  if i ≤ xs.length then .ok (xs.insertIdx i x) else .error e

/-- The element at `i` removed. -/
def erase (e : ε) (xs : List α) (i : ℕ) : Except ε (List α) :=
  if i < xs.length then .ok (xs.eraseIdx i) else .error e

/-- The last element. -/
def back (e : ε) (xs : List α) : Except ε α :=
  match xs.getLast? with
  | some x => .ok x
  | none => .error e

/-- The last element removed. -/
def popBack (e : ε) (xs : List α) : Except ε (List α) :=
  if xs.isEmpty then .error e else .ok xs.dropLast

/-- The elements at `0, …, n - 1`, read one by one. -/
def firstN (e : ε) (xs : List α) (n : ℕ) : Except ε (List α) :=
  if n ≤ xs.length then .ok (xs.take n) else .error e

/-- The elements from `i` to the end. -/
def suffix (e : ε) (xs : List α) (i : ℕ) : Except ε (List α) :=
  if i ≤ xs.length then .ok (xs.drop i) else .error e

/-- The `n` elements from `i` on. -/
def slice (e : ε) (xs : List α) (i n : ℕ) : Except ε (List α) :=
  if i + n ≤ xs.length then .ok ((xs.drop i).take n) else .error e

/-- The vector cut or padded with `d` to the length `n`. -/
def resize (xs : List α) (n : ℕ) (d : α) : List α :=
  xs.take n ++ List.replicate (n - xs.length) d

variable {e : ε} {xs : List α} {i : ℕ} {x : α}

theorem get_of_getElem? (h : xs[i]? = some x) : get e xs i = .ok x := by
  simp [get, h]

theorem mem_of_get (h : get e xs i = .ok x) : x ∈ xs := by
  unfold get at h
  split at h
  case h_1 y hy =>
    obtain rfl := Except.ok.inj h
    exact List.mem_of_getElem? hy
  case h_2 => cases h

theorem get_append_cons (A B : List α) : get e (A ++ x :: B) A.length = .ok x :=
  get_of_getElem? (by simp)

theorem get_map_append_cons {β : Type} (f : β → α) (A B : List β) (b : β) :
    get e ((A ++ b :: B).map f) A.length = .ok (f b) :=
  get_of_getElem? (by simp)

theorem get_zero_cons : get e (x :: xs) 0 = .ok x := rfl

theorem get_of_length_le (h : xs.length ≤ i) : get e xs i = .error e := by
  simp [get, List.getElem?_eq_none h]

@[simp] theorem set_of_lt (h : i < xs.length) : set e xs i x = .ok (xs.set i x) := if_pos h

@[simp] theorem insert_of_le (h : i ≤ xs.length) : insert e xs i x = .ok (xs.insertIdx i x) :=
  if_pos h

@[simp] theorem erase_of_lt (h : i < xs.length) : erase e xs i = .ok (xs.eraseIdx i) := if_pos h

@[simp] theorem back_append_singleton : back e (xs ++ [x]) = .ok x := by
  simp [back]

@[simp] theorem popBack_append_singleton : popBack e (xs ++ [x]) = .ok xs := by
  simp [popBack]

@[simp] theorem firstN_length : firstN e xs xs.length = .ok xs := by
  simp [firstN]

@[simp] theorem suffix_of_le (h : i ≤ xs.length) : suffix e xs i = .ok (xs.drop i) := if_pos h

theorem slice_append (A B C : List α) (h : i = A.length) {n : ℕ} (hn : n = B.length) :
    slice e (A ++ (B ++ C)) i n = .ok B := by
  subst h hn
  rw [slice, if_pos (by simp), List.drop_left, List.take_left]

theorem resize_of_le {d : α} (h : i ≤ xs.length) : resize xs i d = xs.take i := by
  simp [resize, Nat.sub_eq_zero_of_le h]

/-! The lengths after an operation that goes through. -/

variable {ys : List α}

theorem length_of_insert (h : insert e xs i x = .ok ys) : ys.length = xs.length + 1 := by
  unfold insert at h
  split at h
  case isTrue hi =>
    obtain rfl := Except.ok.inj h
    exact List.length_insertIdx_of_le_length hi x
  case isFalse => cases h

theorem length_of_erase (h : erase e xs i = .ok ys) : ys.length = xs.length - 1 := by
  unfold erase at h
  split at h
  case isTrue hi =>
    obtain rfl := Except.ok.inj h
    exact List.length_eraseIdx_of_lt hi
  case isFalse => cases h

theorem length_of_suffix (h : suffix e xs i = .ok ys) : ys.length = xs.length - i := by
  unfold suffix at h
  split at h
  case isTrue =>
    obtain rfl := Except.ok.inj h
    exact List.length_drop
  case isFalse => cases h

theorem length_of_set (h : set e xs i x = .ok ys) : ys.length = xs.length := by
  unfold set at h
  split at h
  case isTrue =>
    obtain rfl := Except.ok.inj h
    exact List.length_set
  case isFalse => cases h

theorem length_of_popBack (h : popBack e xs = .ok ys) : ys.length = xs.length - 1 := by
  unfold popBack at h
  split at h
  case isTrue => cases h
  case isFalse =>
    obtain rfl := Except.ok.inj h
    exact List.length_dropLast

theorem length_of_firstN (h : firstN e xs i = .ok ys) : ys.length = i := by
  unfold firstN at h
  split at h
  case isTrue hi =>
    obtain rfl := Except.ok.inj h
    exact List.length_take_of_le hi
  case isFalse => cases h

theorem length_resize (xs : List α) (i : ℕ) (x : α) : (resize xs i x).length = i := by
  rw [resize, List.length_append, List.length_take, List.length_replicate]
  omega

end Vec
