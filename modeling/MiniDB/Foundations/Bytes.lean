import Mathlib

/-!
# Bytes

Numbers as little-endian byte strings, and fixed-size blocks of bytes that are read and written at
offsets. Two accesses to a block that do not overlap do not disturb each other.

## Main definitions

* `Bytes.encode w n`, `Bytes.decode bs`: `n` in `w` little-endian bytes, and back
* `Block n`: a block of `n` bytes
* `Block.read`, `Block.write`: a range of a block
* `Block.field`, `Block.setField`: a little-endian number inside a block

## Main results

* `Bytes.decode_encode`, `Bytes.encode_decode`: the codec is exact up to its width
* `Block.read_write_self`, `Block.read_write_of_disjoint`: what a read sees of a write
-/

namespace Bytes

/-- The number `n` in `w` little-endian bytes; higher bytes of `n` are cut off. -/
def encode : ℕ → ℕ → List UInt8
  | 0, _ => []
  | w + 1, n => UInt8.ofNat n :: encode w (n / 256)

/-- The number with the little-endian bytes `bs`. -/
def decode : List UInt8 → ℕ
  | [] => 0
  | b :: bs => b.toNat + 256 * decode bs

@[simp] theorem length_encode (w n : ℕ) : (encode w n).length = w := by
  induction w generalizing n with
  | zero => rfl
  | succ w ih => simp [encode, ih]

theorem decode_encode (w n : ℕ) : decode (encode w n) = n % 256 ^ w := by
  induction w generalizing n with
  | zero => simp [encode, decode, Nat.mod_one]
  | succ w ih =>
    have hb : (UInt8.ofNat n).toNat = n % 256 := by simp
    rw [encode, decode, ih, hb, Nat.pow_succ, Nat.mul_comm (256 ^ w) 256, Nat.mod_mul]

theorem decode_encode_of_lt {w n : ℕ} (h : n < 256 ^ w) : decode (encode w n) = n := by
  rw [decode_encode, Nat.mod_eq_of_lt h]

theorem encode_decode (bs : List UInt8) : encode bs.length (decode bs) = bs := by
  induction bs with
  | nil => rfl
  | cons b bs ih =>
    have hb : b.toNat < 256 := b.toNat_lt
    have hmod : UInt8.ofNat (b.toNat + 256 * decode bs) = b := by
      apply UInt8.toNat_inj.mp
      simp only [UInt8.toNat_ofNat', Nat.add_mul_mod_self_left, Nat.reducePow]
      exact Nat.mod_eq_of_lt hb
    have hdiv : (b.toNat + 256 * decode bs) / 256 = decode bs := by omega
    rw [decode, List.length_cons, encode, hmod, hdiv, ih]

end Bytes

/-- A block of `n` bytes. -/
def Block (n : ℕ) : Type := Fin n → UInt8

namespace Block

variable {n : ℕ}

/-- The block of zeros. -/
def zero : Block n := fun _ => 0

/-- The byte at an offset; past the end there is nothing to read but zeros. -/
def byte (p : Block n) (i : ℕ) : UInt8 := if h : i < n then p ⟨i, h⟩ else 0

/-- The `len` bytes from the offset `off`. -/
def read (p : Block n) (off len : ℕ) : List UInt8 := (List.range len).map fun i => p.byte (off + i)

/-- The bytes `bs` written at the offset `off`. -/
def write (p : Block n) (off : ℕ) (bs : List UInt8) : Block n := fun i =>
  if off ≤ i.val ∧ i.val < off + bs.length then bs.getD (i.val - off) 0 else p i

/-- The little-endian number in the `w` bytes at `off`. -/
def field (w : ℕ) (p : Block n) (off : ℕ) : ℕ := Bytes.decode (p.read off w)

/-- A little-endian number written into the `w` bytes at `off`. -/
def setField (w : ℕ) (p : Block n) (off v : ℕ) : Block n := p.write off (Bytes.encode w v)

@[ext] theorem ext {p q : Block n} (h : ∀ i, i < n → p.byte i = q.byte i) : p = q := by
  funext i
  have hi := h i.val i.isLt
  simpa [byte] using hi

@[simp] theorem byte_zero (i : ℕ) : (zero : Block n).byte i = 0 := by
  unfold byte zero
  split <;> rfl

@[simp] theorem length_read (p : Block n) (off len : ℕ) : (p.read off len).length = len := by
  simp [read]

theorem byte_write (p : Block n) (off : ℕ) (bs : List UInt8) {i : ℕ} (h : i < n) :
    (p.write off bs).byte i =
      if off ≤ i ∧ i < off + bs.length then bs.getD (i - off) 0 else p.byte i := by
  simp [byte, write, h]

theorem byte_of_le (p : Block n) {i : ℕ} (h : n ≤ i) : p.byte i = 0 := dif_neg (Nat.not_lt.mpr h)

theorem byte_write_of_lt (p : Block n) {off i : ℕ} (bs : List UInt8)
    (h : i < off ∨ off + bs.length ≤ i) : (p.write off bs).byte i = p.byte i := by
  by_cases hi : i < n
  · rw [byte_write p off bs hi, if_neg (by omega)]
  · rw [byte_of_le _ (by omega), byte_of_le _ (by omega)]

/-- A read of the range just written gives what was written. -/
theorem read_write_self (p : Block n) {off : ℕ} {bs : List UInt8} (h : off + bs.length ≤ n) :
    (p.write off bs).read off bs.length = bs := by
  apply List.ext_getElem (by simp)
  intro i hi₁ hi₂
  have hi : i < bs.length := by simpa using hi₁
  simp only [read, List.getElem_map, List.getElem_range]
  rw [byte_write p off bs (by omega), if_pos (by omega), Nat.add_sub_cancel_left,
    List.getD_eq_getElem?_getD, List.getElem?_eq_getElem hi, Option.getD_some]

/-- A read that does not overlap a write does not see it. -/
theorem read_write_of_disjoint (p : Block n) {off off' len : ℕ} {bs : List UInt8}
    (h : off' + len ≤ off ∨ off + bs.length ≤ off') :
    (p.write off bs).read off' len = p.read off' len := by
  apply List.map_congr_left
  intro i hi
  have hi' : i < len := List.mem_range.mp hi
  exact byte_write_of_lt p bs (by omega)

@[simp] theorem read_zero (off len : ℕ) : (zero : Block n).read off len = List.replicate len 0 := by
  apply List.ext_getElem (by simp)
  intro i hi₁ hi₂
  simp [read]

theorem read_append (p : Block n) (off a b : ℕ) :
    p.read off (a + b) = p.read off a ++ p.read (off + a) b := by
  rw [read, List.range_add, List.map_append, List.map_map]
  congr 1
  apply List.map_congr_left
  intro i _
  simp [Nat.add_assoc]

theorem field_setField_self (w : ℕ) (p : Block n) {off v : ℕ} (h : off + w ≤ n) (hv : v < 256 ^ w) :
    field w (setField w p off v) off = v := by
  have hread : (p.write off (Bytes.encode w v)).read off (Bytes.encode w v).length =
      Bytes.encode w v := read_write_self p (by simpa using h)
  rw [Bytes.length_encode] at hread
  rw [field, setField, hread, Bytes.decode_encode_of_lt hv]

theorem field_write_of_disjoint (w : ℕ) (p : Block n) {off off' : ℕ} {bs : List UInt8}
    (h : off' + w ≤ off ∨ off + bs.length ≤ off') :
    field w (p.write off bs) off' = field w p off' := by
  rw [field, read_write_of_disjoint p h, field]

theorem field_setField_of_disjoint (w w' : ℕ) (p : Block n) {off off' v : ℕ}
    (h : off' + w' ≤ off ∨ off + w ≤ off') :
    field w' (setField w p off v) off' = field w' p off' :=
  field_write_of_disjoint w' p (by simpa using h)

theorem read_setField_of_disjoint (w : ℕ) (p : Block n) {off off' len v : ℕ}
    (h : off' + len ≤ off ∨ off + w ≤ off') :
    (setField w p off v).read off' len = p.read off' len :=
  read_write_of_disjoint p (by simpa using h)

@[simp] theorem field_zero (w off : ℕ) : field w (zero : Block n) off = 0 := by
  rw [field, read_zero]
  induction w with
  | zero => rfl
  | succ w ih => simp [List.replicate_succ, Bytes.decode, ih]

end Block
