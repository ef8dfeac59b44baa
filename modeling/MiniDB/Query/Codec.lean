import MiniDB.Common
import MiniDB.Foundations.Bytes
import MiniDB.Foundations.Machine
import MiniDB.Foundations.Vec
import MiniDB.Storage.DiskManager

/-!
# Tuples as bytes

`serializeTuple` and `deserializeTuple` of `Executor.cpp`: a type marker before each value, an
integer in four little-endian bytes, a text behind its length in two. The reader is given a pointer
and a length; it stops at the length between two values, but within a value it reads what the bytes
tell it to, and a read past the bytes behind the pointer is a fault.

## Main definitions

* `serializeTuple`, `deserializeTuple`

## Main results

* `deserializeTuple_serializeTuple`: the reader gives back the tuple that was written
* `tuple_round_trip`: it does so from exactly the bytes that were written, and reads them all
-/

namespace MiniDB

/-- The bytes of a value. -/
def serializeValue : Value → Str
  | .int v => 0x01 :: Bytes.encode 4 v.toUInt32.toNat
  | .text s => 0x02 :: (Bytes.encode 2 s.length ++ s)

/-- `serializeTuple`. -/
def serializeTuple (tuple : Tuple) : Str := tuple.flatMap serializeValue

/-- The loop of `deserializeTuple`, with `n` columns to go. -/
def deserializeFrom (data : Str) (dataLen : ℕ) : ℕ → ℕ → Tuple → Except Fault Tuple
  | 0, _, values => .ok values
  | n + 1, offset, values =>
    if offset < dataLen then do
      let typeMarker ← Vec.get .overrun data offset
      if typeMarker = 0x01 then
        let bytes ← Vec.slice .overrun data (offset + 1) 4
        let v := (UInt32.ofNat (Bytes.decode bytes)).toInt32
        deserializeFrom data dataLen n (offset + 1 + 4) (values ++ [.int v])
      else
        let bytes ← Vec.slice .overrun data (offset + 1) 2
        let len := Bytes.decode bytes
        let s ← Vec.slice .overrun data (offset + 1 + 2) len
        deserializeFrom data dataLen n (offset + 1 + 2 + len) (values ++ [.text s])
    else .ok values

/-- `deserializeTuple`. -/
def deserializeTuple (data : Str) (dataLen : ℕ) (schema : Schema) : Except Fault Tuple :=
  deserializeFrom data dataLen schema.columnCount 0 []

/-- The length of a text fits its two bytes. -/
def Value.Fits : Value → Prop
  | .int _ => True
  | .text s => s.length < 2 ^ 16

theorem serializeValue_pos (v : Value) : 0 < (serializeValue v).length := by
  cases v <;> simp [serializeValue]

/-- One turn of the reader's loop takes in one value. -/
theorem deserializeFrom_value {v : Value} (hv : v.Fits) (A C : Str) {dataLen n : ℕ}
    (hlen : A.length < dataLen) (values : Tuple) :
    deserializeFrom (A ++ (serializeValue v ++ C)) dataLen (n + 1) A.length values =
      deserializeFrom (A ++ (serializeValue v ++ C)) dataLen n
        (A ++ serializeValue v).length (values ++ [v]) := by
  rw [deserializeFrom, if_pos hlen]
  cases v with
  | int v =>
    have hget : Vec.get Fault.overrun (A ++ (serializeValue (.int v) ++ C)) A.length = .ok 1 :=
      Vec.get_append_cons A _
    have hslice : Vec.slice Fault.overrun (A ++ (serializeValue (.int v) ++ C)) (A.length + 1) 4 =
        .ok (Bytes.encode 4 v.toUInt32.toNat) := by
      have hsplit : A ++ (serializeValue (.int v) ++ C) =
          (A ++ [1]) ++ (Bytes.encode 4 v.toUInt32.toNat ++ C) := by simp [serializeValue]
      rw [hsplit]
      exact Vec.slice_append _ _ _ (by simp) (by simp)
    have hdec : (UInt32.ofNat (Bytes.decode (Bytes.encode 4 v.toUInt32.toNat))).toInt32 = v := by
      rw [Bytes.decode_encode_of_lt (by simpa using v.toUInt32.toNat_lt)]
      simp
    simp only [hget, hslice, Machine.ok_bind, if_pos, hdec]
    congr 1
    simp [serializeValue]
  | text s =>
    have hget : Vec.get Fault.overrun (A ++ (serializeValue (.text s) ++ C)) A.length = .ok 2 :=
      Vec.get_append_cons A _
    have hslice : Vec.slice Fault.overrun (A ++ (serializeValue (.text s) ++ C)) (A.length + 1) 2 =
        .ok (Bytes.encode 2 s.length) := by
      have hsplit : A ++ (serializeValue (.text s) ++ C) =
          (A ++ [2]) ++ (Bytes.encode 2 s.length ++ (s ++ C)) := by simp [serializeValue]
      rw [hsplit]
      exact Vec.slice_append _ _ _ (by simp) (by simp)
    have hdec : Bytes.decode (Bytes.encode 2 s.length) = s.length :=
      Bytes.decode_encode_of_lt hv
    have htext : Vec.slice Fault.overrun (A ++ (serializeValue (.text s) ++ C)) (A.length + 1 + 2)
        s.length = .ok s := by
      have hsplit : A ++ (serializeValue (.text s) ++ C) =
          (A ++ 2 :: Bytes.encode 2 s.length) ++ (s ++ C) := by simp [serializeValue]
      rw [hsplit]
      exact Vec.slice_append _ _ _ (by simp) rfl
    have hne : ¬ (2 : UInt8) = 1 := by decide
    simp only [hget, hslice, Machine.ok_bind, if_neg hne, hdec, htext]
    congr 1
    simp [serializeValue]
    omega

/-- The loop of the reader over the bytes of a tuple: it gets past them with the tuple's values. -/
theorem deserializeFrom_tuple : ∀ (tuple : Tuple) (A C values) (n : ℕ), (∀ v ∈ tuple, v.Fits) →
    deserializeFrom (A ++ (serializeTuple tuple ++ C)) (A ++ serializeTuple tuple).length
      (tuple.length + n) A.length values =
    deserializeFrom (A ++ (serializeTuple tuple ++ C)) (A ++ serializeTuple tuple).length
      n (A ++ serializeTuple tuple).length (values ++ tuple)
  | [], A, _, values, n, _ => by
    have hnil : A ++ serializeTuple [] = A := List.append_nil A
    rw [hnil, List.length_nil, Nat.zero_add, List.append_nil]
  | v :: tuple, A, C, values, n, hfits => by
    have hcons : serializeTuple (v :: tuple) = serializeValue v ++ serializeTuple tuple := rfl
    have hpos := serializeValue_pos v
    have hlt : A.length < (A ++ serializeTuple (v :: tuple)).length := by
      rw [hcons]
      simp only [List.length_append]
      omega
    have hstep := deserializeFrom_value (hfits v List.mem_cons_self) A (serializeTuple tuple ++ C)
      (n := tuple.length + n) hlt values
    have ih := deserializeFrom_tuple tuple (A ++ serializeValue v) C (values ++ [v]) n
      fun w hw => hfits w (List.mem_cons_of_mem _ hw)
    rw [hcons] at hstep ⊢
    simp only [List.append_assoc, List.singleton_append] at hstep ih ⊢
    rw [List.length_cons, Nat.add_right_comm, hstep, ih]

/-- The reader gives back the tuple whose bytes are behind the pointer. -/
theorem deserializeTuple_serializeTuple {tuple : Tuple} {schema : Schema} (rest : Str)
    (hlen : tuple.length = schema.columnCount) (hfits : ∀ v ∈ tuple, v.Fits) :
    deserializeTuple (serializeTuple tuple ++ rest) (serializeTuple tuple).length schema =
      .ok tuple := by
  rw [deserializeTuple, ← hlen]
  exact deserializeFrom_tuple tuple [] rest [] 0 hfits

/-- A tuple of the schema whose texts and bytes have lengths of two bytes is given back from exactly
its bytes, so that no read is outside them; and after its columns the reader is at their end,
however many columns might follow. -/
theorem tuple_round_trip (schema : Schema) (tuple : Tuple)
    (hmatch : tuple.matchesSchema schema = true)
    (htext : ∀ s, .text s ∈ tuple → s.length < 2 ^ 16)
    (hlen : (serializeTuple tuple).length ≤ 65535) :
    deserializeTuple (serializeTuple tuple) ((serializeTuple tuple).length % 2 ^ 16) schema =
      .ok tuple ∧
    ∀ n, deserializeFrom (serializeTuple tuple) ((serializeTuple tuple).length % 2 ^ 16)
        (schema.columnCount + n) 0 [] =
      deserializeFrom (serializeTuple tuple) ((serializeTuple tuple).length % 2 ^ 16)
        n (serializeTuple tuple).length tuple := by
  have hmod : (serializeTuple tuple).length % 2 ^ 16 = (serializeTuple tuple).length :=
    Nat.mod_eq_of_lt (by omega)
  have hcount : tuple.length = schema.columnCount := by
    have htypes : tuple.map Value.type = schema.map Column.type := of_decide_eq_true hmatch
    simpa [Schema.columnCount] using congrArg List.length htypes
  have hfits : ∀ v ∈ tuple, v.Fits := by
    intro v hv
    cases v with
    | int _ => trivial
    | text s => exact htext s hv
  rw [hmod, ← hcount]
  refine ⟨?_, fun n => ?_⟩
  · have hread := deserializeTuple_serializeTuple [] hcount hfits
    rwa [List.append_nil] at hread
  · have hloop := deserializeFrom_tuple tuple [] [] [] n hfits
    simpa only [List.nil_append, List.append_nil, List.length_nil] using hloop

/-- A negative integer, a text with the bytes of both markers, and an empty text. -/
theorem tuple_round_trip_markers : deserializeTuple
    (serializeTuple [.int (-1), .text [1, 2], .text []])
    ((serializeTuple [.int (-1), .text [1, 2], .text []]).length % 2 ^ 16)
    [⟨lit "a", .int⟩, ⟨lit "b", .text⟩, ⟨lit "c", .text⟩] =
    .ok [.int (-1), .text [1, 2], .text []] := by
  refine (tuple_round_trip _ _ (by decide) (fun s hs => ?_) (by decide)).1
  have hs : s = [1, 2] ∨ s = [] := by simpa using hs
  rcases hs with rfl | rfl <;> decide

end MiniDB
