import Mathlib

/-!
# Common types

The constants, record identifiers, values, columns, schemas and tuples that every layer of the
engine shares. A byte string of the program is a list of bytes, `Str`; a 32-bit `int` is an
`Int32`; the unsigned page and slot numbers are naturals.

## Main definitions

* `Str`, `lit`: byte strings, and the byte string of a literal
* `RID`: a page number and a slot in that page
* `Value`, `Column`, `Schema`, `Tuple`: typed values and the shape of a row
-/

namespace MiniDB

/-- `PAGE_SIZE`: page size in bytes. -/
def PAGE_SIZE : ℕ := 4096

/-- `MAX_SLOTS_PER_PAGE`: the length of a page's slot directory. -/
def MAX_SLOTS_PER_PAGE : ℕ := 128

/-- `INVALID_PAGE_ID`: the page number that marks an unused frame. -/
def INVALID_PAGE_ID : ℕ := 0xFFFFFFFF

/-- A byte string (`std::string`, `std::vector<char>`). -/
abbrev Str := List UInt8

/-- The byte string of a literal of the source. -/
def lit (s : String) : Str := s.toList.map fun c => c.toNat.toUInt8

/-- `isspace`. -/
def isSpace (c : UInt8) : Bool := c = 32 || (9 ≤ c && c ≤ 13)

/-- `isdigit`. -/
def isDigit (c : UInt8) : Bool := 48 ≤ c && c ≤ 57

/-- Record identifier: the page and the slot within that page that hold a row. -/
structure RID where
  pageId : ℕ
  slotNum : ℕ
deriving DecidableEq, Repr, Inhabited

/-- Supported column data types. -/
inductive DataType
  | int
  | text
deriving DecidableEq, Repr

/-- A single value: a 32-bit integer or a byte string. -/
inductive Value
  | int (v : Int32)
  | text (s : Str)
deriving DecidableEq, Repr

/-- `Value::type`. -/
def Value.type : Value → DataType
  | .int _ => .int
  | .text _ => .text

/-- A column definition: name and data type. -/
structure Column where
  name : Str
  type : DataType
deriving DecidableEq, Repr

/-- A schema: the ordered columns of a table. -/
abbrev Schema := List Column

namespace Schema

/-- `Schema::columnCount`. -/
def columnCount (schema : Schema) : ℕ := schema.length

/-- `Schema::findColumn`: the first column of that name; the source's `-1` is `none`. -/
def findColumn (schema : Schema) (name : Str) : Option ℕ :=
  schema.findIdx? fun col => col.name = name

end Schema

/-- A tuple: the ordered values of one row. -/
abbrev Tuple := List Value

/-- `Tuple::matchesSchema`: as many values as columns, each of its column's type. -/
def Tuple.matchesSchema (tuple : Tuple) (schema : Schema) : Bool :=
  tuple.map Value.type = schema.map Column.type

end MiniDB
