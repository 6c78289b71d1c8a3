import Stronk.ByteMemory
import Stronk.JsonText
import Stronk.McprCodec

/-! What the `json_*` accessors find in a value, and the C strings in blocks of memory. -/
namespace Stronk.Mapi
open JsonText Mcpr

section Accessors

/-- A later member of the same name takes the place of an earlier one. -/
def jsonObjectGet : Json → List UInt8 → Option Json
  | .object members, key => members.reverse.lookup key
  | _, _ => none

/-- What `json_array_size` counts and `json_array_get` gives. -/
def jsonArray : Json → List Json
  | .array elements => elements
  | _ => []

def jsonStringValue : Json → Option (List UInt8)
  | .string text => some (cString text)
  | _ => none

def jsonIsTrue : Json → Bool
  | .bool b => b
  | _ => false

/-- The text of a member that is a string. -/
def stringMember (json : Json) (key : List UInt8) : Option (List UInt8) :=
  (jsonObjectGet json key).bind jsonStringValue

theorem stringMember_nulFree {json : Json} {key text : List UInt8}
    (h : stringMember json key = some text) : 0 ∉ text := by
  obtain ⟨value, -, hvalue⟩ := Option.bind_eq_some_iff.mp h
  cases value with
  | string s =>
    cases hvalue
    exact zero_not_mem_cString s
  | _ => cases hvalue

end Accessors

section Blocks

/-- The bytes from a pointer to the end of its block start with a text and its terminator. -/
def ReadsAs (bytes text : List UInt8) : Prop := 0 ∉ text ∧ ∃ rest, bytes = text ++ 0 :: rest

theorem ReadsAs.cString_eq {bytes text : List UInt8} (h : ReadsAs bytes text) :
    cString bytes = text := by
  obtain ⟨hnul, rest, rfl⟩ := h
  exact cString_append_zero hnul rest

theorem ReadsAs.unique {bytes text text' : List UInt8} (h : ReadsAs bytes text)
    (h' : ReadsAs bytes text') : text = text' := h.cString_eq.symm.trans h'.cString_eq

end Blocks

end Stronk.Mapi
