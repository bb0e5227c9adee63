import Cacher.Lib.CString
import Mathlib.Data.Rat.Defs

/-!
# `Cacher.Lib.Json`: JSON trees as cJSON gives them

The tree that `cJSON_Parse` returns, and the calls that read it. A pointer that may be NULL is an
`Option`, a chain of items is a list, and a number is the `double` that `strtod` has made of it.
`cJSON_GetArraySize` is the length of the chain, as long as an `int` holds it.

C leaves open what becomes of a `double` that the integer type it is converted to cannot hold.
`Conversions` is one way to settle it.
-/

set_option autoImplicit false

namespace CText

/-- A `double` that is a number. -/
inductive Double where
  | finite (value : ℚ)
  /-- The text is beyond the largest `double`. -/
  | infinite (negative : Bool)
  deriving DecidableEq

/-- The value without its fractional part. -/
def Double.trunc : Double → Option Int
  | .finite value => some (value.num.tdiv value.den)
  | .infinite _ => none

/-- A JSON value (`cJSON`). -/
inductive Json where
  | null
  | bool (value : Bool)
  | number (value : Double)
  | string (value : CString)
  | array (items : List Json)
  | object (members : List (CString × Json))

/-- `cJSON_GetObjectItemCaseSensitive`: the first member of that name. The items of an array have
no names. -/
def Json.getObjectItem (name : CString) : Json → Option Json
  | .object members => (members.find? (·.1 = name)).map (·.2)
  | .null | .bool _ | .number _ | .string _ | .array _ => none

/-- `cJSON_IsObject`. -/
def Json.isObject : Json → Bool
  | .object _ => true
  | .null | .bool _ | .number _ | .string _ | .array _ => false

/-- `valuestring` of an item that `cJSON_IsString` takes. -/
def Json.string? : Json → Option CString
  | .string value => some value
  | .null | .bool _ | .number _ | .array _ | .object _ => none

/-- `valuedouble` of an item that `cJSON_IsNumber` takes. -/
def Json.number? : Json → Option Double
  | .number value => some value
  | .null | .bool _ | .string _ | .array _ | .object _ => none

/-- The items of a value that `cJSON_IsArray` takes. -/
def Json.array? : Json → Option (List Json)
  | .array items => some items
  | .null | .bool _ | .number _ | .string _ | .object _ => none

/-- `cJSON_IsTrue` of an item that `cJSON_IsBool` takes. -/
def Json.bool? : Json → Option Bool
  | .bool value => some value
  | .null | .number _ | .string _ | .array _ | .object _ => none

/-- The conversions of a `double` to the integer types. Where the truncated value fits, C says
what they give. -/
structure Conversions where
  toLong : Double → Int64
  toLong_eq : ∀ {d : Double} {n : Int}, d.trunc = some n → Int64.minValue.toInt ≤ n →
    n ≤ Int64.maxValue.toInt → toLong d = Int64.ofInt n
  toInt : Double → Int32
  toInt_eq : ∀ {d : Double} {n : Int}, d.trunc = some n → Int32.minValue.toInt ≤ n →
    n ≤ Int32.maxValue.toInt → toInt d = Int32.ofInt n

/-- What x86 does: the least number stands for every value that does not fit. -/
def Conversions.indefinite : Conversions where
  toLong d := match d.trunc with
    | some n =>
      if Int64.minValue.toInt ≤ n ∧ n ≤ Int64.maxValue.toInt then Int64.ofInt n else Int64.minValue
    | none => Int64.minValue
  toLong_eq := by
    intro d n hd hmin hmax
    simp only [hd]
    exact if_pos ⟨hmin, hmax⟩
  toInt d := match d.trunc with
    | some n =>
      if Int32.minValue.toInt ≤ n ∧ n ≤ Int32.maxValue.toInt then Int32.ofInt n else Int32.minValue
    | none => Int32.minValue
  toInt_eq := by
    intro d n hd hmin hmax
    simp only [hd]
    exact if_pos ⟨hmin, hmax⟩

/-- The members with another value under a name that is there. -/
def setMember (name : CString) (value : Json) : List (CString × Json) → List (CString × Json)
  | [] => []
  | (key, old) :: members =>
    if key = name then (key, value) :: members else (key, old) :: setMember name value members

@[simp] theorem getObjectItem_nil (name : CString) :
    (Json.object []).getObjectItem name = none := rfl

theorem getObjectItem_cons (name key : CString) (value : Json) (members : List (CString × Json)) :
    (Json.object ((key, value) :: members)).getObjectItem name
      = if key = name then some value else (Json.object members).getObjectItem name := by
  simp only [Json.getObjectItem, List.find?_cons]
  by_cases hkey : key = name
  · simp [hkey]
  · simp [hkey]

/-- The value under the name is the new one, if there was one. -/
theorem getObjectItem_setMember_self (name : CString) (value : Json)
    (members : List (CString × Json)) :
    (Json.object (setMember name value members)).getObjectItem name
      = ((Json.object members).getObjectItem name).map fun _ => value := by
  induction members with
  | nil => rfl
  | cons member members ih =>
      obtain ⟨key, old⟩ := member
      rw [setMember, getObjectItem_cons]
      split
      · rename_i hkey
        rw [getObjectItem_cons, if_pos hkey, Option.map_some]
      · rename_i hkey
        rw [getObjectItem_cons, if_neg hkey, ih]

/-- Every other name keeps its value. -/
theorem getObjectItem_setMember_of_ne {name other : CString} (h : other ≠ name) (value : Json)
    (members : List (CString × Json)) :
    (Json.object (setMember name value members)).getObjectItem other
      = (Json.object members).getObjectItem other := by
  induction members with
  | nil => rfl
  | cons member members ih =>
      obtain ⟨key, old⟩ := member
      rw [setMember, getObjectItem_cons]
      split
      · rename_i hkey
        have hother : key ≠ other := fun heq => h (heq.symm.trans hkey)
        rw [getObjectItem_cons, if_neg hother, if_neg hother]
      · rw [getObjectItem_cons, ih]

end CText
