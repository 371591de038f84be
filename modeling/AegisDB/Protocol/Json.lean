import AegisDB.Foundations.Float64
import AegisDB.Memory.Record

/-!
# Requests

A request is a JSON object. The accessors of `json_request.c` read its fields, and map a value of
the wrong shape to the absent one: a string field that is not a string, a number out of range, an
element of an array of strings that is no string. Only the length of an array, and an element of an
array of floats, can make a request malformed here.
-/

namespace AegisDB

def CString.ofString (s : String) : CString :=
  .ofBytes (s.toList.map fun c => UInt8.ofNat c.toNat)

/-- What the parser makes of a number: a double, infinite for a literal that overflows, but never a
NaN. -/
abbrev JsonNumber := {d : F64 // ¬ d.IsNaN}

/-- A JSON value, with a string as C code reads it. -/
inductive Json
  | null
  | bool (b : Bool)
  | number (d : JsonNumber)
  | string (s : CString)
  | array (xs : List Json)
  | object (fields : List (CString × Json))

namespace Json

/-- `cJSON_GetObjectItemCaseSensitive`: the first field of that name. -/
def item (o : Json) (key : String) : Option Json :=
  match o with
  | object fields => (fields.find? fun f => f.1 = .ofString key).map Prod.snd
  | _ => none

/-- A field that is there, and not `null`. -/
def present (o : Json) (key : String) : Bool :=
  match o.item key with
  | none | some null => false
  | some _ => true

end Json

def Json.asStr : Json → Option CString
  | .string s => some s
  | _ => none

/-- The value of a number that fits an unsigned 64-bit integer, truncated. -/
def Json.asU64 : Json → Option UInt64
  | .number d =>
    if d.1.Negative ∧ d.1.magnitude ≠ 0 then none
    -- `18446744073709551616.0`
    else if 0x43F0000000000000 ≤ d.1.magnitude then none
    else some (UInt64.ofNat d.1.truncate)
  | _ => none

def Json.asF64 : Json → Option F64
  | .number d => if d.1.IsFinite then some d.1 else none
  | _ => none

def Json.asBool : Json → Option Bool
  | .bool b => some b
  | _ => none

/-- `jr_str` with the default `NULL`. -/
def jrStr (o : Json) (key : String) : Option CString := (o.item key).bind Json.asStr

/-- `jr_u64`; `none` is its error. -/
def jrU64 (o : Json) (key : String) : Option UInt64 := (o.item key).bind Json.asU64

/-- `jr_f64`; `none` is its error. -/
def jrF64 (o : Json) (key : String) : Option F64 := (o.item key).bind Json.asF64

def jrBool (o : Json) (key : String) (dflt : Bool) : Bool :=
  ((o.item key).bind Json.asBool).getD dflt

/-- `jr_str_array`: elements that are no strings are dropped; `none` for more than `limit`
elements. -/
def jrStrArray (o : Json) (key : String) (limit : ℕ) : Option (List CString) :=
  match o.item key with
  | some (.array xs) => if limit < xs.length then none else some (xs.filterMap Json.asStr)
  | _ => some []

/-- `jr_float_array`: `none` for more than `limit` elements (no limit when that is zero) or for an
element that is no finite number. -/
def jrFloatArray (o : Json) (key : String) (limit : ℕ) : Option (List F32) :=
  match o.item key with
  | some (.array xs) =>
    if limit ≠ 0 ∧ limit < xs.length then none
    else xs.mapM fun x => x.asF64.map F64.toF32
  | _ => some []

/-- A number that is read as an integer is read as its integer part. -/
theorem Json.of_asU64_eq_some {v : Json} {t : UInt64} (h : v.asU64 = some t) :
    ∃ d : JsonNumber, v = .number d ∧ ¬ (d.1.Negative ∧ d.1.magnitude ≠ 0) ∧
      t.toNat = d.1.truncate := by
  unfold Json.asU64 at h
  split at h
  · rename_i d
    split_ifs at h with hneg hbig
    cases h
    exact ⟨d, rfl, hneg, UInt64.toNat_ofNat_of_lt' (F64.truncate_lt (not_le.1 hbig))⟩
  · cases h

end AegisDB
