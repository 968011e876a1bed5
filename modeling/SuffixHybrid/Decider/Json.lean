import Mathlib.Data.String.Basic
import Mathlib.Data.List.Sort
import Mathlib.Data.List.Nodup
import Mathlib.Tactic.Common

/-!
# JSON values

Requests are JSON values whose objects keep the order of their keys. A key occurs once in an object:
the parser sees to it, and the maps the program builds are filled by insertion. Numbers are kept as
they were written; what the JSON crate and the formatting of floats say of them is `Serde`.
-/

namespace SuffixHybrid.Decider

variable {N : Type}

/-! ## Values -/

/-- `serde_json::Value`. -/
inductive Value (N : Type) where
  | null
  | bool (b : Bool)
  | number (n : N)
  | string (s : String)
  | array (values : List (Value N))
  | object (values : List (String × Value N))

/-- The keys of every object are distinct. -/
inductive Value.Distinct : Value N → Prop where
  | null : Distinct .null
  | bool {b} : Distinct (.bool b)
  | number {n} : Distinct (.number n)
  | string {s} : Distinct (.string s)
  | array {values} : (∀ v ∈ values, Distinct v) → Distinct (.array values)
  | object {values} :
    (values.map Prod.fst).Nodup → (∀ e ∈ values, Distinct e.2) → Distinct (.object values)

namespace Value

/-- `value.as_object()`. -/
def asObject : Value N → Option (List (String × Value N))
  | object values => some values
  | _ => none

/-- `value.as_array()`. -/
def asArray : Value N → Option (List (Value N))
  | array values => some values
  | _ => none

/-- `value.as_str()`. -/
def asStr : Value N → Option String
  | string s => some s
  | _ => none

/-- `value.is_null()`. -/
def isNull : Value N → Bool
  | null => true
  | _ => false

/-- `is_content`. -/
def isContent : Value N → Bool
  | string _ | array _ | object _ => true
  | _ => false

/-- `value.get(key)`. -/
def get (v : Value N) (key : String) : Option (Value N) := v.asObject.bind (List.lookup key)

lemma eq_object {v : Value N} {m : List (String × Value N)} (h : v.asObject = some m) : v = .object m := by
  cases v with
  | object values => rw [Option.some.inj h]
  | _ => cases h

lemma Distinct.keys {v : Value N} (hv : v.Distinct) {m : List (String × Value N)}
    (h : v.asObject = some m) : (m.map Prod.fst).Nodup := by
  rw [eq_object h] at hv
  cases hv with
  | object hkeys _ => exact hkeys

lemma Distinct.values {v : Value N} (hv : v.Distinct) {m : List (String × Value N)}
    (h : v.asObject = some m) : ∀ e ∈ m, e.2.Distinct := by
  rw [eq_object h] at hv
  cases hv with
  | object _ hvalues => exact hvalues

lemma mem_of_lookup {α : Type} {m : List (String × α)} {key : String} {v : α}
    (h : m.lookup key = some v) : (key, v) ∈ m := by
  induction m with
  | nil => cases h
  | cons e m ih =>
    obtain ⟨k, u⟩ := e
    rw [List.lookup_cons] at h
    split at h
    · next hk =>
      rw [← Option.some.inj h, beq_iff_eq.1 hk]
      exact List.mem_cons_self
    · exact List.mem_cons_of_mem _ (ih h)

/-- What a map of a well-formed value holds is well formed. -/
lemma Distinct.lookup {v : Value N} (hv : v.Distinct) {m : List (String × Value N)}
    (h : v.asObject = some m) {key : String} {u : Value N} (hu : m.lookup key = some u) :
    u.Distinct :=
  hv.values h _ (mem_of_lookup hu)

end Value

/-- `map.insert(key, value)`: a new key goes to the end, a known one keeps its place. -/
def insert {α : Type} (m : List (String × α)) (key : String) (v : α) : List (String × α) :=
  if key ∈ m.map Prod.fst then m.map fun e => if e.1 = key then (key, v) else e else m ++ [(key, v)]

/-- `iter.collect::<Map<_, _>>()`. -/
def collect {α : Type} (entries : List (String × α)) : List (String × α) :=
  entries.foldl (fun m e => insert m e.1 e.2) []

/-- Entries with distinct keys are collected in their order. -/
lemma collect_of_nodup {α : Type} {entries : List (String × α)} (h : (entries.map Prod.fst).Nodup) :
    collect entries = entries := by
  suffices ∀ m : List (String × α), ((m ++ entries).map Prod.fst).Nodup →
      entries.foldl (fun m e => insert m e.1 e.2) m = m ++ entries from this [] h
  clear h
  induction entries with
  | nil => simp
  | cons e entries ih =>
    intro m hm
    have hnew : e.1 ∉ m.map Prod.fst := by
      rw [List.map_append, List.map_cons] at hm
      intro hmem
      exact (List.nodup_append.1 hm).2.2 _ hmem _ List.mem_cons_self rfl
    rw [List.foldl_cons, insert, if_neg hnew, ih]
    · simp
    · simpa using hm

lemma lookup_of_mem {α : Type} {m : List (String × α)} (hm : (m.map Prod.fst).Nodup) {key : String}
    {v : α} (h : (key, v) ∈ m) : m.lookup key = some v := by
  induction m with
  | nil => cases h
  | cons e m ih =>
    rw [List.map_cons, List.nodup_cons] at hm
    rw [List.lookup_cons]
    cases h with
    | head => simp
    | tail _ h =>
      have hne : key ≠ e.1 := by
        rintro rfl
        exact hm.1 (List.mem_map.2 ⟨_, h, rfl⟩)
      rw [beq_eq_false_iff_ne.2 hne]
      exact ih hm.2 h

/-! ## Text -/

/-- What is taken from the JSON crate and from the formatting of floats: the text of a string; of a
number its text, whether it is a float, and its value; of a float whether it is zero, whether its
magnitude is below `1e-4` or from `1e16` on, its text, and its mantissa and exponent in the scientific
one. -/
class Serde (N : Type) where
  F64 : Type
  quote : String → String
  text : N → String
  isF64 : N → Bool
  asF64 : N → Option F64
  isZero : F64 → Bool
  isExtreme : F64 → Bool
  display : F64 → String
  lowerExp : F64 → String × ℤ

section
variable [Serde N]

/-- `truthy`. -/
def truthy : Value N → Bool
  | .null => false
  | .bool v => v
  | .number v => (Serde.asF64 v).any fun x => !Serde.isZero x
  | .string v => !v.isEmpty
  | .array v => !v.isEmpty
  | .object v => !v.isEmpty

/-- The exponent with at least two digits. -/
def exponentText (exp : ℤ) : String :=
  (if 0 ≤ exp then "+" else "-") ++ (if exp.natAbs < 10 then "0" else "") ++ toString exp.natAbs

/-- A number as Python writes it: a float with a fraction, or in the scientific form with a signed
exponent. -/
def pythonNumber (n : N) : String :=
  match Serde.isF64 n, Serde.asF64 n with
  | true, some value =>
    if !Serde.isZero value && Serde.isExtreme value then
      (Serde.lowerExp value).1 ++ "e" ++ exponentText (Serde.lowerExp value).2
    else
      let raw := Serde.display value
      if raw.toList.contains '.' then raw else raw ++ ".0"
  | _, _ => Serde.text n

mutual

/-- `python_json_with`. -/
def pythonJsonWith (item key : String) : Value N → String
  | .array values => "[" ++ item.intercalate (valueTexts item key values) ++ "]"
  | .object values => "\x7b" ++ item.intercalate (entryTexts item key values) ++ "\x7d"
  | .number n => pythonNumber n
  | .null => "null"
  | .bool b => if b then "true" else "false"
  | .string s => Serde.quote N s

/-- The texts of the items of an array. -/
def valueTexts (item key : String) : List (Value N) → List String
  | [] => []
  | v :: values => pythonJsonWith item key v :: valueTexts item key values

/-- The texts of the entries of an object. -/
def entryTexts (item key : String) : List (String × Value N) → List String
  | [] => []
  | (name, v) :: values =>
    (Serde.quote N name ++ key ++ pythonJsonWith item key v) :: entryTexts item key values

end

/-- `python_json`. -/
def pythonJson (v : Value N) : String := pythonJsonWith ", " ": " v

/-- `describe`: a text as it is, other values as Python writes them. -/
def describe (v : Value N) : String := v.asStr.getD (pythonJson v)

mutual

/-- `sorted`: every object by its keys. -/
def sorted : Value N → Value N
  | .object m => .object ((sortedEntries m).mergeSort fun a b => a.1 ≤ b.1)
  | .array values => .array (sortedValues values)
  | v => v

/-- `sorted` of the items of an array. -/
def sortedValues : List (Value N) → List (Value N)
  | [] => []
  | v :: values => sorted v :: sortedValues values

/-- `sorted` of the values of an object. -/
def sortedEntries : List (String × Value N) → List (String × Value N)
  | [] => []
  | (k, v) :: m => (k, sorted v) :: sortedEntries m

end

/-- `canonical`. -/
def canonical (v : Value N) : String := v.asStr.getD (pythonJsonWith "," ":" (sorted v))

end

end SuffixHybrid.Decider
