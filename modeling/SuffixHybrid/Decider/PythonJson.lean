import SuffixHybrid.Decider.Numbers

/-!
# The program writes JSON as Python does

A JSON text is taken as the tree it spells out, in which an object may have a key more than once. The JSON
crate and Python both read it into objects that keep the place of a key and its last value (`read`, `loads`).
Two things can differ between a parsed tree and the text of Python: the order of the entries, which the
program arranges before it prints and Python while it does, and the numbers. One induction over the tree
settles both (`text_form`). A sorted value does not depend on the order of the keys (`Reordered.sorted_eq`).
-/

namespace SuffixHybrid.Decider

open Lib Lib.F64

variable {N : Type}

/-! ## Reading -/

/-- Every number in the tree has the property. -/
inductive Value.Numbers (P : N → Prop) : Value N → Prop where
  | null : Numbers P .null
  | bool {b} : Numbers P (.bool b)
  | number {n} : P n → Numbers P (.number n)
  | string {s} : Numbers P (.string s)
  | array {values} : (∀ v ∈ values, Numbers P v) → Numbers P (.array values)
  | object {values} : (∀ e ∈ values, Numbers P e.2) → Numbers P (.object values)

mutual

/-- What the JSON crate makes of a tree. -/
def read : Value N → Value N
  | .object m => .object (collect (readEntries m))
  | .array values => .array (readValues values)
  | v => v

/-- `read` of the items of an array. -/
def readValues : List (Value N) → List (Value N)
  | [] => []
  | v :: values => read v :: readValues values

/-- `read` of the values of an object. -/
def readEntries : List (String × Value N) → List (String × Value N)
  | [] => []
  | (k, v) :: m => (k, read v) :: readEntries m

end

mutual

/-- `json.loads`: a `dict` takes a new key at its end and keeps the place of a known one. -/
def loads : Value Literal → Value PyNumber
  | .null => .null
  | .bool b => .bool b
  | .number n => .number n.toPy
  | .string s => .string s
  | .array values => .array (loadsValues values)
  | .object m => .object (collect (loadsEntries m))

/-- `loads` of the items of an array. -/
def loadsValues : List (Value Literal) → List (Value PyNumber)
  | [] => []
  | v :: values => loads v :: loadsValues values

/-- `loads` of the values of an object. -/
def loadsEntries : List (String × Value Literal) → List (String × Value PyNumber)
  | [] => []
  | (k, v) :: m => (k, loads v) :: loadsEntries m

end

/-! ## Python's text -/

section
variable [Printer]

mutual

/-- `json.dumps(…, ensure_ascii=False)` with the separators and `sort_keys`. The texts of the values do not
depend on their order, so they are sorted with their keys. -/
def dumps (item key : String) (sortKeys : Bool) : Value PyNumber → String
  | .null => "null"
  | .bool b => if b then "true" else "false"
  | .number n => n.text
  | .string s => Printer.quote s
  | .array values => "[" ++ item.intercalate (dumpsValues item key sortKeys values) ++ "]"
  | .object m =>
    let entries := dumpsEntries item key sortKeys m
    let arranged := if sortKeys then entries.mergeSort fun a b => a.1 ≤ b.1 else entries
    "\x7b" ++ item.intercalate (arranged.map fun e => Printer.quote e.1 ++ key ++ e.2) ++ "\x7d"

/-- The texts of the items of an array. -/
def dumpsValues (item key : String) (sortKeys : Bool) : List (Value PyNumber) → List String
  | [] => []
  | v :: values => dumps item key sortKeys v :: dumpsValues item key sortKeys values

/-- The keys of an object with the texts of their values. -/
def dumpsEntries (item key : String) (sortKeys : Bool) : List (String × Value PyNumber) → List (String × String)
  | [] => []
  | (k, v) :: m => (k, dumps item key sortKeys v) :: dumpsEntries item key sortKeys m

end

end

/-! ## The items of a container -/

lemma readValues_eq (values : List (Value N)) : readValues values = values.map read := by
  induction values with
  | nil => rfl
  | cons v values ih => rw [readValues, ih, List.map_cons]

lemma readEntries_eq (m : List (String × Value N)) : readEntries m = m.map fun e => (e.1, read e.2) := by
  induction m with
  | nil => rfl
  | cons e m ih => rw [readEntries, ih, List.map_cons]

lemma loadsValues_eq (values : List (Value Literal)) : loadsValues values = values.map loads := by
  induction values with
  | nil => rfl
  | cons v values ih => rw [loadsValues, ih, List.map_cons]

lemma loadsEntries_eq (m : List (String × Value Literal)) :
    loadsEntries m = m.map fun e => (e.1, loads e.2) := by
  induction m with
  | nil => rfl
  | cons e m ih => rw [loadsEntries, ih, List.map_cons]

lemma sortedValues_eq (values : List (Value N)) : sortedValues values = values.map sorted := by
  induction values with
  | nil => rfl
  | cons v values ih => rw [sortedValues, ih, List.map_cons]

lemma sortedEntries_eq (m : List (String × Value N)) :
    sortedEntries m = m.map fun e => (e.1, sorted e.2) := by
  induction m with
  | nil => rfl
  | cons e m ih => rw [sortedEntries, ih, List.map_cons]

section
variable [Serde N] (item key : String)

lemma valueTexts_eq (values : List (Value N)) :
    valueTexts item key values = values.map (pythonJsonWith item key) := by
  induction values with
  | nil => rfl
  | cons v values ih => rw [valueTexts, ih, List.map_cons]

lemma entryTexts_eq (m : List (String × Value N)) : entryTexts item key m =
    (m.map fun e => (e.1, pythonJsonWith item key e.2)).map fun e => Serde.quote N e.1 ++ key ++ e.2 := by
  induction m with
  | nil => rfl
  | cons e m ih => rw [entryTexts, ih, List.map_cons, List.map_cons]

end

section
variable [Printer] (item key : String) (sortKeys : Bool)

lemma dumpsValues_eq (values : List (Value PyNumber)) :
    dumpsValues item key sortKeys values = values.map (dumps item key sortKeys) := by
  induction values with
  | nil => rfl
  | cons v values ih => rw [dumpsValues, ih, List.map_cons]

lemma dumpsEntries_eq (m : List (String × Value PyNumber)) :
    dumpsEntries item key sortKeys m = m.map fun e => (e.1, dumps item key sortKeys e.2) := by
  induction m with
  | nil => rfl
  | cons e m ih => rw [dumpsEntries, ih, List.map_cons]

end

/-! ## Collecting and sorting entries -/

lemma insert_map {α β : Type} (f : α → β) (m : List (String × α)) (key : String) (v : α) :
    insert (m.map fun e => (e.1, f e.2)) key (f v) = (insert m key v).map fun e => (e.1, f e.2) := by
  have hkeys : (m.map fun e => (e.1, f e.2)).map Prod.fst = m.map Prod.fst := by
    rw [List.map_map]
    rfl
  unfold insert
  rw [hkeys]
  split_ifs
  · rw [List.map_map, List.map_map]
    apply List.map_congr_left
    intro e _
    simp only [Function.comp_apply]
    split_ifs <;> rfl
  · rw [List.map_append]
    rfl

/-- Values are collected as their images are. -/
lemma collect_map {α β : Type} (f : α → β) (m : List (String × α)) :
    collect (m.map fun e => (e.1, f e.2)) = (collect m).map fun e => (e.1, f e.2) := by
  suffices ∀ acc : List (String × α),
      (m.map fun e => (e.1, f e.2)).foldl (fun m e => insert m e.1 e.2) (acc.map fun e => (e.1, f e.2)) =
        (m.foldl (fun m e => insert m e.1 e.2) acc).map fun e => (e.1, f e.2) from this []
  induction m with
  | nil => exact fun _ => rfl
  | cons e m ih =>
    intro acc
    rw [List.map_cons, List.foldl_cons, List.foldl_cons, insert_map, ih]

/-- A new key is new, and a known one keeps its place. -/
lemma insert_keys {α : Type} (m : List (String × α)) (key : String) (v : α) :
    (insert m key v).map Prod.fst =
      if key ∈ m.map Prod.fst then m.map Prod.fst else m.map Prod.fst ++ [key] := by
  unfold insert
  split_ifs
  · rw [List.map_map]
    apply List.map_congr_left
    intro e _
    simp only [Function.comp_apply]
    split_ifs with h
    · exact h.symm
    · rfl
  · rw [List.map_append]
    rfl

lemma mem_insert {α : Type} {m : List (String × α)} {key : String} {v : α} {e : String × α}
    (h : e ∈ insert m key v) : e ∈ m ∨ e = (key, v) := by
  unfold insert at h
  split_ifs at h
  · obtain ⟨e', he, rfl⟩ := List.mem_map.mp h
    split_ifs
    · exact .inr rfl
    · exact .inl he
  · rw [List.mem_append, List.mem_singleton] at h
    exact h

/-- What is collected has distinct keys and comes from the entries. -/
lemma collect_spec {α : Type} (entries : List (String × α)) :
    ((collect entries).map Prod.fst).Nodup ∧ ∀ e ∈ collect entries, e ∈ entries := by
  suffices ∀ m : List (String × α), (m.map Prod.fst).Nodup →
      ((entries.foldl (fun m e => insert m e.1 e.2) m).map Prod.fst).Nodup ∧
        ∀ e ∈ entries.foldl (fun m e => insert m e.1 e.2) m, e ∈ m ∨ e ∈ entries by
    obtain ⟨hkeys, hmem⟩ := this [] List.nodup_nil
    exact ⟨hkeys, fun e he => (hmem e he).resolve_left List.not_mem_nil⟩
  induction entries with
  | nil => exact fun m hm => ⟨hm, fun e he => .inl he⟩
  | cons e entries ih =>
    intro m hm
    have hm' : ((insert m e.1 e.2).map Prod.fst).Nodup := by
      rw [insert_keys]
      split_ifs with hnew
      · exact hm
      · exact List.nodup_append.mpr ⟨hm, List.nodup_singleton _, by
          rintro k hk k' hk' rfl
          rw [List.mem_singleton] at hk'
          exact hnew (hk' ▸ hk)⟩
    obtain ⟨hkeys, hmem⟩ := ih _ hm'
    refine ⟨hkeys, fun e' he' => ?_⟩
    rcases hmem e' he' with h | h
    · rcases mem_insert h with h | rfl
      · exact .inl h
      · exact .inr List.mem_cons_self
    · exact .inr (List.mem_cons_of_mem _ h)

/-- Values are sorted by their keys as their images are. -/
lemma mergeSort_map {α β : Type} (f : α → β) (m : List (String × α)) :
    (m.mergeSort fun a b => a.1 ≤ b.1).map (fun e => (e.1, f e.2)) =
      (m.map fun e => (e.1, f e.2)).mergeSort fun a b => a.1 ≤ b.1 :=
  List.map_mergeSort fun _ _ _ _ => rfl

/-- Entries with distinct keys have one order by their keys. -/
lemma mergeSort_perm_eq {α : Type} {m m' : List (String × α)} (hm : (m.map Prod.fst).Nodup) (h : m.Perm m') :
    (m.mergeSort fun a b => a.1 ≤ b.1) = m'.mergeSort fun a b => a.1 ≤ b.1 := by
  have htrans : ∀ a b c : String × α, decide (a.1 ≤ b.1) = true → decide (b.1 ≤ c.1) = true →
      decide (a.1 ≤ c.1) = true := by
    intro a b c hab hbc
    exact decide_eq_true ((of_decide_eq_true hab).trans (of_decide_eq_true hbc))
  have htotal : ∀ a b : String × α, (decide (a.1 ≤ b.1) || decide (b.1 ≤ a.1)) = true := by
    intro a b
    rw [Bool.or_eq_true, decide_eq_true_iff, decide_eq_true_iff]
    exact le_total a.1 b.1
  apply List.Perm.eq_of_pairwise _ (List.pairwise_mergeSort htrans htotal m)
    (List.pairwise_mergeSort htrans htotal m')
  · exact (List.mergeSort_perm m _).trans (h.trans (List.mergeSort_perm m' _).symm)
  · intro a b ha hb hab hba
    have hkey : a.1 = b.1 := le_antisymm (of_decide_eq_true hab) (of_decide_eq_true hba)
    rw [List.mem_mergeSort] at ha hb
    exact List.inj_on_of_nodup_map hm ha (h.mem_iff.mpr hb) hkey

/-! ## The two texts -/

/-- A parsed tree as it is printed: `canonical` sorts it. -/
def form (sortKeys : Bool) (v : Value N) : Value N := if sortKeys then sorted v else v

lemma form_object (sortKeys : Bool) (m : List (String × Value N)) : form sortKeys (.object m) =
    .object (if sortKeys then (m.map fun e => (e.1, form sortKeys e.2)).mergeSort fun a b => a.1 ≤ b.1
      else m.map fun e => (e.1, form sortKeys e.2)) := by
  cases sortKeys with
  | true =>
    show sorted (.object m) = _
    rw [sorted, sortedEntries_eq]
    rfl
  | false =>
    show Value.object m = .object (m.map id)
    rw [List.map_id]

lemma form_array (sortKeys : Bool) (values : List (Value N)) :
    form sortKeys (.array values) = .array (values.map (form sortKeys)) := by
  cases sortKeys with
  | true =>
    show sorted (.array values) = _
    rw [sorted, sortedValues_eq]
    rfl
  | false =>
    show Value.array values = .array (values.map id)
    rw [List.map_id]

section
variable [Printer]

/-- What the program prints of a parsed tree is what Python prints of what it reads, by induction over the
tree: the entries of an object are collected with the texts of their values. -/
theorem text_form (item key : String) (sortKeys : Bool) {t : Value Literal}
    (h : t.Numbers fun n => pythonNumber n = n.toPy.text) :
    pythonJsonWith item key (form sortKeys (read t)) = dumps item key sortKeys (loads t) := by
  induction h with
  | null => cases sortKeys <;> rfl
  | bool => cases sortKeys <;> rfl
  | string => cases sortKeys <;> rfl
  | number hn => cases sortKeys <;> exact hn
  | @array values _ ih =>
    rw [read, form_array, pythonJsonWith, valueTexts_eq, readValues_eq, loads, dumps, dumpsValues_eq,
      loadsValues_eq, List.map_map, List.map_map, List.map_map]
    congr 3
    exact List.map_congr_left fun v hv => ih v hv
  | @object m _ ih =>
    have htexts : (collect (readEntries m)).map
        (fun e => (e.1, pythonJsonWith item key (form sortKeys e.2))) =
        dumpsEntries item key sortKeys (collect (loadsEntries m)) := by
      rw [dumpsEntries_eq, ← collect_map (fun v => pythonJsonWith item key (form sortKeys v)),
        ← collect_map (dumps item key sortKeys), readEntries_eq, loadsEntries_eq, List.map_map,
        List.map_map]
      congr 1
      exact List.map_congr_left fun e he => by rw [Function.comp_apply, Function.comp_apply, ih e he]
    have hform : ((collect (readEntries m)).map fun e => (e.1, form sortKeys e.2)).map
        (fun e => (e.1, pythonJsonWith item key e.2)) =
        dumpsEntries item key sortKeys (collect (loadsEntries m)) := by
      rw [← htexts, List.map_map]
      rfl
    rw [read, form_object, pythonJsonWith, entryTexts_eq, loads, dumps, ← hform]
    cases sortKeys with
    | true =>
      rw [if_pos rfl, if_pos rfl, mergeSort_map]
      rfl
    | false =>
      rw [if_neg Bool.false_ne_true, if_neg Bool.false_ne_true]
      rfl

end

/-! ## Reordered keys -/

/-- The second value has the keys of some objects of the first in another order. -/
inductive Reordered : Value N → Value N → Prop where
  | refl (v : Value N) : Reordered v v
  | trans {u v w : Value N} : Reordered u v → Reordered v w → Reordered u w
  | perm {m m' : List (String × Value N)} : m.Perm m' → Reordered (.object m) (.object m')
  | item {values values' : List (Value N)} {v w : Value N} :
    Reordered v w → Reordered (.array (values ++ v :: values')) (.array (values ++ w :: values'))
  | entry {m m' : List (String × Value N)} {k : String} {v w : Value N} :
    Reordered v w → Reordered (.object (m ++ (k, v) :: m')) (.object (m ++ (k, w) :: m'))

/-- The keys stay distinct, and sorting undoes the change. -/
theorem Reordered.sorted_eq {v w : Value N} (h : Reordered v w) (hv : v.Distinct) :
    w.Distinct ∧ sorted w = sorted v := by
  induction h with
  | refl => exact ⟨hv, rfl⟩
  | trans _ _ ih ih' =>
    obtain ⟨hv', heq⟩ := ih hv
    obtain ⟨hw, heq'⟩ := ih' hv'
    exact ⟨hw, heq'.trans heq⟩
  | @perm m m' hperm =>
    cases hv with
    | object hkeys hvalues =>
      refine ⟨.object ((hperm.map _).nodup_iff.mp hkeys) fun e he => hvalues e (hperm.mem_iff.mpr he), ?_⟩
      rw [sorted, sorted, sortedEntries_eq, sortedEntries_eq]
      congr 1
      refine (mergeSort_perm_eq ?_ (hperm.map _)).symm
      rw [List.map_map]
      exact hkeys
  | @item values values' v w _ ih =>
    cases hv with
    | array hvalues =>
      obtain ⟨hw, heq⟩ := ih (hvalues v (by simp))
      constructor
      · refine .array fun u hu => ?_
        simp only [List.mem_append, List.mem_cons] at hu
        rcases hu with hu | rfl | hu
        · exact hvalues u (by simp [hu])
        · exact hw
        · exact hvalues u (by simp [hu])
      · simp [sorted, sortedValues_eq, heq]
  | @entry m m' k v w _ ih =>
    cases hv with
    | object hkeys hvalues =>
      obtain ⟨hw, heq⟩ := ih (hvalues (k, v) (by simp))
      constructor
      · refine .object (by simpa using hkeys) fun e he => ?_
        simp only [List.mem_append, List.mem_cons] at he
        rcases he with he | rfl | he
        · exact hvalues e (by simp [he])
        · exact hw
        · exact hvalues e (by simp [he])
      · simp [sorted, sortedEntries_eq, heq]

/-- A text is not reordered. -/
lemma Reordered.asStr_eq {v w : Value N} (h : Reordered v w) : w.asStr = v.asStr := by
  induction h with
  | refl => rfl
  | trans _ _ ih ih' => exact ih'.trans ih
  | perm => rfl
  | item => rfl
  | entry => rfl

/-- The JSON crate leaves no key twice. -/
lemma read_distinct {P : N → Prop} {t : Value N} (h : t.Numbers P) : (read t).Distinct := by
  induction h with
  | null => exact .null
  | bool => exact .bool
  | string => exact .string
  | number => exact .number
  | @array values _ ih =>
    rw [read, readValues_eq]
    refine .array fun v hv => ?_
    obtain ⟨u, hu, rfl⟩ := List.mem_map.mp hv
    exact ih u hu
  | @object m _ ih =>
    rw [read, readEntries_eq]
    obtain ⟨hkeys, hmem⟩ := collect_spec (m.map fun e => (e.1, read e.2))
    refine .object hkeys fun e he => ?_
    obtain ⟨u, hu, rfl⟩ := List.mem_map.mp (hmem e he)
    exact ih u hu

lemma Value.Numbers.imp {P Q R : N → Prop} (himp : ∀ n, P n → Q n → R n) {t : Value N} (hp : t.Numbers P)
    (hq : t.Numbers Q) : t.Numbers R := by
  induction hp with
  | null => exact .null
  | bool => exact .bool
  | string => exact .string
  | number hn =>
    cases hq with
    | number hn' => exact .number (himp _ hn hn')
  | array _ ih =>
    cases hq with
    | array hq => exact .array fun v hv => ih v hv (hq v hv)
  | object _ ih =>
    cases hq with
    | object hq => exact .object fun e he => ih e he (hq e he)

/-! ## The texts of the program -/

/-- For every text whose floats are finite and whose floats are printed by their shortest digits, the program
prints the parsed tree as Python does, and `canonical` does not depend on the order of the keys. -/
theorem pythonJson_dumps [Printer] {t : Value Literal}
    (hfinite : t.Numbers fun n => n.isFloat → n.toDouble.Finite)
    (hshortest : t.Numbers fun n => n.isFloat → n.toDouble.Printed) :
    pythonJson (read t) = dumps ", " ": " false (loads t) ∧
    ((read t).asStr = none → canonical (read t) = dumps "," ":" true (loads t)) ∧
    ∀ w, Reordered (read t) w → canonical w = canonical (read t) := by
  have h : t.Numbers fun n => pythonNumber n = n.toPy.text :=
    hfinite.imp (fun n hn hn' => pythonNumber_repr hn hn') hshortest
  refine ⟨text_form ", " ": " false h, fun hstr => ?_, fun w hw => ?_⟩
  · rw [canonical, hstr]
    exact text_form "," ":" true h
  · unfold canonical
    rw [hw.asStr_eq, (hw.sorted_eq (read_distinct h)).2]

/-- A printer that knows the digits of a few floats. -/
@[reducible] def fewDigits : Printer where
  quote s := "\"" ++ s ++ "\""
  shortest x :=
    if x = roundBinary64 (1 / 10 ^ 6) then ⟨[1], -5⟩
    else if x = 10 ^ 22 then ⟨[1], 23⟩
    else ⟨[5], 0⟩

/-- A text with floats of either form, a key that stands twice, and integers with and without a word. -/
def sampleTree : Value Literal :=
  .object
    [("b", .array
        [.number ⟨false, 0, some [0, 0, 0, 0, 0, 1], none⟩, .number ⟨true, 0, some [0], none⟩,
          .number ⟨false, 1, none, some ⟨'E', .none, [2, 2]⟩⟩]),
      ("a", .object
        [("k", .number ⟨false, 0, some [5], none⟩),
          ("k", .number ⟨false, 123456789012345678901234567890, none, none⟩)]),
      ("n", .number ⟨true, 0, none, none⟩)]

/-- A float of one digit is printed by its shortest digits. -/
lemma printed_of_one [Printer] {x : Double} {i : ℕ} {p : ℤ} (hx : Printer.shortest x.mag = ⟨[i], p⟩)
    (hpos : 0 < i) (hlt : i < 10) (hround : roundBinary64 (Decimal.value ⟨[i], p⟩) = x.mag) : x.Printed := by
  intro _
  rw [hx]
  exact ⟨⟨by simpa using hlt, hpos⟩, hround, fun e he _ => he.length_pos⟩

lemma sampleTree_numbers {P : Literal → Prop} (hsmall : P ⟨false, 0, some [0, 0, 0, 0, 0, 1], none⟩)
    (hzero : P ⟨true, 0, some [0], none⟩) (hlarge : P ⟨false, 1, none, some ⟨'E', .none, [2, 2]⟩⟩)
    (hhalf : P ⟨false, 0, some [5], none⟩) (hint : ∀ neg int, P ⟨neg, int, none, none⟩) :
    sampleTree.Numbers P := by
  refine .object fun e he => ?_
  simp only [List.mem_cons, List.not_mem_nil, or_false] at he
  rcases he with rfl | rfl | rfl
  · refine .array fun v hv => ?_
    simp only [List.mem_cons, List.not_mem_nil, or_false] at hv
    rcases hv with rfl | rfl | rfl
    · exact .number hsmall
    · exact .number hzero
    · exact .number hlarge
  · refine .object fun e he => ?_
    simp only [List.mem_cons, List.not_mem_nil, or_false] at he
    rcases he with rfl | rfl
    · exact .number hhalf
    · exact .number (hint _ _)
  · exact .number (hint _ _)

theorem pythonJson_dumps_sample :
    letI := fewDigits
    pythonJson (read sampleTree) = dumps ", " ": " false (loads sampleTree) ∧
    ((read sampleTree).asStr = none → canonical (read sampleTree) = dumps "," ":" true (loads sampleTree)) ∧
    ∀ w, Reordered (read sampleTree) w → canonical w = canonical (read sampleTree) := by
  let _ := fewDigits
  refine pythonJson_dumps (sampleTree_numbers ?_ ?_ ?_ ?_ ?_) (sampleTree_numbers ?_ ?_ ?_ ?_ ?_)
  · exact fun _ => by decide +kernel
  · exact fun _ => by decide +kernel
  · exact fun _ => by decide +kernel
  · exact fun _ => by decide +kernel
  · exact fun _ _ h => absurd h Bool.false_ne_true
  · exact fun _ => printed_of_one (i := 1) (p := -5) (by with_unfolding_all decide) (by decide) (by decide) (by rfl)
  · exact fun _ h => absurd (by with_unfolding_all decide) h
  · exact fun _ => printed_of_one (i := 1) (p := 23) (by with_unfolding_all decide) (by decide) (by decide) (by rfl)
  · exact fun _ => printed_of_one (i := 5) (p := 0) (by with_unfolding_all decide) (by decide) (by decide) (by rfl)
  · exact fun _ _ h => absurd h Bool.false_ne_true

end SuffixHybrid.Decider
