import Mathlib.Algebra.Group.Defs
import Mathlib.Data.Finset.Lattice.Fold
import Mathlib.Data.Fintype.Basic
import SuffixHybrid.Lib.Lockstep
import SuffixHybrid.Lib.Map

/-!
# The startup autotune of the all-reduce bands

`autotune` runs on every rank of the group: it creates a communicator for each candidate, times each
candidate at each size, and takes every decision on the maximum over the ranks (`agree`). A rank is a
`Lib.Proc` whose collectives are the `agree` calls and the calls of `make_comm` and `measure`, which
are NCCL collectives themselves. What differs from rank to rank is its `Behaviour`: the readings of
its clock and the outcomes of its own calls. Times are in any linear order with a greatest element,
the `math.inf` of an entry that is unmeasured, pruned or failed.
-/

namespace SuffixHybrid.NcclSplit
open Lib

/-! ## Texts -/

/-- `INF`. -/
def INF : ℕ := 2 ^ 62

/-- `fmt_size`: a byte count in the largest unit that divides it. -/
def fmtSize (n : ℕ) : String :=
  if n ≥ INF then "inf"
  else if n ≠ 0 ∧ n % 2 ^ 30 = 0 then s!"{n / 2 ^ 30}G"
  else if n ≠ 0 ∧ n % 2 ^ 20 = 0 then s!"{n / 2 ^ 20}M"
  else if n ≠ 0 ∧ n % 2 ^ 10 = 0 then s!"{n / 2 ^ 10}K"
  else toString n

/-- `text[:200]`. -/
def cut200 (text : String) : String := String.ofList (text.toList.take 200)

/-! ## Calls -/

/-- The calls in which the ranks meet. -/
inductive Call where
  | agree (n : ℕ)
  | makeComm (spec : String)
  | measure (spec : String) (i nbytes : ℕ)
deriving DecidableEq

/-- What a rank brings to a call: the values of `agree`, or how its own call came out. -/
inductive Part (F : Type) where
  | vals (v : List F)
  | ok
  | raised (exc : String)

/-- A communicator: the stock one, or the one created for the candidate at a position. -/
inductive Comm where
  | stock
  | made (j : ℕ)
deriving DecidableEq

section
variable {F : Type} [LinearOrder F] [OrderTop F] [Zero F] [One F] [Mul F]

/-- The value of a rank at a position of the tensor. -/
def Part.get (k : ℕ) : Part F → F
  | .vals v => v.getD k 0
  | _ => 0

lemma ranks_nonempty {n : ℕ} : (Finset.univ : Finset (Fin (n + 1))).Nonempty := Finset.univ_nonempty

/-- `all_reduce` with `MAX` over the ranks; the other calls return nothing that is shared. -/
def agreeAll {n : ℕ} : Call → (Fin (n + 1) → Part F) → List F
  | .agree w, x => (List.range w).map fun k => Finset.univ.sup' ranks_nonempty fun r => (x r).get k
  | _, _ => []

/-- How the clock and the calls of one rank come out: the time since the start ahead of each
candidate and after each measurement, and the outcome of each call. -/
structure Behaviour (F : Type) where
  before : ℕ → F
  makeComm : ℕ → String → Except String Unit
  after : ℕ → ℕ → F
  measure : ℕ → ℕ → String → Except String F

/-- The dictionaries of one rank, and the communicators that it destroyed. A `None` in `comms` is
`none`. -/
structure Tuned (F : Type) where
  table : String → ℕ → F
  comms : Map String (Option Comm)
  errors : Map String String
  destroyed : List Comm

/-- The dictionaries at the start: nothing measured, the stock communicator. -/
def Tuned.init : Tuned F where
  table := fun _ _ => ⊤
  comms := (∅ : Map String (Option Comm)).put "default" (some .stock)
  errors := ∅
  destroyed := []

namespace Tuned

/-- `errors[spec] = text`. -/
def fail (m : Tuned F) (spec text : String) : Tuned F :=
  { m with errors := m.errors.put spec (cut200 text) }

/-- `errors.setdefault(spec, text)`. -/
def failElsewhere (m : Tuned F) (spec text : String) : Tuned F :=
  if spec ∈ m.errors then m else { m with errors := m.errors.put spec text }

/-- `comm.destroy()` of a communicator that is there. -/
def destroy (m : Tuned F) (comm : Option Comm) : Tuned F :=
  match comm with
  | some c => { m with destroyed := c :: m.destroyed }
  | none => m

/-- `comms[spec] = comm`. -/
def keep (m : Tuned F) (spec : String) (comm : Option Comm) : Tuned F :=
  { m with comms := m.comms.put spec comm }

/-- `table[spec] = [inf] * len(sizes)`. -/
def clear (m : Tuned F) (spec : String) : Tuned F :=
  { m with table := Function.update m.table spec fun _ => ⊤ }

/-- `table[spec][i] = t`. -/
def set (m : Tuned F) (spec : String) (i : ℕ) (t : F) : Tuned F :=
  { m with table := Function.update m.table spec (Function.update (m.table spec) i t) }

end Tuned

/-! ## Creating the communicators -/

/-- A program of one rank. -/
abbrev Prog (F α : Type) : Type := Proc Call (Part F) (List F) α

/-- How a call came out, as the other ranks see it. -/
def outcome {α : Type} : Except String α → Part F
  | .ok _ => .ok
  | .error exc => .raised exc

/-- The communicator of a candidate, with the error of a failed creation noted. -/
def create (b : Behaviour F) (j : ℕ) (spec : String) (m : Tuned F) : Option Comm × Tuned F :=
  match b.makeComm j spec with
  | .ok _ => (some (.made j), m)
  | .error exc => (none, m.fail spec ("init: " ++ exc))

/-- What a rank does once the ranks agreed whether a creation failed. -/
def settle (spec : String) (comm : Option Comm) (failed : F) (m : Tuned F) : Tuned F :=
  if failed ≠ 0 then (m.failElsewhere spec "init failed on another rank").destroy comm
  else m.keep spec comm

/-- The loop over the candidates. -/
def createAll (b : Behaviour F) (budget : F) : ℕ → List String → Tuned F → Prog F (Tuned F)
  | _, [], m => .done m
  | j, spec :: rest, m =>
    if spec = "default" then createAll b budget (j + 1) rest m
    else .sync (.agree 1) (.vals [b.before j]) fun y =>
      if budget < y.getD 0 0 then createAll b budget (j + 1) rest m
      else .sync (.makeComm spec) (outcome (b.makeComm j spec)) fun _ =>
        let made := create b j spec m
        .sync (.agree 1) (.vals [if made.1 = none then 1 else 0]) fun y =>
          createAll b budget (j + 1) rest (settle spec made.1 (y.getD 0 0) made.2)

/-! ## Measuring -/

/-- The values that a rank brings after a measurement: the time, whether it failed, the clock. -/
def reading (b : Behaviour F) (i k : ℕ) (spec : String) : List F :=
  match b.measure i k spec with
  | .ok t => [t, 0, b.after i k]
  | .error _ => [⊤, 1, b.after i k]

/-- The error of a failed measurement noted. -/
def noted (b : Behaviour F) (i k nbytes : ℕ) (spec : String) (m : Tuned F) : Tuned F :=
  match b.measure i k spec with
  | .ok _ => m
  | .error exc => m.fail spec (fmtSize nbytes ++ ": " ++ exc)

/-- What a rank does with the agreed values of a measurement: a failed candidate is dropped, the
stock communicator stays. -/
def record (spec : String) (i nbytes : ℕ) (t bad : F) (live : List String) (m : Tuned F) :
    List String × Tuned F :=
  if bad ≠ 0 then
    if spec ≠ "default" then
      (live.erase spec,
        (m.failElsewhere spec (fmtSize nbytes ++ ": failed on another rank")).clear spec)
    else (live, m)
  else (live, m.set spec i t)

/-- The loop over a copy of the live candidates at one size; whether it ran out of the budget, the
live candidates and the dictionaries. -/
def measureRow (b : Behaviour F) (budget : F) (i nbytes : ℕ) :
    ℕ → List String → List String → Tuned F → Prog F (Bool × List String × Tuned F)
  | _, [], live, m => .done (false, live, m)
  | k, spec :: rest, live, m =>
    .sync (.measure spec i nbytes) (outcome (b.measure i k spec)) fun _ =>
      .sync (.agree 3) (.vals (reading b i k spec)) fun y =>
        let res := record spec i nbytes (y.getD 0 0) (y.getD 1 0) live (noted b i k nbytes spec m)
        if budget < y.getD 2 0 then .done (true, res)
        else measureRow b budget i nbytes (k + 1) rest res.1 res.2

/-- `min(table[c][i] for c in live)`, which raises when no candidate is live. -/
def best (table : String → ℕ → F) (i : ℕ) (live : List String) : Option F :=
  (live.map fun c => table c i).min?

/-- The candidates that stay live after a size. -/
def pruned (prune best : F) (i : ℕ) (table : String → ℕ → F) (live : List String) : List String :=
  live.filter fun c => c = "default" ∨ table c i ≤ prune * best

/-- The loop over the sizes; `none` when `min` raises. -/
def measureAll (b : Behaviour F) (budget prune : F) :
    ℕ → List ℕ → List String → Tuned F → Prog F (Option (Tuned F))
  | _, [], _, m => .done (some m)
  | i, nbytes :: rest, live, m =>
    (measureRow b budget i nbytes 0 live live m).bind fun res =>
      if res.1 then .done (some res.2.2)
      else match best res.2.2.table i res.2.1 with
        | none => .done none
        | some t =>
          measureAll b budget prune (i + 1) rest (pruned prune t i res.2.2.table res.2.1) res.2.2

/-- `autotune` of one rank. -/
def autotune (b : Behaviour F) (budget prune : F) (candidates : List String) (sizes : List ℕ) :
    Prog F (Option (Tuned F)) :=
  (createAll b budget 0 candidates .init).bind fun m =>
    measureAll b budget prune 0 sizes (candidates.filter (· ∈ m.comms)) m

end

/-! ## The bands -/

section
variable {F : Type} [LinearOrder F] [OrderTop F] [One F] [Mul F] [Sub F]

/-- `_cross`, over the rounded geometric mean `mid` of two sizes in KiB. -/
def cross (mid : ℕ → ℕ → ℕ) (a b : ℕ) : ℕ := min b (max (a + 1) (mid a b * 1024))

/-- The smaller of two timed specs, by time and then by name. -/
def smaller (p q : F × String) : F × String :=
  if q.1 < p.1 ∨ q.1 = p.1 ∧ q.2 < p.2 then q else p

/-- The fastest candidate at a size other than the stock communicator, `default` when there is none. -/
def fastest (candidates : List String) (table : String → ℕ → F) (i : ℕ) : F × String :=
  match (candidates.filter (· ≠ "default")).map fun c => (table c i, c) with
  | [] => (⊤, "default")
  | p :: rest => rest.foldl smaller p

/-- The winner at a size: the stock communicator unless beaten by more than the margin. -/
def winner (candidates : List String) (table : String → ℕ → F) (margin : F) (i : ℕ) : String :=
  let base := table "default" i
  if base ≠ ⊤ then
    let p := fastest candidates table i
    if p.1 < base * (1 - margin) then p.2 else "default"
  else "default"

/-- The loop over the winners: a band ends where the next winner is another one. -/
def bandsFrom (mid : ℕ → ℕ → ℕ) (lo : ℕ) : List (ℕ × String) → List (ℕ × ℕ × String)
  | [] => []
  | [(_, w)] => [(lo, INF, w)]
  | (a, w) :: (b, w') :: rest =>
    if w' = w then bandsFrom mid lo ((b, w') :: rest)
    else (lo, cross mid a b, w) :: bandsFrom mid (cross mid a b) ((b, w') :: rest)

/-- `build_bands`. -/
def buildBands (mid : ℕ → ℕ → ℕ) (sizes : List ℕ) (candidates : List String)
    (table : String → ℕ → F) (margin : F) : List (ℕ × ℕ × String) :=
  bandsFrom mid 0 (sizes.mapIdx fun i s => (s, winner candidates table margin i))

/-- `comms.pop(spec).destroy()`. -/
def Tuned.pop (m : Tuned F) (spec : String) : Tuned F :=
  let m' := match m.comms.lookup spec with
    | some (some c) => { m with destroyed := c :: m.destroyed }
    | _ => m
  { m' with comms := m'.comms.erase spec }

/-- The end of `_autotune_group`: the bands, and the communicators that no band uses destroyed. -/
def group (mid : ℕ → ℕ → ℕ) (sizes : List ℕ) (candidates : List String) (margin : F) (m : Tuned F) :
    List (ℕ × ℕ × String) × Tuned F :=
  let bands := buildBands mid sizes candidates m.table margin
  let kept := bands.map fun band => band.2.2
  (bands, (m.comms.keys.filter fun s => s ∉ kept ∧ s ≠ "default").foldl Tuned.pop m)

/-- The candidates of `_autotune_group`: `default` first, each of the others once. -/
def groupCandidates (cands : List String) : List String :=
  "default" :: ((cands.map fun c => c.trimAscii.toString).eraseDups.filter fun c => c ≠ "" ∧ c ≠ "default")

end

end SuffixHybrid.NcclSplit
