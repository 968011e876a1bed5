import SuffixHybrid.HostAr.Rounds

/-!
# What a collective is to do

A `Kernel` has three parts, with a barrier between them; the one-shot kernels have nothing to do in the
third one. `Visible` says what the barriers give: what a rank stores in its slots before a barrier of a
round is what the other ranks load there behind it. `Correct` is the property of a launch: it returns, all
its accesses stay inside the slots, and whatever the views are and in whatever order the blocks write the
output, every element of it has the value that the kernel is to compute.
-/

namespace SuffixHybrid.HostAr
open Lib

/-- The kernels. -/
inductive Kernel where
  | oneShot
  | twoShot
  | q8
  | gather
  deriving DecidableEq

/-- What the loads of a rank find behind the first and the second barrier of a round. -/
structure Memory (B Q S : Type) where
  first : ℕ → ℕ → View B Q S
  second : ℕ → ℕ → View B Q S

/-- Write the elements of an output, one after the other. -/
def writeAll {B : Type} (out : List (ℕ × B)) (init : ℕ → B) : ℕ → B :=
  out.foldl (fun f e => Function.update f e.1 e.2) init

/-- If all writes to an element have one value, it has this value, whatever their order. -/
lemma writeAll_eq {B : Type} {out : List (ℕ × B)} {i : ℕ} {b : B} (h : ∀ e ∈ out, e.1 = i → e.2 = b)
    (hmem : ∃ e ∈ out, e.1 = i) (init : ℕ → B) : writeAll out init i = b := by
  induction out using List.reverseRecOn with
  | nil =>
    obtain ⟨e, he, _⟩ := hmem
    cases he
  | append_singleton out e ih =>
    rw [writeAll, List.foldl_append, List.foldl_cons, List.foldl_nil, ← writeAll]
    by_cases hi : e.1 = i
    · rw [← hi, Function.update_self]
      exact h e (List.mem_append_right _ List.mem_cons_self) hi
    · rw [Function.update_of_ne (Ne.symm hi)]
      refine ih (fun e' he' => h e' (List.mem_append_left _ he')) ?_
      obtain ⟨e', he', hi'⟩ := hmem
      rcases List.mem_append.mp he' with hout | hlast
      · exact ⟨e', hout, hi'⟩
      · rw [List.mem_singleton.mp hlast] at hi'
        exact absurd hi' hi

namespace Launch
variable {B F Q S : Type} {G : ℕ} [NeZero G] (A : Arith B F Q S G) (L : Launch B)

/-- Nothing is done. -/
def idle : Part B Q S := ⟨[], [], []⟩

/-- Before the first barrier. -/
def part1 (r rnd pid : ℕ) : Kernel → Part B Q S
  | .oneShot => L.harPartial true r rnd pid
  | .twoShot => L.harPartial false r rnd pid
  | .q8 => L.q8Quant A r rnd pid
  | .gather => L.hagOwn r rnd pid

/-- Behind the first barrier. -/
def part2 (v : View B Q S) (r rnd pid : ℕ) : Kernel → Part B Q S
  | .oneShot => L.harOneShot A v r rnd pid
  | .twoShot => L.harReduce A v r rnd pid
  | .q8 => L.q8Reduce A v r rnd pid
  | .gather => L.hagOthers v r rnd pid

/-- Behind the second barrier. -/
def part3 (v : View B Q S) (r rnd pid : ℕ) : Kernel → Part B Q S
  | .oneShot => idle
  | .twoShot => L.harGather v r rnd pid
  | .q8 => L.q8Gather A v r rnd pid
  | .gather => idle

/-- The parts of a block in a round. -/
def parts (m : Memory B Q S) (r rnd pid : ℕ) (K : Kernel) : List (Part B Q S) :=
  [L.part1 A r rnd pid K, L.part2 A (m.first r rnd) r rnd pid K, L.part3 A (m.second r rnd) r rnd pid K]

/-- The stores of a rank to its output, over `k` rounds. -/
def outputs (m : Memory B Q S) (r k : ℕ) (K : Kernel) : List (ℕ × B) :=
  (List.range k).flatMap fun rnd => (List.range L.grid).flatMap fun pid =>
    (L.parts A m r rnd pid K).flatMap Part.out

/-- The first barrier makes the stores of a round before it visible to the other ranks. -/
def FirstVisible (m : Memory B Q S) (k : ℕ) (K : Kernel) : Prop :=
  ∀ i < L.world, ∀ j < L.world, i ≠ j → ∀ rnd < k, ∀ pid < L.grid,
    ∀ e ∈ (L.part1 A j rnd pid K).stores, (m.first i rnd).Shows e.1 e.2

/-- Both barriers do so. -/
structure Visible (m : Memory B Q S) (k : ℕ) (K : Kernel) : Prop where
  first : L.FirstVisible A m k K
  second : ∀ i < L.world, ∀ j < L.world, i ≠ j → ∀ rnd < k, ∀ pid < L.grid,
    ∀ e ∈ (L.part2 A (m.first j rnd) j rnd pid K).stores, (m.second i rnd).Shows e.1 e.2

/-- A part stores in the slots of its rank and loads from the slots of all, inside of them. -/
structure Part.InSlots (L : Launch B) (r : ℕ) (p : Part B Q S) : Prop where
  stores : ∀ e ∈ p.stores, e.1.slot.rank = r ∧ L.Inside e.1
  loads : ∀ a ∈ p.loads, a.slot.rank < L.world ∧ L.Inside a

/-! ## The results -/

/-- The sum over the ranks in rank order. -/
def total (i : ℕ) : F := (List.range L.world).foldl (fun acc j => A.add acc (A.toF (L.x j i))) A.zero

/-- The partial of a rank as the others read it: the codes and the scale of its group. -/
def sent (j rnd o : ℕ) : F :=
  let q := A.quant fun k => A.toF (L.x j (L.base rnd + (o / G * G + k)))
  A.dequant (q.1 (Fin.ofNat G o)) q.2

/-- The sum over the ranks in rank order, with the partial of the owner as it is. -/
def q8Total (owner rnd o : ℕ) : F :=
  (List.range L.world).foldl (fun acc j => A.add acc
    (if j = owner then A.toF (L.x j (L.base rnd + o)) else L.sent A j rnd o)) A.zero

/-- The element of the int8 kernel at an offset of a round. -/
def q8Result (rnd o : ℕ) : B :=
  let q := A.quant fun k => L.q8Total A (o / L.ch G rnd) rnd (o / G * G + k)
  A.round (A.dequant (q.1 (Fin.ofNat G o)) q.2)

/-- The elements of the output. -/
def result (i : ℕ) : Kernel → B
  | .oneShot => A.round (L.total A i)
  | .twoShot => A.round (L.total A i)
  | .q8 => L.q8Result A (i / L.round) (i % L.round)
  | .gather => L.x (i / L.n) (i % L.n)

/-- The number of elements of the output. -/
def outLen : Kernel → ℕ
  | .gather => L.world * L.n
  | _ => L.n

/-- What a launch is to do. The results do not depend on the rank, and the stores of a round do not get in
each other's way, so that there is a memory in which all of them are visible. -/
structure Correct (K : Kernel) : Prop where
  returns : L.nrounds.isSome
  visible : ∀ k ∈ L.nrounds, ∃ m, L.Visible A m k K
  inside : ∀ k ∈ L.nrounds, ∀ m, ∀ r < L.world, ∀ rnd < k, ∀ pid < L.grid,
    ∀ p ∈ L.parts A m r rnd pid K, Part.InSlots L r p
  out : ∀ k ∈ L.nrounds, ∀ m, L.Visible A m k K → ∀ r < L.world, ∀ order, order.Perm (L.outputs A m r k K) →
    ∀ init, ∀ i < L.outLen K, writeAll order init i = L.result A i K

end Launch
end SuffixHybrid.HostAr
