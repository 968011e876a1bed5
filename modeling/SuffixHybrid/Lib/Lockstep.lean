import Mathlib.Tactic.Common

/-!
# Programs that meet at collectives

A rank runs a program that ends with a result or enters a collective with a contribution and goes on
with the answer. A collective completes only when every rank enters it: `Lockstep` is the run of all
the ranks in which each collective is entered by all of them, until all end together. A rank that
ends while another waits in a collective, or two ranks in different ones, have no such run.
-/

namespace Lib

/-- A program of one rank: collectives `C`, contributions `X`, answers `Y`, results `α`. -/
inductive Proc (C X Y α : Type) where
  | done (a : α)
  | sync (c : C) (x : X) (k : Y → Proc C X Y α)

namespace Proc
variable {C X Y α β : Type}

/-- Run a program and go on with its result. -/
def bind : Proc C X Y α → (α → Proc C X Y β) → Proc C X Y β
  | .done a, f => f a
  | .sync c x k, f => .sync c x fun y => (k y).bind f

@[simp] lemma bind_done (a : α) (f : α → Proc C X Y β) : (Proc.done a).bind f = f a := rfl

@[simp] lemma bind_sync (c : C) (x : X) (k : Y → Proc C X Y α) (f : α → Proc C X Y β) :
    (Proc.sync c x k).bind f = .sync c x fun y => (k y).bind f := rfl

end Proc

variable {ι C X Y α β : Type} {combine : C → (ι → X) → Y}

/-- The ranks run in lockstep: at every collective all of them enter it, and all get the answer that
`combine` makes of their contributions. The trace keeps the collectives with the contributions. -/
inductive Lockstep (combine : C → (ι → X) → Y) :
    (ι → Proc C X Y α) → List (C × (ι → X)) → (ι → α) → Prop
  | done {p : ι → Proc C X Y α} {a : ι → α} :
    (∀ i, p i = .done (a i)) →
    Lockstep combine p [] a
  | sync {p : ι → Proc C X Y α} {c : C} {x : ι → X} {k : ι → Y → Proc C X Y α}
      {tr : List (C × (ι → X))} {a : ι → α} :
    (∀ i, p i = .sync c (x i) (k i)) →
    Lockstep combine (fun i => k i (combine c x)) tr a →
    Lockstep combine p ((c, x) :: tr) a

namespace Lockstep

/-- All ranks end at once. -/
lemma pure (a : ι → α) : Lockstep combine (fun i => .done (a i)) [] a := .done fun _ => rfl

/-- All ranks enter one collective. -/
lemma step {c : C} {x : ι → X} {k : ι → Y → Proc C X Y α} {tr : List (C × (ι → X))} {a : ι → α}
    (h : Lockstep combine (fun i => k i (combine c x)) tr a) :
    Lockstep combine (fun i => .sync c (x i) (k i)) ((c, x) :: tr) a := .sync (fun _ => rfl) h

/-- The same, with the trace of the rest given. -/
lemma stepWith {c : C} {x : ι → X} {k : ι → Y → Proc C X Y α} (tr : List (C × (ι → X))) {a : ι → α}
    (h : Lockstep combine (fun i => k i (combine c x)) tr a) :
    Lockstep combine (fun i => .sync c (x i) (k i)) ((c, x) :: tr) a := h.step

/-- Programs that run in lockstep one after the other. -/
lemma bind {p : ι → Proc C X Y α} {f : ι → α → Proc C X Y β} {tr tr' : List (C × (ι → X))}
    {a : ι → α} {b : ι → β} (h : Lockstep combine p tr a)
    (hf : Lockstep combine (fun i => f i (a i)) tr' b) :
    Lockstep combine (fun i => (p i).bind (f i)) (tr ++ tr') b := by
  induction h with
  | done hp =>
    simp only [hp, Proc.bind_done, List.nil_append]
    exact hf
  | @sync p c x k tr a hp _ ih =>
    refine .sync (k := fun i y => (k i y).bind (f i)) (fun i => ?_) (ih hf)
    rw [hp i, Proc.bind_sync]

variable [Nonempty ι]

lemma done_inv {p : ι → Proc C X Y α} {a a' : ι → α} {tr : List (C × (ι → X))}
    (hp : ∀ i, p i = .done (a i)) (h : Lockstep combine p tr a') : tr = [] ∧ a' = a := by
  cases h with
  | done hp' =>
    refine ⟨rfl, funext fun i => ?_⟩
    have e := (hp' i).symm.trans (hp i)
    exact Proc.done.inj e
  | sync hp' _ =>
    have e := (hp (Classical.arbitrary ι)).symm.trans (hp' _)
    cases e

lemma sync_inv {p : ι → Proc C X Y α} {c : C} {x : ι → X} {k : ι → Y → Proc C X Y α}
    {tr : List (C × (ι → X))} {a : ι → α} (hp : ∀ i, p i = .sync c (x i) (k i))
    (h : Lockstep combine p tr a) :
    ∃ tr', tr = (c, x) :: tr' ∧ Lockstep combine (fun i => k i (combine c x)) tr' a := by
  cases h with
  | done hp' =>
    have e := (hp (Classical.arbitrary ι)).symm.trans (hp' _)
    cases e
  | sync hp' hrest =>
    have e (i : ι) := Proc.sync.inj ((hp i).symm.trans (hp' i))
    obtain ⟨rfl, -, -⟩ := e (Classical.arbitrary ι)
    obtain rfl := funext fun i => (e i).2.1
    obtain rfl := funext fun i => (e i).2.2
    exact ⟨_, rfl, hrest⟩

/-- The ranks have at most one run in lockstep. -/
theorem unique {p : ι → Proc C X Y α} {tr tr' : List (C × (ι → X))} {a a' : ι → α}
    (h : Lockstep combine p tr a) (h' : Lockstep combine p tr' a') : tr' = tr ∧ a' = a := by
  induction h generalizing tr' with
  | done hp => exact done_inv hp h'
  | sync hp _ ih =>
    obtain ⟨tr1, rfl, hrest⟩ := sync_inv hp h'
    obtain ⟨rfl, rfl⟩ := ih hrest
    exact ⟨rfl, rfl⟩

omit [Nonempty ι] in
/-- A rank that ends while another enters a collective leaves it waiting. -/
lemma not_done_sync {p : ι → Proc C X Y α} {tr : List (C × (ι → X))} {b : ι → α}
    (h : Lockstep combine p tr b) {i j : ι} {a : α} {c : C} {x : X} {k : Y → Proc C X Y α}
    (hi : p i = .done a) (hj : p j = .sync c x k) : False := by
  cases h with
  | done hp =>
    rw [hp j] at hj
    cases hj
  | sync hp _ =>
    rw [hp i] at hi
    cases hi

end Lockstep

end Lib
