import Mathlib.Data.List.TakeWhile
import Mathlib.Order.Lattice
import Mathlib.Tactic.Common

/-!
# A sweep with a stack

Items and queries are intervals, and both come sorted by their starts. One pass pushes the items that have
started when a query starts, and takes ended ones off the top of the stack: before an item is pushed those that
end before it starts, for a query those that end before the query does. So an item that a query outlasts can be
missing for a later one. The answer, the top of the stack, is the last item around the query that no earlier
query outlasted (`sweep_spec`).
-/

namespace Lib
namespace Sweep

variable {α β T : Type} [LinearOrder T] (start finish : α → T) (qstart qfinish : β → T)

/-- Push the items that have started. -/
def push (t : T) : List α → List α → List α × List α
  | stack, [] => (stack, [])
  | stack, o :: rest =>
    if start o ≤ t then push t (o :: stack.dropWhile fun x => finish x < start o) rest else (stack, o :: rest)

/-- The queries in turn, each with the top of the stack. -/
def sweep : List α → List α → List β → List (β × Option α)
  | _, _, [] => []
  | stack, rest, e :: queries =>
    let pushed := push start finish (qstart e) stack rest
    let stack := pushed.1.dropWhile fun x => finish x < qfinish e
    (e, stack.head?) :: sweep stack pushed.2 queries

/-- A query that began no earlier than the item ends after it. -/
def Outlasted (past : List β) (o : α) : Prop := ∃ e ∈ past, start o ≤ qstart e ∧ finish o < qfinish e

/-- The item is around the query, and no earlier query outlasted it. -/
def Survives (past : List β) (e : β) (o : α) : Prop :=
  start o ≤ qstart e ∧ qfinish e ≤ finish o ∧ ¬Outlasted start finish qstart qfinish past o

/-- Above an item of the kind there is one that ends later. -/
def Guarded (kind : α → Prop) (stack : List α) : Prop :=
  ∀ pre o post, stack = pre ++ o :: post → kind o → ∃ x ∈ pre, finish o < finish x

/-- What the stack holds after the queries `past`, with the items `done` pushed by the time `t`. -/
structure Held (past : List β) (t : T) (done rest stack : List α) : Prop where
  order : stack.reverse.Sublist done
  gone : ∀ o ∈ done, o ∈ stack ∨ finish o < t ∨ Outlasted start finish qstart qfinish past o
  guarded : Guarded finish (Outlasted start finish qstart qfinish past) stack
  later : ∀ o ∈ rest, ∀ e ∈ past, qstart e < start o

variable {start finish qstart qfinish} {past : List β} {t u : T} {done rest stack : List α}

/-- Popping keeps the guards, also for the items that end before the bound. -/
lemma Guarded.dropWhile {kind kind' : α → Prop} {c : T} (h : Guarded finish kind stack)
    (himp : ∀ o, kind' o → kind o ∨ finish o < c) :
    Guarded finish kind' (stack.dropWhile fun x => finish x < c) := by
  intro pre o post heq hkind
  have hsplit : stack = (stack.takeWhile fun x => finish x < c) ++ (pre ++ o :: post) := by
    rw [← heq, List.takeWhile_append_dropWhile]
  have hdropped : ∀ x ∈ stack.takeWhile fun x => finish x < c, finish x < c := fun x hx => by
    simpa using List.mem_takeWhile_imp hx
  have hhead : ∀ y l, pre ++ o :: post = y :: l → c ≤ finish y := by
    intro y l hy
    have hne : (stack.dropWhile fun x => finish x < c) ≠ [] := by
      rw [heq, hy]
      exact List.cons_ne_nil y l
    have hnot := List.head_dropWhile_not (fun x => decide (finish x < c)) hne
    simp only [heq, hy, List.head_cons, decide_eq_false_iff_not, not_lt] at hnot
    exact hnot
  cases pre with
  | nil =>
    have hle := hhead o post rfl
    obtain hold | hlt := himp o hkind
    · obtain ⟨x, hx, hox⟩ := h _ o post hsplit hold
      exact absurd (hox.trans (hdropped x hx)) hle.not_gt
    · exact absurd hlt hle.not_gt
  | cons y pre =>
    have hle := hhead y (pre ++ o :: post) rfl
    by_cases hlt : finish o < c
    · exact ⟨y, List.mem_cons_self, hlt.trans_le hle⟩
    · obtain ⟨x, hx, hox⟩ := h _ o post (by rw [hsplit, List.append_assoc])
        ((himp o hkind).resolve_right hlt)
      obtain hx | hx := List.mem_append.mp hx
      · exact absurd (hox.trans (hdropped x hx)) hlt
      · exact ⟨x, hx, hox⟩

lemma mem_or_of_dropWhile (finish : α → T) (c : T) {o : α} (h : o ∈ stack) :
    (o ∈ stack.dropWhile fun x => finish x < c) ∨ finish o < c := by
  rw [← List.takeWhile_append_dropWhile (p := fun x => decide (finish x < c)) (l := stack), List.mem_append] at h
  obtain h | h := h
  · exact .inr (by simpa using List.mem_takeWhile_imp h)
  · exact .inl h

/-- One item is pushed. -/
lemma Held.push_one {o : α} (h : Held start finish qstart qfinish past t done (o :: rest) stack) (ht : t ≤ u)
    (ho : start o ≤ u) :
    Held start finish qstart qfinish past u (done ++ [o]) rest
      (o :: stack.dropWhile fun x => finish x < start o) := by
  have hnew : ¬Outlasted start finish qstart qfinish past o := by
    rintro ⟨e, he, hle, -⟩
    exact absurd hle (h.later o List.mem_cons_self e he).not_ge
  constructor
  case order =>
    rw [List.reverse_cons]
    exact ((List.reverse_sublist.mpr (List.dropWhile_sublist _)).trans h.order).append (List.Sublist.refl [o])
  case gone =>
    intro x hx
    rw [List.mem_append, List.mem_singleton] at hx
    obtain hx | rfl := hx
    · obtain hmem | hlt | hout := h.gone x hx
      · obtain hmem | hlt := mem_or_of_dropWhile finish (start o) hmem
        · exact .inl (List.mem_cons_of_mem o hmem)
        · exact .inr (.inl (hlt.trans_le ho))
      · exact .inr (.inl (hlt.trans_le ht))
      · exact .inr (.inr hout)
    · exact .inl List.mem_cons_self
  case guarded =>
    intro pre x post heq hkind
    cases pre with
    | nil =>
      obtain ⟨rfl, -⟩ := List.cons.inj heq
      exact absurd hkind hnew
    | cons y pre =>
      obtain ⟨x', hx', hlt⟩ := (h.guarded.dropWhile fun _ => Or.inl) pre x post (List.cons.inj heq).2 hkind
      exact ⟨x', List.mem_cons_of_mem y hx', hlt⟩
  case later => exact fun x hx => h.later x (List.mem_cons_of_mem o hx)

/-- All items are pushed that have started. -/
lemma Held.push (hs : rest.Pairwise fun a b => start a ≤ start b)
    (h : Held start finish qstart qfinish past t done rest stack) (ht : t ≤ u) :
    ∃ more, rest = more ++ (push start finish u stack rest).2 ∧
      (∀ o ∈ more, start o ≤ u) ∧ (∀ o ∈ (push start finish u stack rest).2, u < start o) ∧
      Held start finish qstart qfinish past u (done ++ more) (push start finish u stack rest).2
        (push start finish u stack rest).1 := by
  induction rest generalizing t done stack with
  | nil =>
    refine ⟨[], rfl, by simp, by simp [Sweep.push], ?_⟩
    rw [List.append_nil]
    refine ⟨h.order, fun o ho => ?_, h.guarded, h.later⟩
    exact (h.gone o ho).imp_right (Or.imp_left fun hlt => hlt.trans_le ht)
  | cons o rest ih =>
    obtain ⟨hhead, htail⟩ := List.pairwise_cons.mp hs
    rw [Sweep.push]
    split_ifs with ho
    · obtain ⟨more, hrest, hmore, hlate, hheld⟩ := ih htail (h.push_one ht ho) le_rfl
      refine ⟨o :: more, congrArg (o :: ·) hrest, fun x hx => ?_, hlate, ?_⟩
      · obtain rfl | hx := List.mem_cons.mp hx
        · exact ho
        · exact hmore x hx
      · rwa [List.append_assoc] at hheld
    · refine ⟨[], rfl, by simp, fun x hx => ?_, ?_⟩
      · obtain rfl | hx := List.mem_cons.mp hx
        · exact not_le.mp ho
        · exact (not_le.mp ho).trans_le (hhead x hx)
      · rw [List.append_nil]
        refine ⟨h.order, fun x hx => ?_, h.guarded, h.later⟩
        exact (h.gone x hx).imp_right (Or.imp_left fun hlt => hlt.trans_le ht)

/-- The items that end before a query are popped for it. -/
lemma Held.pop {e : β} (h : Held start finish qstart qfinish past (qstart e) done rest stack)
    (hlate : ∀ o ∈ rest, qstart e < start o) (hdone : ∀ o ∈ done, start o ≤ qstart e) :
    Held start finish qstart qfinish (past ++ [e]) (qstart e) done rest
      (stack.dropWhile fun x => finish x < qfinish e) := by
  have hmono : ∀ o, Outlasted start finish qstart qfinish past o →
      Outlasted start finish qstart qfinish (past ++ [e]) o :=
    fun o ⟨e', he', hout⟩ => ⟨e', List.mem_append_left _ he', hout⟩
  constructor
  case order => exact (List.reverse_sublist.mpr (List.dropWhile_sublist _)).trans h.order
  case gone =>
    intro o ho
    obtain hmem | hlt | hout := h.gone o ho
    · obtain hmem | hlt := mem_or_of_dropWhile finish (qfinish e) hmem
      · exact .inl hmem
      · exact .inr (.inr ⟨e, List.mem_append_right _ List.mem_cons_self, hdone o ho, hlt⟩)
    · exact .inr (.inl hlt)
    · exact .inr (.inr (hmono o hout))
  case guarded =>
    refine h.guarded.dropWhile fun o hout => ?_
    obtain ⟨e', he', hle, hlt⟩ := hout
    obtain he' | he' := List.mem_append.mp he'
    · exact .inl ⟨e', he', hle, hlt⟩
    · rw [List.mem_singleton] at he'
      exact .inr (he' ▸ hlt)
  case later =>
    intro o ho e' he'
    obtain he' | he' := List.mem_append.mp he'
    · exact h.later o ho e' he'
    · rw [List.mem_singleton] at he'
      exact he' ▸ hlate o ho

/-- After a query the top of the stack is the last of the items around it that no query outlasted. -/
lemma Held.top {r : α → α → Prop} (hr : ∀ o, r o o) {e : β}
    (h : Held start finish qstart qfinish (past ++ [e]) (qstart e) done rest stack) (hle : qstart e ≤ qfinish e)
    (hsorted : done.Pairwise r) (hdone : ∀ o ∈ done, start o ≤ qstart e)
    (htop : ∀ o, stack.head? = some o → qfinish e ≤ finish o) :
    (∀ o ∈ done, Survives start finish qstart qfinish past e o → ∃ y, stack.head? = some y) ∧
    ∀ y, stack.head? = some y → y ∈ done ∧ Survives start finish qstart qfinish past e y ∧
      ∀ o ∈ done, Survives start finish qstart qfinish past e o → r o y := by
  have hstays : ∀ o ∈ done, Survives start finish qstart qfinish past e o → o ∈ stack := by
    rintro o ho ⟨-, hend, hnot⟩
    obtain hmem | hlt | ⟨e', he', hst, hlt⟩ := h.gone o ho
    · exact hmem
    · exact absurd (hlt.trans_le hle) hend.not_gt
    · obtain he' | he' := List.mem_append.mp he'
      · exact absurd ⟨e', he', hst, hlt⟩ hnot
      · rw [List.mem_singleton] at he'
        exact absurd (he' ▸ hlt) hend.not_gt
  constructor
  · intro o ho hsurv
    have hmem := hstays o ho hsurv
    cases stack with
    | nil => cases hmem
    | cons y stack => exact ⟨y, rfl⟩
  · intro y hy
    obtain ⟨below, rfl⟩ : ∃ below, stack = y :: below := by
      cases stack with
      | nil => cases hy
      | cons z stack =>
        cases hy
        exact ⟨stack, rfl⟩
    have hydone : y ∈ done := h.order.subset (by simp)
    have hynot : ¬Outlasted start finish qstart qfinish past y := by
      rintro ⟨e', he', hout⟩
      obtain ⟨x, hx, -⟩ := h.guarded [] y below rfl ⟨e', List.mem_append_left _ he', hout⟩
      cases hx
    refine ⟨hydone, ⟨hdone y hydone, htop y rfl, hynot⟩, fun o ho hsurv => ?_⟩
    obtain rfl | hmem := List.mem_cons.mp (hstays o ho hsurv)
    · exact hr o
    · have hpair := hsorted.sublist h.order
      rw [List.reverse_cons] at hpair
      exact (List.pairwise_append.mp hpair).2.2 o (List.mem_reverse.mpr hmem) y List.mem_cons_self

lemma head?_dropWhile_le {c : T} {o : α} (h : (stack.dropWhile fun x => finish x < c).head? = some o) :
    c ≤ finish o := by
  have hne : (stack.dropWhile fun x => finish x < c) ≠ [] := by
    intro hnil
    rw [hnil] at h
    cases h
  have hnot := List.head_dropWhile_not (fun x => decide (finish x < c)) hne
  rw [List.head?_eq_some_head hne] at h
  rw [Option.some.inj h] at hnot
  simpa using hnot

/-- The queries of a sweep that goes on from a stack. -/
lemma Held.sweep {r : α → α → Prop} (hr : ∀ o, r o o) {queries : List β} {items : List α}
    (h : Held start finish qstart qfinish past t done rest stack) (hitems : items = done ++ rest)
    (hsorted : items.Pairwise r) (hstart : items.Pairwise fun a b => start a ≤ start b)
    (hdone : ∀ o ∈ done, start o ≤ t) (hqs : queries.Pairwise fun a b => qstart a ≤ qstart b)
    (ht : ∀ e ∈ queries, t ≤ qstart e) (hq : ∀ e ∈ queries, qstart e ≤ qfinish e) {pre post : List β} {e : β}
    (hsplit : queries = pre ++ e :: post) :
    ∃ top, (Sweep.sweep start finish qstart qfinish stack rest queries)[pre.length]? = some (e, top) ∧
      (∀ o ∈ items, Survives start finish qstart qfinish (past ++ pre) e o → ∃ y, top = some y) ∧
      ∀ y, top = some y → y ∈ items ∧ Survives start finish qstart qfinish (past ++ pre) e y ∧
        ∀ o ∈ items, Survives start finish qstart qfinish (past ++ pre) e o → r o y := by
  induction pre generalizing past t done rest stack queries with
  | nil =>
    subst hsplit
    rw [List.nil_append] at hqs ht hq
    obtain ⟨more, hrest, hmore, hlate, hheld⟩ :=
      h.push (hstart.sublist (hitems ▸ List.sublist_append_right _ _)) (ht e List.mem_cons_self)
    have hall : ∀ o ∈ done ++ more, start o ≤ qstart e := by
      intro o ho
      obtain ho | ho := List.mem_append.mp ho
      · exact (hdone o ho).trans (ht e List.mem_cons_self)
      · exact hmore o ho
    have hpop := hheld.pop hlate hall
    have hpart : items = done ++ more ++ (Sweep.push start finish (qstart e) stack rest).2 := by
      rw [hitems, List.append_assoc, ← hrest]
    have hdm : (done ++ more).Pairwise r := hsorted.sublist (hpart ▸ List.sublist_append_left _ _)
    obtain ⟨hsome, htop⟩ := hpop.top hr (hq e List.mem_cons_self) hdm hall fun o ho => head?_dropWhile_le ho
    -- an item that has not started is not around the query
    have hin : ∀ o ∈ items, Survives start finish qstart qfinish past e o → o ∈ done ++ more := by
      intro o ho hsurv
      rw [hpart] at ho
      obtain ho | ho := List.mem_append.mp ho
      · exact ho
      · exact absurd hsurv.1 (hlate o ho).not_ge
    rw [List.append_nil]
    refine ⟨_, rfl, fun o ho hsurv => hsome o (hin o ho hsurv) hsurv, fun y hy => ?_⟩
    obtain ⟨hydone, hysurv, hylast⟩ := htop y hy
    refine ⟨hpart ▸ List.mem_append_left _ hydone, hysurv, fun o ho hsurv => hylast o (hin o ho hsurv) hsurv⟩
  | cons e' pre ih =>
    subst hsplit
    obtain ⟨hhead, htail⟩ := List.pairwise_cons.mp hqs
    have hmem : e' ∈ e' :: pre ++ e :: post := List.mem_cons_self
    obtain ⟨more, hrest, hmore, hlate, hheld⟩ :=
      h.push (hstart.sublist (hitems ▸ List.sublist_append_right _ _)) (ht e' hmem)
    have hall : ∀ o ∈ done ++ more, start o ≤ qstart e' := by
      intro o ho
      obtain ho | ho := List.mem_append.mp ho
      · exact (hdone o ho).trans (ht e' hmem)
      · exact hmore o ho
    have hpart : items = done ++ more ++ (Sweep.push start finish (qstart e') stack rest).2 := by
      rw [hitems, List.append_assoc, ← hrest]
    obtain ⟨top, hget, hsome, htop⟩ := ih (hheld.pop hlate hall) hpart hall htail hhead
      (fun x hx => hq x (List.mem_cons_of_mem _ hx)) rfl
    rw [List.append_assoc] at hsome htop
    exact ⟨top, hget, hsome, htop⟩

/-- The answer to a query is the last of the items around it that no earlier query outlasted. -/
theorem sweep_spec (start finish : α → T) (qstart qfinish : β → T) {r : α → α → Prop} (hr : ∀ o, r o o) {items : List α} {queries : List β}
    (hsorted : items.Pairwise r) (hstart : items.Pairwise fun a b => start a ≤ start b)
    (hqs : queries.Pairwise fun a b => qstart a ≤ qstart b) (hq : ∀ e ∈ queries, qstart e ≤ qfinish e)
    {pre post : List β} {e : β} (hsplit : queries = pre ++ e :: post) :
    ∃ top, (Sweep.sweep start finish qstart qfinish [] items queries)[pre.length]? = some (e, top) ∧
      (∀ o ∈ items, Survives start finish qstart qfinish pre e o → ∃ y, top = some y) ∧
      ∀ y, top = some y → y ∈ items ∧ Survives start finish qstart qfinish pre e y ∧
        ∀ o ∈ items, Survives start finish qstart qfinish pre e o → r o y := by
  cases queries with
  | nil => exact absurd hsplit.symm (by simp)
  | cons e' queries =>
    have hheld : Held start finish qstart qfinish [] (qstart e') [] items [] :=
      ⟨List.Sublist.refl [], by simp, fun _ _ _ heq => absurd heq.symm (by simp), by simp⟩
    obtain ⟨hhead, -⟩ := List.pairwise_cons.mp hqs
    have ht : ∀ x ∈ e' :: queries, qstart e' ≤ qstart x := by
      intro x hx
      obtain rfl | hx := List.mem_cons.mp hx
      · exact le_rfl
      · exact hhead x hx
    exact hheld.sweep hr rfl hsorted hstart (by simp) hqs ht hq hsplit

end Sweep
end Lib
