import Mathlib.Algebra.Order.Ring.Rat
import Mathlib.Data.Finset.Max
import Mathlib.Data.List.Sort
import Mathlib.Data.Prod.Lex
import Mathlib.Data.String.Basic
import Mathlib.Tactic.Linarith
import SuffixHybrid.Lib.Sweep

/-!
# Owners of launches

The profiler attributes a kernel to the innermost CPU operation around its launch. It sweeps over each thread
that has operations, which are sorted as tuples: of operations that start together the longest comes last, and
is the top of the stack. So the sweep names the last operation around the call (`owner_iff`), which is an
innermost one where no two operations around the call start together (`lastAround_innermost`).
-/

namespace SuffixHybrid.Profile

open Lib

/-! ## The sweep -/

/-- An event of the trace, with the fields that the sweep reads. -/
structure Event where
  cat : String
  tid : Option ℕ
  ts : ℚ
  dur : ℚ
  name : Option String
  correlation : Option ℕ
deriving DecidableEq

/-- The end of an event. -/
def Event.finish (e : Event) : ℚ := e.ts + e.dur

/-- A CPU operation, the tuple of its start, its end and its name. -/
structure Op where
  ts : ℚ
  finish : ℚ
  name : String
deriving DecidableEq

/-- Tuples are compared field by field. -/
def Op.key (o : Op) : ℚ ×ₗ (ℚ ×ₗ String) := toLex (o.ts, toLex (o.finish, o.name))

/-- The keys of `ops`. -/
def threads (evs : List Event) : List (Option ℕ) :=
  evs.foldl (fun tids e => if e.cat = "cpu_op" ∧ !tids.contains e.tid then tids ++ [e.tid] else tids) []

/-- `ops[tid]`, sorted. -/
def ops (evs : List Event) (tid : Option ℕ) : List Op :=
  ((evs.filter fun e => e.cat = "cpu_op" ∧ e.tid = tid).map fun e => ⟨e.ts, e.finish, e.name.getD "?"⟩).mergeSort
    fun a b => a.key ≤ b.key

/-- `calls[tid]`, sorted by their starts. -/
def calls (rt : List Event) (tid : Option ℕ) : List Event :=
  (rt.filter fun e => e.correlation.isSome ∧ e.tid = tid).mergeSort fun a b => a.ts ≤ b.ts

/-- What the sweep over a thread writes to `launch`, by call instead of its correlation id. A thread without
operations is not swept. -/
def owners (evs rt : List Event) (tid : Option ℕ) : List (Event × String) :=
  if (threads evs).contains tid then
    (Sweep.sweep Op.ts Op.finish Event.ts Event.finish [] (ops evs tid) (calls rt tid)).map
      fun p => (p.1, p.2.elim "-" Op.name)
  else []

/-! ## The definition -/

/-- The operation is around the call. -/
def Encloses (o : Op) (e : Event) : Prop := o.ts ≤ e.ts ∧ e.finish ≤ o.finish

/-- An operation of minimal duration around the call. -/
def Innermost (l : List Op) (e : Event) (o : Op) : Prop :=
  o ∈ l ∧ Encloses o e ∧ ∀ o' ∈ l, Encloses o' e → o.finish - o.ts ≤ o'.finish - o'.ts

/-- The owner of a call, as the search over all operations defines it. -/
def Owner (l : List Op) (e : Event) (name : String) : Prop :=
  (∃ o, Innermost l e o ∧ o.name = name) ∨ (∀ o ∈ l, ¬Encloses o e) ∧ name = "-"

/-- Two operations are disjoint, or one contains the other. -/
def Nested (a b : Op) : Prop :=
  a.finish ≤ b.ts ∨ b.finish ≤ a.ts ∨ (a.ts ≤ b.ts ∧ b.finish ≤ a.finish) ∨ b.ts ≤ a.ts ∧ a.finish ≤ b.finish

/-- A call is inside or outside of an operation. -/
def InOut (e : Event) (o : Op) : Prop := Encloses o e ∨ o.finish ≤ e.ts ∨ e.finish ≤ o.ts

/-- The operation ends at the start of the call, where a call before it started and went on. -/
def Spent (past : List Event) (e : Event) (o : Op) : Prop :=
  o.finish = e.ts ∧ ∃ e' ∈ past, e'.ts = e.ts ∧ e.ts < e'.finish

/-- The last operation around the call in the order of the tuples, but for spent ones. -/
def LastAround (l : List Op) (past : List Event) (e : Event) (o : Op) : Prop :=
  o ∈ l ∧ Encloses o e ∧ ¬Spent past e o ∧ ∀ o' ∈ l, Encloses o' e → ¬Spent past e o' → o'.key ≤ o.key

/-! ## The order of the operations -/

lemma mem_threads {evs : List Event} {tid : Option ℕ} : tid ∈ threads evs ↔ ops evs tid ≠ [] := by
  have hfold : ∀ (evs : List Event) (tids : List (Option ℕ)),
      tid ∈ evs.foldl (fun tids e => if e.cat = "cpu_op" ∧ !tids.contains e.tid then tids ++ [e.tid] else tids) tids ↔
        tid ∈ tids ∨ ∃ e ∈ evs, e.cat = "cpu_op" ∧ e.tid = tid := by
    intro evs
    induction evs with
    | nil => simp
    | cons e evs ih =>
      intro tids
      rw [List.foldl_cons, ih]
      split_ifs with h
      · rw [List.mem_append, List.mem_singleton]
        constructor
        · rintro ((h' | rfl) | ⟨e', he', h'⟩)
          · exact .inl h'
          · exact .inr ⟨e, List.mem_cons_self, h.1, rfl⟩
          · exact .inr ⟨e', List.mem_cons_of_mem e he', h'⟩
        · rintro (h' | ⟨e', he', hcat, rfl⟩)
          · exact .inl (.inl h')
          · obtain rfl | he' := List.mem_cons.mp he'
            · exact .inl (.inr rfl)
            · exact .inr ⟨e', he', hcat, rfl⟩
      · constructor
        · rintro (h' | ⟨e', he', h'⟩)
          · exact .inl h'
          · exact .inr ⟨e', List.mem_cons_of_mem e he', h'⟩
        · rintro (h' | ⟨e', he', hcat, rfl⟩)
          · exact .inl h'
          · obtain rfl | he' := List.mem_cons.mp he'
            · exact .inl (by simpa [hcat] using h)
            · exact .inr ⟨e', he', hcat, rfl⟩
  have hops : ops evs tid ≠ [] ↔ ∃ e ∈ evs, e.cat = "cpu_op" ∧ e.tid = tid := by
    rw [← List.length_pos_iff, ops, List.length_mergeSort, List.length_map, List.length_pos_iff, ne_eq,
      List.filter_eq_nil_iff]
    push Not
    simp
  rw [threads, hfold, hops]
  simp

lemma ops_sorted (evs : List Event) (tid : Option ℕ) : (ops evs tid).Pairwise fun a b => a.key ≤ b.key := by
  have h := @List.pairwise_mergeSort _ (fun a b : Op => decide (a.key ≤ b.key))
    (fun a b c hab hbc => decide_eq_true ((of_decide_eq_true hab).trans (of_decide_eq_true hbc)))
    (fun a b => by simpa using le_total a.key b.key)
    ((evs.filter fun e => e.cat = "cpu_op" ∧ e.tid = tid).map fun e => ⟨e.ts, e.finish, e.name.getD "?"⟩)
  exact h.imp of_decide_eq_true

lemma calls_sorted (rt : List Event) (tid : Option ℕ) : (calls rt tid).Pairwise fun a b => a.ts ≤ b.ts := by
  have h := @List.pairwise_mergeSort _ (fun a b : Event => decide (a.ts ≤ b.ts))
    (fun a b c hab hbc => decide_eq_true ((of_decide_eq_true hab).trans (of_decide_eq_true hbc)))
    (fun a b => by simpa using le_total a.ts b.ts)
    (rt.filter fun e => e.correlation.isSome ∧ e.tid = tid)
  exact h.imp of_decide_eq_true

lemma Op.ts_le_of_key {a b : Op} (h : a.key ≤ b.key) : a.ts ≤ b.ts := by
  obtain h | ⟨h, -⟩ := Prod.Lex.toLex_le_toLex.mp h
  · exact h.le
  · exact h.le

lemma Op.finish_le_of_key {a b : Op} (h : a.key ≤ b.key) (hts : a.ts = b.ts) : a.finish ≤ b.finish := by
  obtain h | ⟨-, h⟩ := Prod.Lex.toLex_le_toLex.mp h
  · exact absurd hts h.ne
  · obtain h | ⟨h, -⟩ := Prod.Lex.toLex_le_toLex.mp h
    · exact h.le
    · exact h.le

/-! ## What the sweep writes -/

/-- Of the calls inside or outside an operation around a call, only a longer one at its end outlasts it. -/
lemma survives_iff {l : List Op} {past : List Event} {e : Event} {o : Op} (ho : o ∈ l)
    (hin : ∀ e' ∈ past, ∀ o ∈ l, InOut e' o) (hpast : ∀ e' ∈ past, e'.ts ≤ e.ts) (hdur : 0 ≤ e.dur) :
    Sweep.Survives Op.ts Op.finish Event.ts Event.finish past e o ↔ Encloses o e ∧ ¬Spent past e o := by
  constructor
  · rintro ⟨hts, hfin, hnot⟩
    refine ⟨⟨hts, hfin⟩, ?_⟩
    rintro ⟨hend, e', he', heq, hlt⟩
    exact hnot ⟨e', he', heq ▸ hts, hend ▸ hlt⟩
  · rintro ⟨⟨hts, hfin⟩, hnot⟩
    refine ⟨hts, hfin, ?_⟩
    rintro ⟨e', he', hle, hlt⟩
    have hbefore := hpast e' he'
    have hstart : e.ts ≤ e.finish := by
      unfold Event.finish
      linarith
    obtain ⟨-, hend⟩ | hout | hout := hin e' he' o ho
    · exact absurd hlt hend.not_gt
    · refine hnot ⟨by linarith, e', he', by linarith, by linarith⟩
    · linarith

/-- The operation that the sweep finds, or none. -/
lemma owners_spec {evs rt : List Event} {tid : Option ℕ} (hops : ops evs tid ≠ [])
    (hin : ∀ e ∈ calls rt tid, ∀ o ∈ ops evs tid, InOut e o) (hdur : ∀ e ∈ calls rt tid, 0 ≤ e.dur)
    {pre post : List Event} {e : Event} (hsplit : calls rt tid = pre ++ e :: post) :
    ∃ top : Option Op, (owners evs rt tid)[pre.length]? = some (e, top.elim "-" Op.name) ∧
      (∀ o, top = some o → LastAround (ops evs tid) pre e o) ∧
      (top = none → ∀ o ∈ ops evs tid, Encloses o e → Spent pre e o) := by
  have hmem : ∀ x ∈ pre, x ∈ calls rt tid := fun x hx => hsplit ▸ List.mem_append_left _ hx
  have he : e ∈ calls rt tid := hsplit ▸ List.mem_append_right _ List.mem_cons_self
  have hpast : ∀ x ∈ pre, x.ts ≤ e.ts := by
    intro x hx
    have hsorted := calls_sorted rt tid
    rw [hsplit] at hsorted
    exact (List.pairwise_append.mp hsorted).2.2 x hx e List.mem_cons_self
  have hiff (o : Op) (ho : o ∈ ops evs tid) :=
    survives_iff ho (fun x hx => hin x (hmem x hx)) hpast (hdur e he)
  obtain ⟨top, hget, hsome, htop⟩ := Sweep.sweep_spec Op.ts Op.finish Event.ts Event.finish (fun o : Op => le_refl o.key) (ops_sorted evs tid)
    ((ops_sorted evs tid).imp Op.ts_le_of_key) (calls_sorted rt tid)
    (fun x hx => by
      have := hdur x hx
      unfold Event.finish
      linarith) hsplit
  refine ⟨top, ?_, fun o ho => ?_, fun hnone o ho henc => ?_⟩
  · rw [owners, if_pos (List.contains_iff_mem.mpr (mem_threads.mpr hops)), List.getElem?_map, hget]
    rfl
  · obtain ⟨hmem, hsurv, hlast⟩ := htop o ho
    obtain ⟨henc, hnot⟩ := (hiff o hmem).mp hsurv
    exact ⟨hmem, henc, hnot, fun o' ho' henc' hnot' => hlast o' ho' ((hiff o' ho').mpr ⟨henc', hnot'⟩)⟩
  · by_contra hnot
    obtain ⟨y, hy⟩ := hsome o ho ((hiff o ho).mpr ⟨henc, hnot⟩)
    rw [hnone] at hy
    cases hy

/-- The thread has operations, and if one is around the call, an innermost one has the name of the last one (a dash,
where all are spent). -/
def Named (l : List Op) (past : List Event) (e : Event) : Prop :=
  l ≠ [] ∧ ((∀ o ∈ l, ¬Encloses o e) ∨ ∃ o', Innermost l e o' ∧
    ((∃ o, LastAround l past e o ∧ o.name = o'.name) ∨ (∀ o ∈ l, Encloses o e → Spent past e o) ∧ o'.name = "-"))

/-- There is at most one last operation, up to its tuple. -/
lemma LastAround.name_eq {l : List Op} {past : List Event} {e : Event} {o o' : Op} (h : LastAround l past e o)
    (h' : LastAround l past e o') : o.name = o'.name := by
  have hkey : o.key = o'.key := le_antisymm (h'.2.2.2 o h.1 h.2.1 h.2.2.1) (h.2.2.2 o' h'.1 h'.2.1 h'.2.2.1)
  exact congrArg (fun k => (ofLex (ofLex k).2).2) hkey

/-- A call of positive duration is not at the end of an operation around it. -/
lemma not_spent {past : List Event} {e : Event} {o : Op} (hpos : 0 < e.dur) (h : Encloses o e) :
    ¬Spent past e o := by
  rintro ⟨hend, -⟩
  have hle := h.2
  unfold Event.finish at hle
  linarith

/-- Of properly nested operations the last one around a call is an innermost one, if none around the call starts
with it and ends at another time. -/
lemma lastAround_innermost {l : List Op} {past : List Event} {e : Event} {o : Op} (hpos : 0 < e.dur)
    (hnest : ∀ a ∈ l, ∀ b ∈ l, Nested a b)
    (hstart : ∀ a ∈ l, ∀ b ∈ l, Encloses a e → Encloses b e → a.ts = b.ts → a.finish = b.finish)
    (h : LastAround l past e o) : Innermost l e o := by
  obtain ⟨hmem, henc, -, hlast⟩ := h
  refine ⟨hmem, henc, fun o' ho' henc' => ?_⟩
  have hkey := hlast o' ho' henc' (not_spent hpos henc')
  have hts := Op.ts_le_of_key hkey
  have hlong : e.ts < e.finish := by
    unfold Event.finish
    linarith
  obtain ⟨h1, h2⟩ := henc
  obtain ⟨h1', h2'⟩ := henc'
  obtain heq | hlt := hts.eq_or_lt
  · have hfin := hstart o' ho' o hmem ⟨h1', h2'⟩ ⟨h1, h2⟩ heq
    linarith
  · obtain hdis | hdis | ⟨hin, -⟩ | ⟨-, hin⟩ := hnest o hmem o' ho'
    · linarith
    · linarith
    · linarith
    · linarith

/-- Around a call of positive duration there is a last operation, if there is any. -/
lemma exists_lastAround {l : List Op} {e : Event} (past : List Event) (hpos : 0 < e.dur) {o : Op} (ho : o ∈ l)
    (henc : Encloses o e) : ∃ o', LastAround l past e o' := by
  classical
  have hne : (l.toFinset.filter fun o => Encloses o e).Nonempty :=
    ⟨o, Finset.mem_filter.mpr ⟨List.mem_toFinset.mpr ho, henc⟩⟩
  obtain ⟨o', ho', hmax⟩ := Finset.exists_max_image _ Op.key hne
  rw [Finset.mem_filter, List.mem_toFinset] at ho'
  refine ⟨o', ho'.1, ho'.2, not_spent hpos ho'.2, fun x hx hxe _ => ?_⟩
  exact hmax x (Finset.mem_filter.mpr ⟨List.mem_toFinset.mpr hx, hxe⟩)

/-- The sweep names the owner of a call exactly if its thread has operations and an innermost operation around it
has the name of the last one; for properly nested operations and a call of positive duration it is enough that no
two operations around the call start together and end apart. -/
theorem owner_iff (evs rt : List Event) (tid : Option ℕ)
    (hnest : ∀ a ∈ ops evs tid, ∀ b ∈ ops evs tid, Nested a b)
    (hin : ∀ e ∈ calls rt tid, ∀ o ∈ ops evs tid, InOut e o) (hdur : ∀ e ∈ calls rt tid, 0 ≤ e.dur)
    (pre post : List Event) (e : Event) (hsplit : calls rt tid = pre ++ e :: post) :
    ((∃ name, (owners evs rt tid)[pre.length]? = some (e, name) ∧ Owner (ops evs tid) e name) ↔
      Named (ops evs tid) pre e) ∧
    (ops evs tid ≠ [] → 0 < e.dur →
      (∀ a ∈ ops evs tid, ∀ b ∈ ops evs tid, Encloses a e → Encloses b e → a.ts = b.ts → a.finish = b.finish) →
      Named (ops evs tid) pre e) := by
  refine ⟨⟨fun ⟨name, hget, howner⟩ => ?_, fun ⟨hops, hname⟩ => ?_⟩, fun hops hpos hstart => ⟨hops, ?_⟩⟩
  · have hops : ops evs tid ≠ [] := by
      intro hnil
      rw [owners, if_neg (fun h => mem_threads.mp (List.contains_iff_mem.mp h) hnil)] at hget
      cases hget
    refine ⟨hops, ?_⟩
    obtain ⟨top, hget', hsome, hnone⟩ := owners_spec hops hin hdur hsplit
    have htop : top.elim "-" Op.name = name := by
      rw [hget'] at hget
      exact (Prod.mk.inj (Option.some.inj hget)).2
    obtain ⟨o', hinner, hname⟩ | ⟨hno, -⟩ := howner
    · refine .inr ⟨o', hinner, ?_⟩
      cases top with
      | none => exact .inr ⟨hnone rfl, hname.trans htop.symm⟩
      | some o => exact .inl ⟨o, hsome o rfl, htop.trans hname.symm⟩
    · exact .inl hno
  · obtain ⟨top, hget, hsome, hnone⟩ := owners_spec hops hin hdur hsplit
    refine ⟨_, hget, ?_⟩
    obtain hno | ⟨o', hinner, hlast | ⟨hspent, hdash⟩⟩ := hname
    · refine .inr ⟨hno, ?_⟩
      cases top with
      | none => rfl
      | some o => exact absurd (hsome o rfl).2.1 (hno o (hsome o rfl).1)
    · obtain ⟨o, ho, heq⟩ := hlast
      refine .inl ⟨o', hinner, ?_⟩
      cases top with
      | none => exact absurd (hnone rfl o ho.1 ho.2.1) ho.2.2.1
      | some x => exact heq.symm.trans (ho.name_eq (hsome x rfl))
    · refine .inl ⟨o', hinner, ?_⟩
      cases top with
      | none => exact hdash
      | some x => exact absurd (hspent x (hsome x rfl).1 (hsome x rfl).2.1) (hsome x rfl).2.2.1
  · by_cases hno : ∀ o ∈ ops evs tid, ¬Encloses o e
    · exact .inl hno
    · push Not at hno
      obtain ⟨o, ho, henc⟩ := hno
      obtain ⟨o', hlast⟩ := exists_lastAround pre hpos ho henc
      exact .inr ⟨o', lastAround_innermost hpos hnest hstart hlast, .inl ⟨o', hlast, rfl⟩⟩

/-! ## Operations that start together -/

/-- Two operations that start together, the inner one with a name of its own. -/
def together : List Event :=
  [⟨"cpu_op", some 1, 0, 5, some "inner", none⟩, ⟨"cpu_op", some 1, 0, 10, some "outer", none⟩]

/-- A launch inside of both. -/
def launched : Event := ⟨"cuda_runtime", some 1, 1, 1, some "cudaLaunchKernel", some 7⟩

lemma ops_together : ops together (some 1) = [⟨0, 5, "inner"⟩, ⟨0, 10, "outer"⟩] := by
  have hle : Op.key ⟨0, 5, "inner"⟩ ≤ Op.key ⟨0, 10, "outer"⟩ :=
    Prod.Lex.toLex_le_toLex.mpr (.inr ⟨rfl, Prod.Lex.toLex_le_toLex.mpr (.inl (by norm_num))⟩)
  have hmap : (together.filter fun e => e.cat = "cpu_op" ∧ e.tid = some 1).map
      (fun e => (⟨e.ts, e.finish, e.name.getD "?"⟩ : Op)) = [⟨0, 5, "inner"⟩, ⟨0, 10, "outer"⟩] := by
    with_unfolding_all decide
  rw [ops, hmap, List.mergeSort_of_pairwise]
  simpa using hle

lemma calls_together : calls [launched] (some 1) = [launched] := by
  with_unfolding_all decide

theorem owner_iff_single :
    (∃ name, (owners [⟨"cpu_op", some 1, 0, 10, some "outer", none⟩] [launched] (some 1))[0]? =
      some (launched, name) ∧ Owner (ops [⟨"cpu_op", some 1, 0, 10, some "outer", none⟩] (some 1)) launched name) ↔
    Named (ops [⟨"cpu_op", some 1, 0, 10, some "outer", none⟩] (some 1)) [] launched := by
  have hops : ops [⟨"cpu_op", some 1, 0, 10, some "outer", none⟩] (some 1) = [⟨0, 10, "outer"⟩] := by
    with_unfolding_all decide
  refine (owner_iff _ [launched] (some 1) ?_ ?_ ?_ [] [] launched calls_together).1
  · rw [hops]
    intro a ha b hb
    rw [List.mem_singleton] at ha hb
    subst ha hb
    exact .inr (.inr (.inl ⟨le_rfl, le_rfl⟩))
  · rw [hops, calls_together]
    intro x hx o ho
    rw [List.mem_singleton] at hx ho
    subst hx ho
    exact .inl ⟨by decide, by with_unfolding_all decide⟩
  · rw [calls_together]
    intro x hx
    rw [List.mem_singleton] at hx
    subst hx
    decide

/-- The launch is attributed to the outer operation. -/
theorem outer_named : (∀ a ∈ ops together (some 1), ∀ b ∈ ops together (some 1), Nested a b) ∧
    (∀ o ∈ ops together (some 1), InOut launched o) ∧
    owners together [launched] (some 1) = [(launched, "outer")] ∧
    ¬Owner (ops together (some 1)) launched "outer" := by
  have howners : owners together [launched] (some 1) = [(launched, "outer")] := by
    rw [owners, if_pos (by decide), ops_together, calls_together]
    with_unfolding_all decide
  rw [ops_together]
  refine ⟨?_, ?_, howners, ?_⟩
  · intro a ha b hb
    simp only [List.mem_cons, List.not_mem_nil, or_false] at ha hb
    obtain rfl | rfl := ha <;> obtain rfl | rfl := hb <;> unfold Nested <;> norm_num
  · intro o ho
    simp only [List.mem_cons, List.not_mem_nil, or_false] at ho
    obtain rfl | rfl := ho <;> left <;> constructor <;> norm_num [launched, Event.finish]
  · rintro (⟨o, ⟨hmem, -, hmin⟩, hname⟩ | ⟨-, hname⟩)
    · simp only [List.mem_cons, List.not_mem_nil, or_false] at hmem
      obtain rfl | rfl := hmem
      · exact absurd hname (by decide)
      · have h := hmin ⟨0, 5, "inner"⟩ List.mem_cons_self ⟨by norm_num [launched], by norm_num [launched, Event.finish]⟩
        norm_num at h
    · exact absurd hname (by decide)

end SuffixHybrid.Profile
