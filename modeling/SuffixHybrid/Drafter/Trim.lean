import Mathlib.Algebra.Order.BigOperators.Group.List
import SuffixHybrid.Drafter.Basic
import SuffixHybrid.Lib.Cells
import SuffixHybrid.Proposer.Atomic

/-!
# The trim on the heap

A scheduler output is an object with two dictionaries, and the scheduler keeps it. `trimObject` runs
`trim` on the heap: it fills a dictionary of its own with the cut rows, copies the token counts when it
cuts the first row, and copies the object when it has cut any. Nothing that was on the heap changes
(`HeapOf.Extends`), and what the result holds is the schedule of the functional `trim`
(`cutView_trim`). `trim_conservative` says what that is, row by row.
-/

namespace SuffixHybrid
open Lib

/-- A scheduler output: references to its dictionaries, and the attributes that `trim` does not read. -/
structure OutputObject (R : Type) where
  scheduledSpecDecodeTokens : Option ℕ
  numScheduledTokens : ℕ
  totalNumScheduledTokens : ℤ
  hasStructuredOutputRequests : Bool
  rest : R

/-- A heap of scheduler outputs and their dictionaries. -/
structure HeapOf (R : Type) where
  outputs : Cells (OutputObject R)
  specs : Cells (Map ReqId (List Token))
  nums : Cells (Map ReqId ℤ)

/-- The locals of the loop of `trim`. -/
structure TrimLocals where
  newSpec : ℕ
  num : Option ℕ
  cut : ℕ

namespace AsyncSuffixDrafter
variable {R : Type}

/-- The token counts that the loop writes to: a copy, made when it first cuts a row. -/
def copiedNum (obj : OutputObject R) (h : HeapOf R) (num : Option ℕ) : Option (ℕ × HeapOf R) :=
  match num with
  | some r => some (r, h)
  | none => do
    let counts ← h.nums.read obj.numScheduledTokens
    let (nums, r) := h.nums.alloc counts
    some (r, { h with nums })

/-- A row that is cut loses its tokens from the counts. A request without a count is a `KeyError`. -/
def cutEntry (d : AsyncSuffixDrafter) (obj : OutputObject R) (st : HeapOf R × TrimLocals)
    (e : ReqId × List Token) : Option (HeapOf R × TrimLocals) :=
  if d.trimWidth e.1 e.2 < e.2.length then do
    let (r, h) ← copiedNum obj st.1 st.2.num
    let counts ← h.nums.read r
    let old ← counts.lookup e.1
    let nums ← h.nums.write r (counts.put e.1 (old - d.trimCut e))
    some ({ h with nums }, { st.2 with num := some r, cut := st.2.cut + d.trimCut e })
  else some st

/-- A row that keeps a token enters the new dictionary. -/
def keepEntry (d : AsyncSuffixDrafter) (st : HeapOf R × TrimLocals) (e : ReqId × List Token) :
    Option (HeapOf R × TrimLocals) :=
  if d.trimWidth e.1 e.2 ≠ 0 then do
    let spec ← st.1.specs.read st.2.newSpec
    let specs ← st.1.specs.write st.2.newSpec (spec.put e.1 (e.2.take (d.trimWidth e.1 e.2)))
    some ({ st.1 with specs }, st.2)
  else some st

/-- A round of the loop of `trim`. -/
def trimEntry (d : AsyncSuffixDrafter) (obj : OutputObject R) (st : HeapOf R × TrimLocals)
    (e : ReqId × List Token) : Option (HeapOf R × TrimLocals) :=
  (d.cutEntry obj st e).bind fun st => d.keepEntry st e

/-- `trim` on the heap: the reference of the object that it returns. -/
def trimObject (d : AsyncSuffixDrafter) (h : HeapOf R) (so : ℕ) : Option (HeapOf R × ℕ) := do
  let obj ← h.outputs.read so
  match obj.scheduledSpecDecodeTokens with
  | none => some (h, so)
  | some ref => do
    let spec ← h.specs.read ref
    if spec.items = [] || obj.hasStructuredOutputRequests then some (h, so)
    else do
      let (specs, newSpec) := h.specs.alloc ∅
      let (h, l) ← Lib.run (d.trimEntry obj) ({ h with specs }, { newSpec, num := none, cut := 0 }) spec.items
      -- the caller gets its own object back where nothing is cut
      if l.cut = 0 then some (h, so)
      else do
        let num ← l.num
        let (outputs, copy) := h.outputs.alloc obj
        let outputs ← outputs.write copy { obj with
          scheduledSpecDecodeTokens := some l.newSpec
          numScheduledTokens := num
          totalNumScheduledTokens := obj.totalNumScheduledTokens - l.cut }
        some ({ h with outputs }, copy)

end AsyncSuffixDrafter

/-! ## What an object holds -/

/-- What a scheduler output holds. -/
structure OutputView (R : Type) where
  spec : Option (Map ReqId (List Token))
  num : Map ReqId ℤ
  total : ℤ
  structured : Bool
  rest : R

namespace OutputView
variable {R : Type}

/-- The schedule of a view: without drafts where there is no dictionary. -/
def output (v : OutputView R) : AsyncSuffixDrafter.SchedulerOutput where
  spec := (v.spec.map Map.items).getD []
  structured := v.structured
  numScheduled := v.num
  totalScheduled := v.total

/-- Every row of drafts is scheduled with at least one token more, and the total is the sum. -/
structure Scheduled (v : OutputView R) : Prop where
  counted : ∀ spec, v.spec = some spec → ∀ rid toks, spec.lookup rid = some toks →
    ∃ n, v.num.lookup rid = some n ∧ 1 + toks.length ≤ n
  total : v.total = v.num.total

end OutputView

namespace HeapOf
variable {R : Type}

/-- The dictionary of drafts at a reference, if there is one. -/
def drafts (h : HeapOf R) (ref : Option ℕ) : Option (Option (Map ReqId (List Token))) :=
  match ref with
  | none => some none
  | some ref => (h.specs.read ref).map some

/-- What the object at a reference holds. -/
def view (h : HeapOf R) (so : ℕ) : Option (OutputView R) := do
  let obj ← h.outputs.read so
  let num ← h.nums.read obj.numScheduledTokens
  let spec ← h.drafts obj.scheduledSpecDecodeTokens
  some {
    spec, num
    total := obj.totalNumScheduledTokens
    structured := obj.hasStructuredOutputRequests
    rest := obj.rest }

/-- Every object of the one heap is on the other, as it was. -/
structure Extends (h h' : HeapOf R) : Prop where
  outputs : h.outputs <+: h'.outputs
  specs : h.specs <+: h'.specs
  nums : h.nums <+: h'.nums

lemma Extends.refl (h : HeapOf R) : Extends h h :=
  ⟨List.prefix_rfl, List.prefix_rfl, List.prefix_rfl⟩

/-- The objects of a heap hold what they held. -/
lemma Extends.view {h h' : HeapOf R} (hext : Extends h h') {so : ℕ} {v : OutputView R}
    (hv : h.view so = some v) : h'.view so = some v := by
  simp only [HeapOf.view, Option.bind_eq_bind, Option.bind_eq_some_iff] at hv ⊢
  obtain ⟨obj, hobj, num, hnum, spec, hspec, heq⟩ := hv
  refine ⟨obj, Cells.read_of_prefix hext.outputs hobj, num, Cells.read_of_prefix hext.nums hnum, spec, ?_, heq⟩
  cases href : obj.scheduledSpecDecodeTokens with
  | none =>
    rw [href] at hspec
    exact hspec
  | some ref =>
    rw [href] at hspec
    obtain ⟨m, hm, rfl⟩ := Option.map_eq_some_iff.mp hspec
    exact congrArg (Option.map some) (Cells.read_of_prefix hext.specs hm)

end HeapOf

namespace AsyncSuffixDrafter
variable {R : Type}

/-! ## The loop -/

/-- The token counts after a row. -/
def cutCounts (d : AsyncSuffixDrafter) (counts : Map ReqId ℤ) (e : ReqId × List Token) : Map ReqId ℤ :=
  if d.trimCut e > 0 then counts.put e.1 ((counts.lookup e.1).getD 0 - d.trimCut e) else counts

/-- The new dictionary after a row. -/
def keptSpec (d : AsyncSuffixDrafter) (spec : Map ReqId (List Token)) (e : ReqId × List Token) :
    Map ReqId (List Token) :=
  if d.trimWidth e.1 e.2 ≠ 0 then spec.put e.1 (e.2.take (d.trimWidth e.1 e.2)) else spec

lemma trimWidth_le (d : AsyncSuffixDrafter) (rid : ReqId) (toks : List Token) :
    d.trimWidth rid toks ≤ toks.length := Nat.min_le_right _ _

lemma trimCut_pos {d : AsyncSuffixDrafter} {e : ReqId × List Token} :
    d.trimCut e > 0 ↔ d.trimWidth e.1 e.2 < e.2.length := by
  unfold trimCut
  omega

lemma mem_cutCounts {d : AsyncSuffixDrafter} {counts : Map ReqId ℤ} {e : ReqId × List Token}
    {rid : ReqId} (h : rid ∈ counts) : rid ∈ d.cutCounts counts e := by
  unfold cutCounts
  split
  · exact (Map.mem_put _ _ _ _).mpr (Or.inr h)
  · exact h

/-- The heap and the locals of the loop: the new dictionary is the last one, and so is the copy of the
counts once there is one. -/
def loopState (h : HeapOf R) (spec : Map ReqId (List Token)) (counts : Map ReqId ℤ) (cut : ℕ) :
    HeapOf R × TrimLocals :=
  ({ h with
      specs := h.specs ++ [spec]
      nums := if cut = 0 then h.nums else h.nums ++ [counts] },
    { newSpec := h.specs.length, num := if cut = 0 then none else some h.nums.length, cut })

section loop
variable {d : AsyncSuffixDrafter} {obj : OutputObject R} {h : HeapOf R} {spec : Map ReqId (List Token)}
  {counts : Map ReqId ℤ} {cut : ℕ}

lemma cutEntry_eq (hread : cut = 0 → h.nums.read obj.numScheduledTokens = some counts)
    {e : ReqId × List Token} (hmem : e.1 ∈ counts) :
    d.cutEntry obj (loopState h spec counts cut) e
      = some (loopState h spec (d.cutCounts counts e) (cut + d.trimCut e)) := by
  by_cases hcut : d.trimCut e > 0
  · obtain ⟨old, hold⟩ := Map.exists_lookup hmem
    have hsum : cut + d.trimCut e ≠ 0 := by omega
    rw [cutEntry, if_pos (trimCut_pos.mp hcut), cutCounts, if_pos hcut]
    by_cases hzero : cut = 0
    · simp [loopState, hzero, copiedNum, hread hzero, Cells.alloc, hold, Nat.ne_of_gt hcut]
    · simp [loopState, hzero, copiedNum, hold]
  · have hzero : d.trimCut e = 0 := by omega
    rw [cutEntry, if_neg (fun hlt => hcut (trimCut_pos.mpr hlt)), cutCounts, if_neg hcut, hzero]
    rfl

lemma keepEntry_eq (e : ReqId × List Token) :
    d.keepEntry (loopState h spec counts cut) e
      = some (loopState h (d.keptSpec spec e) counts cut) := by
  unfold keepEntry keptSpec
  split
  · simp [loopState]
  · rfl

/-- The loop writes to its own dictionaries only. -/
lemma run_trimEntry (hread : cut = 0 → h.nums.read obj.numScheduledTokens = some counts)
    {entries : List (ReqId × List Token)} (hmem : ∀ e ∈ entries, e.1 ∈ counts) :
    Lib.run (d.trimEntry obj) (loopState h spec counts cut) entries
      = some (loopState h (entries.foldl d.keptSpec spec) (entries.foldl d.cutCounts counts)
          (cut + (entries.map d.trimCut).sum)) := by
  induction entries generalizing spec counts cut with
  | nil => rfl
  | cons e entries ih =>
    rw [run_cons, trimEntry, cutEntry_eq hread (hmem e (by simp)), Option.bind_some, keepEntry_eq,
      Option.bind_some, ih, List.foldl_cons, List.foldl_cons, List.map_cons, List.sum_cons, Nat.add_assoc]
    · intro hzero
      have hcut : ¬ d.trimCut e > 0 := by omega
      rw [cutCounts, if_neg hcut]
      exact hread (by omega)
    · exact fun e' he' => mem_cutCounts (hmem e' (List.mem_cons_of_mem e he'))

end loop

/-! ## The result -/

/-- The tokens that a schedule loses. -/
def cutOf (d : AsyncSuffixDrafter) (spec : Map ReqId (List Token)) : ℕ := (spec.items.map d.trimCut).sum

/-- What the result of a trim holds if the trim has cut something. -/
def cutView (d : AsyncSuffixDrafter) (v : OutputView R) (spec : Map ReqId (List Token)) : OutputView R :=
  { v with
    spec := some (spec.items.foldl d.keptSpec ∅)
    num := spec.items.foldl d.cutCounts v.num
    total := v.total - d.cutOf spec }

/-- A trim returns the object that it is given, or a new one that holds the cut schedule. What was on the
heap stays as it was. -/
lemma trimObject_cases (d : AsyncSuffixDrafter) {h : HeapOf R} {so : ℕ} {v : OutputView R}
    (hv : h.view so = some v) (hs : v.Scheduled) :
    ∃ h' so', d.trimObject h so = some (h', so') ∧ h.Extends h' ∧
      ((so' = so ∧ (v.structured = true → h' = h) ∧
          (v.structured = false → ∀ spec, v.spec = some spec → d.cutOf spec = 0)) ∨
        v.structured = false ∧ ∃ spec, v.spec = some spec ∧ d.cutOf spec ≠ 0 ∧
          h'.view so' = some (d.cutView v spec)) := by
  simp only [HeapOf.view, Option.bind_eq_bind, Option.bind_eq_some_iff] at hv
  obtain ⟨obj, hobj, num, hnum, spec, hspec, heq⟩ := hv
  cases heq
  simp only [trimObject, hobj, Option.bind_eq_bind, Option.bind_some]
  cases href : obj.scheduledSpecDecodeTokens with
  | none =>
    rw [href] at hspec
    cases hspec
    exact ⟨h, so, rfl, .refl h, Or.inl ⟨rfl, fun _ => rfl, fun _ _ hspec => by cases hspec⟩⟩
  | some ref =>
    rw [href] at hspec
    obtain ⟨spec, hread, rfl⟩ := Option.map_eq_some_iff.mp hspec
    simp only [hread, Option.bind_some]
    by_cases hskip : (spec.items = [] || obj.hasStructuredOutputRequests) = true
    · rw [if_pos hskip]
      refine ⟨h, so, rfl, .refl h, Or.inl ⟨rfl, fun _ => rfl, fun hplain spec' hspec' => ?_⟩⟩
      cases hspec'
      rw [show obj.hasStructuredOutputRequests = false from hplain] at hskip
      have hnil : spec.items = [] := by simpa using hskip
      rw [cutOf, hnil, List.map_nil, List.sum_nil]
    · rw [if_neg hskip]
      have hplain : obj.hasStructuredOutputRequests = false := by
        by_contra hyes
        exact hskip (by simp [hyes])
      have hmem (e : ReqId × List Token) (he : e ∈ spec.items) : e.1 ∈ num := by
        obtain ⟨n, hn, _⟩ := hs.counted spec rfl e.1 e.2 (Map.mem_items.mp he)
        exact Map.mem_of_lookup hn
      have hloop : Lib.run (d.trimEntry obj) (loopState h ∅ num 0) spec.items
          = some (loopState h (spec.items.foldl d.keptSpec ∅) (spec.items.foldl d.cutCounts num)
            (spec.items.map d.trimCut).sum) := by
        rw [run_trimEntry (fun _ => hnum) hmem, Nat.zero_add]
      have hstart : (({ h with specs := h.specs ++ [∅] } : HeapOf R),
          (TrimLocals.mk h.specs.length none 0)) = loopState h ∅ num 0 := rfl
      simp only [Cells.alloc, hstart, hloop, Option.bind_some]
      by_cases hzero : d.cutOf spec = 0
      · have hcut : (spec.items.map d.trimCut).sum = 0 := hzero
        refine ⟨{ h with specs := h.specs ++ [spec.items.foldl d.keptSpec ∅] }, so, by
          simp [loopState, hcut], ⟨List.prefix_rfl, List.prefix_append _ _, List.prefix_rfl⟩,
          Or.inl ⟨rfl, fun hyes => ?_, fun _ spec' hspec' => ?_⟩⟩
        · rw [show obj.hasStructuredOutputRequests = true from hyes] at hplain
          cases hplain
        · cases hspec'
          exact hzero
      · have hcut : (spec.items.map d.trimCut).sum ≠ 0 := hzero
        let copy : OutputObject R := { obj with
          scheduledSpecDecodeTokens := some h.specs.length
          numScheduledTokens := h.nums.length
          totalNumScheduledTokens := obj.totalNumScheduledTokens - (spec.items.map d.trimCut).sum }
        refine ⟨HeapOf.mk (h.outputs ++ [copy]) (h.specs ++ [spec.items.foldl d.keptSpec ∅])
          (h.nums ++ [spec.items.foldl d.cutCounts num]), h.outputs.length, ?_, ?_,
          Or.inr ⟨hplain, spec, rfl, hzero, ?_⟩⟩
        · simp [loopState, hcut, copy]
        · exact ⟨List.prefix_append _ _, List.prefix_append _ _, List.prefix_append _ _⟩
        · simp [HeapOf.view, HeapOf.drafts, cutView, cutOf, copy]

/-- The new dictionary, filled with the rows that keep a token. -/
lemma foldl_keptSpec (d : AsyncSuffixDrafter) (entries : List (ReqId × List Token))
    (spec : Map ReqId (List Token)) : entries.foldl d.keptSpec spec
      = spec.update ((entries.map fun e => (e.1, e.2.take (d.trimWidth e.1 e.2))).filter
          fun e => e.2 ≠ []) := by
  induction entries generalizing spec with
  | nil => rfl
  | cons e entries ih =>
    have hle := d.trimWidth_le e.1 e.2
    have hempty : e.2.take (d.trimWidth e.1 e.2) = [] ↔ d.trimWidth e.1 e.2 = 0 := by
      rw [← List.length_eq_zero_iff, List.length_take_of_le hle]
    rw [List.foldl_cons, ih, List.map_cons, keptSpec]
    by_cases hzero : d.trimWidth e.1 e.2 = 0
    · rw [if_neg (not_not.mpr hzero), List.filter_cons_of_neg (by simp [hempty.mpr hzero])]
    · rw [if_pos hzero, List.filter_cons_of_pos (by simpa using mt hempty.mp hzero)]
      rfl

/-- The result holds what the functional trim computes. -/
lemma cutView_trim {d : AsyncSuffixDrafter} {v : OutputView R} (hplain : v.structured = false)
    {spec : Map ReqId (List Token)} (hspec : v.spec = some spec) (hcut : d.cutOf spec ≠ 0) :
    (d.cutView v spec).spec = some (Map.update ∅ (d.trim v.output).spec) ∧
      (d.cutView v spec).num = (d.trim v.output).numScheduled ∧
      (d.cutView v spec).total = (d.trim v.output).totalScheduled := by
  have hitems : v.output.spec = spec.items := by rw [OutputView.output, hspec]; rfl
  have hne : spec.items ≠ [] := fun hnil => hcut (by rw [cutOf, hnil]; rfl)
  have hsum : (spec.items.map d.trimCut).sum ≠ 0 := hcut
  have hskip : ¬ (spec.items = [] || v.output.structured) = true := by
    rw [show v.output.structured = false from hplain]
    simpa using hne
  rw [trim, hitems, if_neg hskip]
  dsimp only
  rw [if_neg hsum]
  refine ⟨congrArg some (d.foldl_keptSpec spec.items ∅), ?_, rfl⟩
  rw [List.foldl_filter]
  simp only [cutView, decide_eq_true_eq]
  rfl

/-- The rows of the new dictionary. -/
lemma lookup_keptSpec (d : AsyncSuffixDrafter) (spec : Map ReqId (List Token)) :
    (∀ rid, rid ∉ spec → (spec.items.foldl d.keptSpec ∅).lookup rid = none) ∧
      ∀ rid toks, spec.lookup rid = some toks → (spec.items.foldl d.keptSpec ∅).lookup rid
        = if d.trimWidth rid toks = 0 then none else some (toks.take (d.trimWidth rid toks)) := by
  obtain ⟨hout, hin⟩ := Map.lookup_foldl_of_local (f := d.keptSpec)
    (g := fun e o => if d.trimWidth e.1 e.2 = 0 then o else some (e.2.take (d.trimWidth e.1 e.2)))
    (fun m e k => by
      unfold keptSpec
      by_cases hw : d.trimWidth e.1 e.2 = 0
      · simp [hw]
      · simp [hw, Map.lookup_put]) spec.nodup_keys_items ∅
  refine ⟨fun rid hrid => ?_, fun rid toks hrid => ?_⟩
  · rw [hout rid fun hmem => ?_, AList.lookup_empty]
    obtain ⟨⟨_, toks⟩, he, rfl⟩ := List.mem_map.mp hmem
    exact hrid (Map.mem_of_lookup (Map.mem_items.mp he))
  · rw [hin (rid, toks) (Map.mem_items.mpr hrid), AList.lookup_empty]

/-- The token counts after the loop. -/
lemma lookup_cutCounts (d : AsyncSuffixDrafter) (spec : Map ReqId (List Token)) (num : Map ReqId ℤ) :
    (∀ rid, rid ∉ spec → (spec.items.foldl d.cutCounts num).lookup rid = num.lookup rid) ∧
      ∀ rid toks n, spec.lookup rid = some toks → num.lookup rid = some n →
        (spec.items.foldl d.cutCounts num).lookup rid = some (n - d.trimCut (rid, toks)) := by
  obtain ⟨hout, hin⟩ := Map.lookup_foldl_of_local (f := d.cutCounts)
    (g := fun e o => if d.trimCut e > 0 then some (o.getD 0 - d.trimCut e) else o)
    (fun m e k => by
      unfold cutCounts
      by_cases hcut : d.trimCut e > 0
      · rw [if_pos hcut, Map.lookup_put]
        split
        case isTrue heq => rw [heq]
        case isFalse => rfl
      · rw [if_neg hcut]
        simp [hcut]) spec.nodup_keys_items num
  refine ⟨fun rid hrid => hout rid fun hmem => ?_, fun rid toks n hrid hn => ?_⟩
  · obtain ⟨⟨_, toks⟩, he, rfl⟩ := List.mem_map.mp hmem
    exact hrid (Map.mem_of_lookup (Map.mem_items.mp he))
  · rw [hin (rid, toks) (Map.mem_items.mpr hrid), hn]
    split
    case isTrue => rfl
    case isFalse hzero =>
      rw [show d.trimCut (rid, toks) = 0 by omega]
      simp

/-- The counts lose what the rows lose. -/
lemma total_cutCounts (d : AsyncSuffixDrafter) {entries : List (ReqId × List Token)} {num : Map ReqId ℤ}
    (hmem : ∀ e ∈ entries, e.1 ∈ num) :
    (entries.foldl d.cutCounts num).total = num.total - (entries.map d.trimCut).sum := by
  induction entries generalizing num with
  | nil => simp
  | cons e entries ih =>
    have hstep : (d.cutCounts num e).total = num.total - d.trimCut e := by
      obtain ⟨n, hn⟩ := Map.exists_lookup (hmem e (by simp))
      unfold cutCounts
      split
      case isTrue =>
        rw [Map.total_put hn, hn, Option.getD_some]
        ring
      case isFalse hzero =>
        rw [show d.trimCut e = 0 by omega]
        simp
    rw [List.foldl_cons, ih fun e' he' => mem_cutCounts (hmem e' (List.mem_cons_of_mem e he')), hstep,
      List.map_cons, List.sum_cons]
    push_cast
    ring

/-- What the result of a trim holds, row by row, compared with what the scheduler handed over. -/
structure Trims (d : AsyncSuffixDrafter) (v v' : OutputView R) : Prop where
  total : v'.total = v'.num.total
  structured : v'.structured = v.structured
  rest : v'.rest = v.rest
  rows : v.structured = false → ∀ spec, v.spec = some spec → ∃ spec', v'.spec = some spec' ∧
    (∀ rid, rid ∉ spec → rid ∉ spec') ∧
    ∀ rid toks, spec.lookup rid = some toks →
      spec'.lookup rid = (if d.trimWidth rid toks = 0 ∧ d.cutOf spec ≠ 0 then none
        else some (toks.take (d.trimWidth rid toks))) ∧
      ∃ n, v.num.lookup rid = some n ∧ v'.num.lookup rid = some (n - d.trimCut (rid, toks)) ∧
        1 ≤ n - d.trimCut (rid, toks)
  others : ∀ rid, (∀ spec, v.spec = some spec → rid ∉ spec) → v'.num.lookup rid = v.num.lookup rid

/-- Nothing is cut from a row of a dictionary from which nothing is cut. -/
lemma trimWidth_of_cutOf {d : AsyncSuffixDrafter} {spec : Map ReqId (List Token)} (h : d.cutOf spec = 0)
    {rid : ReqId} {toks : List Token} (hrid : spec.lookup rid = some toks) :
    d.trimCut (rid, toks) = 0 ∧ toks.take (d.trimWidth rid toks) = toks := by
  have hcut : d.trimCut (rid, toks) = 0 :=
    List.sum_eq_zero_iff.mp h _ (List.mem_map_of_mem (Map.mem_items.mpr hrid))
  have hle : toks.length ≤ d.trimWidth rid toks := by
    have hsub : toks.length - d.trimWidth rid toks = 0 := hcut
    omega
  exact ⟨hcut, List.take_of_length_le hle⟩

/-- A schedule from which nothing is cut trims to itself. -/
lemma Trims.refl {d : AsyncSuffixDrafter} {v : OutputView R} (hs : v.Scheduled)
    (h : v.structured = false → ∀ spec, v.spec = some spec → d.cutOf spec = 0) : d.Trims v v where
  total := hs.total
  structured := rfl
  rest := rfl
  rows := fun hplain spec hspec => by
    refine ⟨spec, hspec, fun rid hrid => hrid, fun rid toks hrid => ?_⟩
    obtain ⟨hcut, htake⟩ := trimWidth_of_cutOf (h hplain spec hspec) hrid
    obtain ⟨n, hn, hle⟩ := hs.counted spec hspec rid toks hrid
    refine ⟨?_, n, hn, ?_, ?_⟩
    · rw [if_neg fun hzero => hzero.2 (h hplain spec hspec), htake, hrid]
    · rw [hcut, hn]
      simp
    · rw [hcut]
      omega
  others := fun rid _ => rfl

/-- The cut schedule. -/
lemma trims_cutView {d : AsyncSuffixDrafter} {v : OutputView R} (hs : v.Scheduled)
    {spec : Map ReqId (List Token)} (hspec : v.spec = some spec) (hcut : d.cutOf spec ≠ 0) :
    d.Trims v (d.cutView v spec) where
  total := by
    have hmem (e : ReqId × List Token) (he : e ∈ spec.items) : e.1 ∈ v.num := by
      obtain ⟨n, hn, _⟩ := hs.counted spec hspec e.1 e.2 (Map.mem_items.mp he)
      exact Map.mem_of_lookup hn
    show v.total - d.cutOf spec = (spec.items.foldl d.cutCounts v.num).total
    rw [total_cutCounts d hmem, hs.total]
    rfl
  structured := rfl
  rest := rfl
  rows := fun _ spec' hspec' => by
    rw [hspec] at hspec'
    cases hspec'
    obtain ⟨hout, hin⟩ := d.lookup_keptSpec spec
    refine ⟨_, rfl, fun rid hrid => AList.lookup_eq_none.mp (hout rid hrid), fun rid toks hrid => ?_⟩
    obtain ⟨n, hn, hle⟩ := hs.counted spec hspec rid toks hrid
    have hless : d.trimCut (rid, toks) ≤ toks.length := Nat.sub_le _ _
    refine ⟨?_, n, hn, (d.lookup_cutCounts spec v.num).2 rid toks n hrid hn, by omega⟩
    rw [hin rid toks hrid]
    simp only [hcut, ne_eq, not_false_eq_true, and_true]
  others := fun rid hrid => (d.lookup_cutCounts spec v.num).1 rid (hrid spec hspec)

/-- What a trim leaves is scheduled, and a second trim cuts nothing from it. -/
lemma Trims.again {d : AsyncSuffixDrafter} {v v' : OutputView R} (h : d.Trims v v') (hs : v.Scheduled)
    (hspec : v.structured = false → v.spec = none → v'.spec = none) :
    (v.structured = false → v'.Scheduled) ∧
      (v'.structured = false → ∀ spec, v'.spec = some spec → d.cutOf spec = 0) := by
  have hrow (hplain : v.structured = false) (spec' : Map ReqId (List Token)) (hspec' : v'.spec = some spec')
      (rid : ReqId) (toks' : List Token) (hrid : spec'.lookup rid = some toks') :
      ∃ (toks : List Token) (n : ℤ), toks' = toks.take (d.trimWidth rid toks) ∧
        v'.num.lookup rid = some (n - d.trimCut (rid, toks)) ∧ 1 + toks.length ≤ n := by
    cases hold : v.spec with
    | none =>
      rw [hspec hplain hold] at hspec'
      cases hspec'
    | some spec =>
      obtain ⟨spec'', hspec'', hout, hin⟩ := h.rows hplain spec hold
      rw [hspec'] at hspec''
      cases hspec''
      have hmem : rid ∈ spec := by
        by_contra habsent
        exact hout rid habsent (Map.mem_of_lookup hrid)
      obtain ⟨toks, htoks⟩ := Map.exists_lookup hmem
      obtain ⟨hnew, n, hn, hn', _⟩ := hin rid toks htoks
      obtain ⟨n', hn'', hle⟩ := hs.counted spec hold rid toks htoks
      rw [hn] at hn''
      cases hn''
      rw [hrid] at hnew
      split at hnew
      · cases hnew
      · exact ⟨toks, n, Option.some.inj hnew, hn', hle⟩
  refine ⟨fun hplain => ⟨fun spec' hspec' rid toks' hrid => ?_, h.total⟩,
    fun hplain spec' hspec' => List.sum_eq_zero_iff.mpr fun c hc => ?_⟩
  · obtain ⟨toks, n, rfl, hn', hle⟩ := hrow hplain spec' hspec' rid toks' hrid
    have hw := d.trimWidth_le rid toks
    have hsub : d.trimCut (rid, toks) = toks.length - d.trimWidth rid toks := rfl
    refine ⟨_, hn', ?_⟩
    rw [List.length_take_of_le hw, hsub]
    omega
  · obtain ⟨⟨rid, toks'⟩, he, rfl⟩ := List.mem_map.mp hc
    rw [h.structured] at hplain
    obtain ⟨toks, n, rfl, _, _⟩ := hrow hplain spec' hspec' rid toks' (Map.mem_items.mp he)
    simp only [trimCut, trimWidth, List.length_take]
    omega

/-- The trim of a schedule whose rows are counted. The object that the scheduler keeps, its dictionaries
and everything else on the heap stay as they are. The result counts its tokens right; each row of drafts is
cut to its width, and left out at width zero if anything is cut at all; its count loses the tokens that it
loses and at least one remains. Other requests keep their counts, a batch with structured output is
returned as it is, and a second trim returns the object that the first one has returned. -/
theorem trim_conservative (d : AsyncSuffixDrafter) {h : HeapOf R} {so : ℕ} {v : OutputView R}
    (hv : h.view so = some v) (hs : v.Scheduled) :
    ∃ h' so' v', d.trimObject h so = some (h', so') ∧ h.Extends h' ∧ h'.view so = some v ∧
      h'.view so' = some v' ∧ d.Trims v v' ∧ (v.structured = true → so' = so ∧ h' = h) ∧
      ∃ h'', d.trimObject h' so' = some (h'', so') ∧ h'.Extends h'' := by
  obtain ⟨h', so', hrun, hext, hcases⟩ := d.trimObject_cases hv hs
  have hkept := hext.view hv
  -- a second trim of a schedule from which nothing is cut
  have hsecond {v' : OutputView R} (hv' : h'.view so' = some v') (hs' : v'.Scheduled)
      (hnone : v'.structured = false → ∀ spec, v'.spec = some spec → d.cutOf spec = 0) :
      ∃ h'', d.trimObject h' so' = some (h'', so') ∧ h'.Extends h'' := by
    obtain ⟨h'', so'', hrun', hext', hcases'⟩ := d.trimObject_cases hv' hs'
    rcases hcases' with ⟨rfl, _⟩ | ⟨hplain, spec, hspec, hcut, _⟩
    · exact ⟨h'', hrun', hext'⟩
    · exact absurd (hnone hplain spec hspec) hcut
  rcases hcases with ⟨rfl, hsame, hnone⟩ | ⟨hplain, spec, hspec, hcut, hview⟩
  · exact ⟨h', so', v, hrun, hext, hkept, hkept, .refl hs hnone, fun hyes => ⟨rfl, hsame hyes⟩,
      hsecond hkept hs hnone⟩
  · have htrims := trims_cutView hs hspec hcut
    obtain ⟨hs', hnone⟩ := htrims.again hs fun _ hno => by
      rw [hspec] at hno
      cases hno
    refine ⟨h', so', _, hrun, hext, hkept, hview, htrims, fun hyes => ?_, hsecond hview (hs' hplain) hnone⟩
    rw [hplain] at hyes
    cases hyes

/-- A drafter with a table of widths. -/
def withWidths (widths : Map ReqId ℕ) : AsyncSuffixDrafter where
  k := 1
  proposer := V2SuffixProposer.empty (Config.ofN 1 Nat.one_pos) 3 100 1 false false
    V2SuffixProposer.three_pos
  probabilistic := false
  hybMin := 1
  snap := fun _ => []
  pending := none
  widths
  step := 0

/-- A heap with one scheduler output. -/
def oneOutput (spec : List (ReqId × List Token)) (num : List (ReqId × ℤ)) (total : ℤ) : HeapOf Unit where
  outputs := [⟨some 0, 0, total, false, ()⟩]
  specs := [Map.update ∅ spec]
  nums := [Map.update ∅ num]

/-- What the output of that heap holds. -/
def oneView (spec : List (ReqId × List Token)) (num : List (ReqId × ℤ)) (total : ℤ) : OutputView Unit where
  spec := some (Map.update ∅ spec)
  num := Map.update ∅ num
  total
  structured := false
  rest := ()

lemma oneView_scheduled {spec : List (ReqId × List Token)} {num : List (ReqId × ℤ)} {total : ℤ}
    (hcounted : ∀ e ∈ (Map.update ∅ spec).items, ((Map.update ∅ num).lookup e.1).any fun n : ℤ =>
      1 + e.2.length ≤ n) (htotal : total = (Map.update ∅ num).total) :
    (oneView spec num total).Scheduled where
  counted := fun spec' hspec' rid toks hrid => by
    cases hspec'
    obtain ⟨n, hn, hle⟩ := (Option.any_eq_true _ _).mp (hcounted (rid, toks) (Map.mem_items.mpr hrid))
    exact ⟨n, hn, of_decide_eq_true hle⟩
  total := htotal

/-- Three rows of drafts, of which two are cut, and a request without drafts. -/
theorem trim_conservative_three :
    ∃ h' so' v', (withWidths (Map.update ∅ [("a", 2), ("c", 9)])).trimObject
        (oneOutput [("a", [-1, -1]), ("b", [-1]), ("c", [-1])] [("a", 3), ("b", 2), ("c", 2), ("p", 7)] 14) 0
          = some (h', so') ∧ h'.view so' = some v' ∧
      (withWidths (Map.update ∅ [("a", 2), ("c", 9)])).Trims
        (oneView [("a", [-1, -1]), ("b", [-1]), ("c", [-1])] [("a", 3), ("b", 2), ("c", 2), ("p", 7)] 14)
        v' := by
  have hv : (oneOutput [("a", [-1, -1]), ("b", [-1]), ("c", [-1])]
      [("a", 3), ("b", 2), ("c", 2), ("p", 7)] 14).view 0
        = some (oneView [("a", [-1, -1]), ("b", [-1]), ("c", [-1])]
          [("a", 3), ("b", 2), ("c", 2), ("p", 7)] 14) := rfl
  have hs : (oneView [("a", [-1, -1]), ("b", [-1]), ("c", [-1])]
      [("a", 3), ("b", 2), ("c", 2), ("p", 7)] 14).Scheduled :=
    oneView_scheduled (by decide) rfl
  obtain ⟨h', so', v', hrun, _, _, hview, htrims, _⟩ := trim_conservative
    (withWidths (Map.update ∅ [("a", 2), ("c", 9)])) hv hs
  exact ⟨h', so', v', hrun, hview, htrims⟩

/-- A row without drafts in a batch from which nothing is cut: its width is zero, and it keeps its empty
list. -/
theorem empty_row_stays :
    (oneView [("a", [])] [("a", 1)] 1).Scheduled ∧
      (oneOutput [("a", [])] [("a", 1)] 1).view 0 = some (oneView [("a", [])] [("a", 1)] 1) ∧
      ∃ h' so' v' spec', (withWidths ∅).trimObject (oneOutput [("a", [])] [("a", 1)] 1) 0
          = some (h', so') ∧ h'.view so' = some v' ∧ v'.spec = some spec' ∧
        (withWidths ∅).trimWidth "a" [] = 0 ∧ spec'.lookup "a" = some [] :=
  ⟨oneView_scheduled (by decide) rfl, rfl, _, _, _, _, rfl, rfl, rfl, rfl, rfl⟩

end AsyncSuffixDrafter
end SuffixHybrid
