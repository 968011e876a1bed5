import Mathlib.Algebra.BigOperators.Ring.List
import Mathlib.Algebra.Order.BigOperators.Group.List
import Mathlib.Analysis.SpecialFunctions.Exp
import Mathlib.Analysis.SpecialFunctions.Log.Basic
import Mathlib.Data.List.GetD
import SuffixHybrid.Lib.Except
import SuffixHybrid.Decider.Basic

/-!
# Prompt and answer use the same option order

The option pairs of a question are its keys with their texts, read off the JSON once. Where `options`
succeeds it has these keys and these texts (`options_pairs`); so the lines of the prompt and the
probabilities of the answer speak of the same options in the same order.
-/

namespace SuffixHybrid.Decider
open Lib

variable {N K : Type}

/-! ## The options of a question -/

@[simp] lemma deny_eq_ok {c : Bool} {msg : String} {u : Unit} : deny c msg = .ok u ↔ c = false := by
  cases c with
  | false => simp [deny]
  | true => simp [deny]

@[simp] lemma okOr_eq_ok {α : Type} {o : Option α} {msg : String} {a : α} :
    okOr o msg = .ok a ↔ o = some a := by
  cases o with
  | none => simp [okOr]
  | some b => simp [okOr]

@[simp] lemma object_eq_ok {v : Value N} {name : String} {m : List (String × Value N)} :
    object v name = .ok m ↔ v.asObject = some m := by
  simp [object]

lemma noulCriteria_get {criteria : Option (Value N)} {m : Option (List (String × Value N))}
    (h : noulCriteria criteria = .ok m) (key : String) :
    m.bind (List.lookup key) = criteria.bind fun c => c.get key := by
  cases criteria with
  | none =>
    obtain rfl := pure_eq_ok.1 h
    rfl
  | some v =>
    cases v with
    | null =>
      obtain rfl := pure_eq_ok.1 h
      rfl
    | object values =>
      obtain rfl := pure_eq_ok.1 h
      rfl
    | _ => cases h

section
variable [Serde N]

@[simp] lemma describe_string (s : String) : describe (.string s : Value N) = s := rfl

/-- The option keys of a question, each with the text that stands for it: the keys of a choice in their
order, the indices of a score, false then true. -/
def optionPairs (question : List (String × Value N)) : Option (List (String × String)) :=
  match (question.lookup "type").bind Value.asStr, question.lookup "criteria" with
  | some "choice", some (.object criteria) =>
    some (criteria.map fun e => (e.1, if e.2.isNull then e.1 else e.1 ++ ": " ++ describe e.2))
  | some "score", some (.array criteria) =>
    some (criteria.zipIdx.map fun e => (toString e.2, describe e.1))
  | some "noul", criteria =>
    let given := fun key => (criteria.bind fun c => c.get key).filter truthy
    some [("false", (given "false").elim "No / false" describe),
      ("true", (given "true").elim "Yes / true" describe)]
  | _, _ => none

/-- What an arm of `options` returns for the pairs `ps`. -/
def Listed (ps : List (String × String)) (r : List String × List (Value N)) : Prop :=
  r.1 = ps.map Prod.fst ∧ r.2.map describe = ps.map Prod.snd ∧ 0 < ps.length

lemma choiceOptions_listed {p : Profile} {criteria : Option (Value N)}
    {r : List String × List (Value N)} (h : choiceOptions p criteria = .ok r) :
    ∃ m, criteria = some (.object m) ∧
      Listed (m.map fun e => (e.1, if e.2.isNull then e.1 else e.1 ++ ": " ++ describe e.2)) r := by
  simp only [choiceOptions, bind_eq_ok, pure_eq_ok, okOr_eq_ok, object_eq_ok, deny_eq_ok] at h
  obtain ⟨v, rfl, m, hm, -, hlen, entries, hentries, rfl⟩ := h
  have hmap := mapM_eq_map (g := fun e => (e.1, Value.string (choiceText e.1 e.2))) (by
    intro e d he
    simp only [bind_eq_ok, pure_eq_ok] at he
    obtain ⟨-, -, -, -, hd⟩ := he
    exact hd) hentries
  refine ⟨m, by rw [Value.eq_object hm], ?_, ?_, ?_⟩
  · simp [← hmap]
  · simp [← hmap, choiceText]
  · rw [List.length_map, List.length_pos_iff]
    rintro rfl
    simp at hlen

lemma scoreOptions_listed {p : Profile} {criteria : Option (Value N)}
    {r : List String × List (Value N)} (h : scoreOptions p criteria = .ok r) :
    ∃ l, criteria = some (.array l) ∧
      Listed (l.zipIdx.map fun e => (toString e.2, describe e.1)) r := by
  simp only [scoreOptions, bind_eq_ok, pure_eq_ok, okOr_eq_ok, deny_eq_ok] at h
  obtain ⟨l, hl, -, hlen, -, -, -, -, rfl⟩ := h
  obtain ⟨v, rfl, hv⟩ := Option.bind_eq_some_iff.1 hl
  refine ⟨l, ?_, ?_, ?_, ?_⟩
  · cases v with
    | array values => rw [Option.some.inj hv]
    | _ => cases hv
  · rw [List.range_eq_range', ← List.zipIdx_map_snd, List.map_map, List.map_map]
    rfl
  · rw [← List.zipIdx_map_fst 0 l, List.map_map]
    simp
  · simp only [Bool.or_eq_false_iff, decide_eq_false_iff_not, not_lt] at hlen
    simp only [List.length_map, List.length_zipIdx]
    omega

lemma noulOptions_listed {p : Profile} {criteria : Option (Value N)}
    {r : List String × List (Value N)} (h : noulOptions p criteria = .ok r) :
    let given := fun key => (criteria.bind fun c => c.get key).filter truthy
    Listed [("false", (given "false").elim "No / false" describe),
      ("true", (given "true").elim "Yes / true" describe)] r := by
  intro given
  have hnoul : ∀ {m : Option (List (String × Value N))} (key fallback : String),
      (∀ key, m.bind (List.lookup key) = criteria.bind fun c => c.get key) →
      describe (noulText m key fallback) = (given key).elim fallback describe := by
    intro m key fallback hm
    rw [noulText, hm]
    cases hg : given key with
    | none => simp only [given] at hg; rw [hg]; rfl
    | some v => simp only [given] at hg; rw [hg]; rfl
  simp only [noulOptions, bind_eq_ok, pure_eq_ok] at h
  obtain ⟨m, hm, _, -, rfl⟩ := h
  have hget := noulCriteria_get hm
  refine ⟨rfl, ?_, by simp⟩
  simp [hnoul _ _ hget]

/-- A successful `options` has the keys and the texts of the question's pairs. -/
lemma options_pairs {question : Value N} {p : Profile} {o : Options N}
    (h : options question p = .ok o) :
    ∃ m ps, question.asObject = some m ∧ optionPairs m = some ps ∧ Listed ps (o.keys, o.descriptions) ∧
      (m.lookup "type").bind Value.asStr = some o.kind := by
  simp only [options, bind_eq_ok, pure_eq_ok, okOr_eq_ok, object_eq_ok, deny_eq_ok] at h
  obtain ⟨m, hm, -, -, -, -, kind, hkind, ⟨keys, ds⟩, hr, rfl⟩ := h
  have hpairs : ∃ ps, optionPairs m = some ps ∧ Listed ps (keys, ds) := by
    rw [kindOptions.eq_def] at hr
    split at hr
    · obtain ⟨c, hc, hl⟩ := choiceOptions_listed hr
      exact ⟨_, by simp only [optionPairs, hkind, hc], hl⟩
    · obtain ⟨l, hc, hl⟩ := scoreOptions_listed hr
      exact ⟨_, by simp only [optionPairs, hkind, hc], hl⟩
    · exact ⟨_, by simp only [optionPairs, hkind], noulOptions_listed hr⟩
    · cases hr
  obtain ⟨ps, hps, hl⟩ := hpairs
  exact ⟨m, ps, hm, hps, hl, hkind⟩

end

/-! ## The prompt -/

/-- The lines of the options: each code with its text. -/
def optionLines (codes : List String) (ps : List (String × String)) : List String :=
  List.zipWith (fun code e => code ++ ": " ++ e.2) codes ps

/-- The text of a content: its own, or that of its last item. -/
def contentText : Value N → Option String
  | .string prompt => some prompt
  | .array items => items.getLast?.bind fun item => (item.get "text").bind Value.asStr
  | _ => none

/-- The text of the user message. -/
def userText : Value N → Option String
  | .array [_, .object [_, (_, content)]] => contentText content
  | _ => none

@[simp] lemma userText_messages (p : Profile) (body : List (String × Value N)) (prompt : String) :
    userText (messages p body prompt) = some prompt := by
  have htext : ((textItem prompt : Value N).get "text").bind Value.asStr = some prompt := rfl
  cases p with
  | pplx => exact htext
  | d3 =>
    simp only [messages, userText, userContent]
    by_cases h : mediaCount body "images" + mediaCount body "videos" = 0
    · rw [if_pos h, contentText]
    · rw [if_neg h, contentText, List.getLast?_concat]
      exact htext

/-- Behind the first line every line follows a newline. -/
lemma foldl_lines (lines : List String) (line : String) {k : ℕ} (hk : 0 < k) (prompt : String) :
    ((line :: lines).zipIdx k).foldl (fun prompt (e : String × ℕ) =>
      (if 0 < e.2 then prompt ++ "\n" else prompt) ++ e.1) prompt =
      prompt ++ "\n" ++ "\n".intercalate (line :: lines) := by
  induction lines generalizing line k prompt with
  | nil => simp [hk]
  | cons l lines ih =>
    rw [List.zipIdx_cons, List.foldl_cons, ih l (Nat.succ_pos k), if_pos hk,
      String.intercalate_cons_cons]
    simp only [String.append_assoc]

/-- The loop over the options writes their lines with newlines between them. -/
lemma pushLines_eq (lines : List String) (prompt : String) :
    lines.zipIdx.foldl (fun prompt (e : String × ℕ) =>
      (if 0 < e.2 then prompt ++ "\n" else prompt) ++ e.1) prompt =
      prompt ++ "\n".intercalate lines := by
  cases lines with
  | nil => simp
  | cons line lines =>
    cases lines with
    | nil => simp
    | cons l lines =>
      rw [List.zipIdx_cons, List.foldl_cons, foldl_lines lines l (Nat.succ_pos 0),
        String.intercalate_cons_cons]
      simp [String.append_assoc]

section
variable [Serde N]

lemma pushOptions_eq {codes : List String} {descriptions : List (Value N)}
    {ps : List (String × String)} (hds : descriptions.map describe = ps.map Prod.snd)
    (hlen : ps.length ≤ codes.length) (prompt : String) :
    pushOptions codes descriptions prompt = prompt ++ "\n".intercalate (optionLines codes ps) := by
  have hlines : (optionLines codes ps).zipIdx = descriptions.zipIdx.map fun e =>
      (codes.getD e.2 "" ++ ": " ++ describe e.1, e.2) := by
    have hl := congrArg List.length hds
    simp only [List.length_map] at hl
    apply List.ext_getElem
    · simp only [optionLines, List.length_zipIdx, List.length_zipWith, List.length_map]
      omega
    · intro n hn hn'
      simp only [List.length_map, List.length_zipIdx] at hn'
      have hd : describe descriptions[n] = ps[n].2 := by
        have hget := congrArg (fun l => l[n]?) hds
        simpa [hn', hl ▸ hn'] using hget
      simp [optionLines, hd, List.getElem?_eq_getElem (show n < codes.length by omega)]
  rw [← pushLines_eq, hlines, List.foldl_map]
  rfl

end

/-! ## The probabilities -/

/-- The exponential: positive, strictly monotone, and it turns differences into quotients. -/
structure ExpLaws [Field K] [LinearOrder K] (A : Arith K) : Prop where
  pos : ∀ x, 0 < A.exp x
  mono : StrictMono A.exp
  sub : ∀ x y, A.exp (x - y) = A.exp x / A.exp y

/-- The share of index `j` in the exponentials of `l`. -/
def share [Field K] (A : Arith K) (l : List K) (j : ℕ) : K :=
  A.exp (l.getD j 0) / (l.map A.exp).sum

section
variable [Field K] [LinearOrder K] {A : Arith K}

/-- Subtracting the maximum does not change the softmax. -/
lemma probabilities_eq (laws : ExpLaws A) (l : List K) :
    probabilities A l = l.map fun v => A.exp v / (l.map A.exp).sum := by
  have hM : A.exp (maximum l) ≠ 0 := (laws.pos _).ne'
  have hsum : (l.map fun v => A.exp (v - maximum l)).sum = (l.map A.exp).sum / A.exp (maximum l) := by
    simp only [laws.sub, div_eq_mul_inv]
    rw [List.sum_map_mul_right]
  simp only [probabilities, List.map_map, hsum]
  apply List.map_congr_left
  intro v _
  rw [Function.comp_apply, laws.sub, div_div_div_cancel_right₀ hM]

lemma getD_probabilities (laws : ExpLaws A) {l : List K} {j : ℕ} (hj : j < l.length) :
    (probabilities A l).getD j 0 = share A l j := by
  rw [probabilities_eq laws, List.getD_eq_getElem _ _ (by simpa using hj), List.getElem_map, share,
    List.getD_eq_getElem _ _ hj]

/-- The loop keeps the first index of the greatest value it has seen. -/
lemma bestIndex_spec {ps : List K} (hps : 0 < ps.length) :
    bestIndex ps < ps.length ∧ (∀ j < ps.length, ps.getD j 0 ≤ ps.getD (bestIndex ps) 0) ∧
      ∀ j < bestIndex ps, ps.getD j 0 < ps.getD (bestIndex ps) 0 := by
  suffices ∀ n, let best := (List.range' 1 n).foldl (fun best i =>
        if ps.getD best 0 < ps.getD i 0 then i else best) 0
      best ≤ n ∧ (∀ j ≤ n, ps.getD j 0 ≤ ps.getD best 0) ∧
        ∀ j < best, ps.getD j 0 < ps.getD best 0 by
    obtain ⟨hle, hmax, hfirst⟩ := this (ps.length - 1)
    exact ⟨lt_of_le_of_lt hle (Nat.sub_lt hps Nat.one_pos), fun j hj => hmax j (Nat.le_sub_one_of_lt hj),
      hfirst⟩
  intro n
  induction n with
  | zero => simp
  | succ n ih =>
    obtain ⟨hle, hmax, hfirst⟩ := ih
    rw [List.range'_1_concat, List.foldl_append, List.foldl_cons, List.foldl_nil, Nat.add_comm 1 n]
    set best := (List.range' 1 n).foldl (fun best i =>
      if ps.getD best 0 < ps.getD i 0 then i else best) 0
    by_cases hlt : ps.getD best 0 < ps.getD (n + 1) 0
    · rw [if_pos hlt]
      have hbelow : ∀ j ≤ n, ps.getD j 0 < ps.getD (n + 1) 0 := fun j hj => (hmax j hj).trans_lt hlt
      refine ⟨le_rfl, ?_, fun j hj => hbelow j (Nat.le_of_lt_succ hj)⟩
      intro j hj
      obtain hj | rfl := Nat.le_succ_iff.1 hj
      · exact (hbelow j hj).le
      · exact le_rfl
    · rw [if_neg hlt]
      refine ⟨Nat.le_succ_of_le hle, ?_, hfirst⟩
      intro j hj
      obtain hj | rfl := Nat.le_succ_iff.1 hj
      · exact hmax j hj
      · exact not_lt.1 hlt

end

/-! ## Prompt and answer -/

section
variable [Serde N]

/-- The row of a question: its prompt has the lines of the question's options and nothing else between
the head and the tail. -/
def RowOf (p : Profile) (body : List (String × Value N)) (codes : List String) (question : Value N)
    (row : Row N) : Prop :=
  ∃ m ps, question.asObject = some m ∧ optionPairs m = some ps ∧ ps.length ≤ codes.length ∧
    row.optionCount = ps.length ∧
    userText row.messages =
      some (promptHead p body m ++ "\n".intercalate (optionLines codes ps) ++ promptTail p)

/-- Under every key its share of the exponentials. -/
def Shares [Field K] (A : Arith K) (l : List K) (ps : List (String × String))
    (distribution : List (String × K)) : Prop :=
  distribution.map Prod.fst = ps.map Prod.fst ∧
    ∀ j key text, ps[j]? = some (key, text) → distribution.lookup key = some (share A l j)

/-- The decision of a question over its scaled logits `l`. -/
def Decides [Field K] [LinearOrder K] (A : Arith K) (l : List K) (ps : List (String × String))
    (kind : String) : Decision N K → Prop
  | .noul q => kind = "noul" ∧ q = share A l 1
  | .choice key distribution _ => kind = "choice" ∧ Shares A l ps distribution ∧
    ∃ b text, ps[b]? = some (key, text) ∧ (∀ j < ps.length, l.getD j 0 ≤ l.getD b 0) ∧
      ∀ j < b, l.getD j 0 < l.getD b 0
  | .score _ distribution _ _ => kind = "score" ∧ Shares A l ps distribution

/-- The decision of a question is over the options of its prompt, in their order. -/
def DecisionOf [Field K] [LinearOrder K] (A : Arith K) (temperature : K) (question : Value N)
    (logits : List K) (d : Decision N K) : Prop :=
  ∃ m ps kind, question.asObject = some m ∧ optionPairs m = some ps ∧
    (m.lookup "type").bind Value.asStr = some kind ∧ ps.length ≤ logits.length ∧
    Decides A (scaledLogits A temperature ps.length logits) ps kind d

lemma toString_injective : Function.Injective (toString : ℕ → String) := by
  intro i j h
  have hdigits : Nat.toDigits 10 i = Nat.toDigits 10 j := by
    simpa only [Nat.toString_eq_repr, Nat.toList_repr] using congrArg String.toList h
  rw [← Nat.ofDigitChars_ten_toDigits (n := i), hdigits, Nat.ofDigitChars_ten_toDigits]

/-- The keys of the options are distinct. -/
lemma nodup_optionPairs {m : List (String × Value N)} (hm : (Value.object m).Distinct)
    {ps : List (String × String)} (h : optionPairs m = some ps) : (ps.map Prod.fst).Nodup := by
  rw [optionPairs] at h
  split at h
  · next criteria _ hc =>
    obtain rfl := Option.some.inj h
    have hkeys := (hm.lookup rfl hc).keys rfl
    rwa [List.map_map]
  · next criteria _ hc =>
    obtain rfl := Option.some.inj h
    have hkeys : (criteria.zipIdx.map fun e => (toString e.2, describe e.1)).map Prod.fst =
        (criteria.zipIdx.map Prod.snd).map toString := by
      rw [List.map_map, List.map_map]
      rfl
    rw [hkeys, List.zipIdx_map_snd]
    exact List.Nodup.map toString_injective List.nodup_range'
  · obtain rfl := Option.some.inj h
    simp
  · cases h

lemma prepareRow_rowOf {p : Profile} {body : List (String × Value N)} {codes : List String}
    {question : Value N} {row : Row N} (h : prepareRow p body codes question = .ok row) :
    RowOf p body codes question row := by
  simp only [prepareRow, bind_eq_ok, pure_eq_ok, deny_eq_ok, decide_eq_false_iff_not, not_lt] at h
  obtain ⟨o, ho, -, hlen, rfl⟩ := h
  obtain ⟨m, ps, hm, hps, ⟨hkeys, hds, -⟩, -⟩ := options_pairs ho
  simp only at hkeys hds
  rw [hkeys, List.length_map] at hlen
  refine ⟨m, ps, hm, hps, hlen, ?_, ?_⟩
  · rw [hkeys, List.length_map]
  · rw [userText_messages, pushOptions_eq hds hlen, hm]
    rfl

/-- The distribution of the probabilities over the keys. -/
lemma shares_collect [Field K] [LinearOrder K] {A : Arith K} (laws : ExpLaws A) {l : List K}
    {ps : List (String × String)} (hl : l.length = ps.length) (hps : (ps.map Prod.fst).Nodup) :
    Shares A l ps (collect ((ps.map Prod.fst).zip (probabilities A l))) := by
  have hlen : (probabilities A l).length = ps.length := by
    rw [probabilities_eq laws, List.length_map, hl]
  have hfst : ((ps.map Prod.fst).zip (probabilities A l)).map Prod.fst = ps.map Prod.fst := by
    rw [List.map_fst_zip]
    rw [List.length_map, hlen]
  rw [collect_of_nodup (by rwa [hfst])]
  refine ⟨hfst, ?_⟩
  intro j key text hj
  have hmem : (key, share A l j) ∈ (ps.map Prod.fst).zip (probabilities A l) := by
    obtain ⟨hlt, hget⟩ := List.getElem?_eq_some_iff.1 hj
    have hshare := getD_probabilities laws (hl ▸ hlt)
    rw [List.getD_eq_getElem _ _ (hlen ▸ hlt)] at hshare
    rw [List.mem_iff_getElem]
    refine ⟨j, by simpa [hlen] using hlt, ?_⟩
    simp [hget, hshare]
  exact lookup_of_mem (by rwa [hfst]) hmem

/-- The choice is the first key with the largest scaled logit. -/
lemma best_first [Field K] [LinearOrder K] [IsStrictOrderedRing K] {A : Arith K} (laws : ExpLaws A)
    {l : List K} {ps : List (String × String)} (hl : l.length = ps.length) (hpos : 0 < ps.length) :
    ∃ b text, ps[b]? = some ((ps.map Prod.fst).getD (bestIndex (probabilities A l)) "", text) ∧
      (∀ j < ps.length, l.getD j 0 ≤ l.getD b 0) ∧ ∀ j < b, l.getD j 0 < l.getD b 0 := by
  have hlen : (probabilities A l).length = ps.length := by
    rw [probabilities_eq laws, List.length_map, hl]
  obtain ⟨hb, hmax, hfirst⟩ := bestIndex_spec (hlen ▸ hpos)
  set b := bestIndex (probabilities A l)
  rw [hlen] at hb hmax
  have hsum : 0 < (l.map A.exp).sum := by
    apply List.sum_pos
    · intro x hx
      obtain ⟨v, -, rfl⟩ := List.mem_map.1 hx
      exact laws.pos v
    · rw [ne_eq, List.map_eq_nil_iff, ← List.length_eq_zero_iff]
      omega
  have hlt : ∀ {i j}, i < ps.length → j < ps.length →
      ((probabilities A l).getD i 0 < (probabilities A l).getD j 0 ↔ l.getD i 0 < l.getD j 0) := by
    intro i j hi hj
    rw [getD_probabilities laws (hl ▸ hi), getD_probabilities laws (hl ▸ hj), share, share,
      div_lt_div_iff_of_pos_right hsum, laws.mono.lt_iff_lt]
  refine ⟨b, (ps[b]).2, ?_, ?_, ?_⟩
  · simp [hb]
  · intro j hj
    exact not_lt.1 fun h => not_lt.2 (hmax j hj) ((hlt hb hj).2 h)
  · intro j hj
    exact (hlt (hj.trans hb) hb).1 (hfirst j hj)

/-- The decision over the probabilities of the scaled logits. -/
lemma decision_decides [Field K] [LinearOrder K] [IsStrictOrderedRing K] {A : Arith K}
    (laws : ExpLaws A) {p : Profile} {question : List (String × Value N)} {o : Options N} {l : List K}
    {ps : List (String × String)} (hl : l.length = ps.length) (hpos : 0 < ps.length)
    (hps : (ps.map Prod.fst).Nodup) (hkeys : o.keys = ps.map Prod.fst)
    (hpairs : optionPairs question = some ps)
    (hkind : (question.lookup "type").bind Value.asStr = some o.kind) :
    Decides A l ps o.kind (decision A p question o (probabilities A l)) := by
  have hshares := shares_collect laws hl hps
  obtain ⟨kind, keys, ds⟩ := o
  simp only at hkeys hkind
  subst hkeys
  rw [optionPairs, hkind] at hpairs
  split at hpairs
  · next hc _ =>
    obtain rfl := Option.some.inj hc
    cases p <;> exact ⟨rfl, hshares, best_first laws hl hpos⟩
  · next hc _ =>
    obtain rfl := Option.some.inj hc
    cases p <;> exact ⟨rfl, hshares⟩
  · next hc =>
    obtain rfl := Option.some.inj hc
    obtain rfl := Option.some.inj hpairs
    have hnoul := getD_probabilities laws (show 1 < l.length by rw [hl]; simp)
    cases p <;> exact ⟨rfl, hnoul⟩
  · cases hpairs

lemma answerRow_decisionOf [Field K] [LinearOrder K] [IsStrictOrderedRing K] {A : Arith K} (laws : ExpLaws A)
    {temperature : K} {p : Profile} {question : Value N} (hq : question.Distinct) {logits : List K}
    {d : Decision N K} (h : answerRow A temperature p question logits = .ok d) :
    DecisionOf A temperature question logits d := by
  simp only [answerRow, bind_eq_ok, pure_eq_ok, deny_eq_ok, Bool.or_eq_false_iff,
    decide_eq_false_iff_not, not_lt] at h
  obtain ⟨o, ho, -, ⟨⟨hlen, -⟩, -⟩, -, -, rfl⟩ := h
  obtain ⟨m, ps, hm, hps, ⟨hkeys, -, hpos⟩, hkind⟩ := options_pairs ho
  have hnodup := nodup_optionPairs (Value.eq_object hm ▸ hq) hps
  simp only at hkeys
  rw [hkeys, List.length_map] at hlen
  have hscaled : (scaledLogits A temperature ps.length logits).length = ps.length := by
    rw [scaledLogits, List.length_map, List.length_take_of_le hlen]
  refine ⟨m, ps, o.kind, hm, hps, hkind, hlen, ?_⟩
  rw [hm, hkeys, List.length_map]
  exact decision_decides laws hscaled hpos hnodup hkeys hps hkind

/-- What a valid request holds: an object with questions, each of them well formed. -/
lemma request_questions {v : Value N} (hv : v.Distinct) {p : Profile}
    {body : List (String × Value N)} (h : request v p = .ok body) :
    v.asObject = some body ∧ ∃ qs, body.lookup "questions" = some (.object qs) ∧
      questionsOf body = qs ∧ (qs.map Prod.fst).Nodup ∧ ∀ e ∈ qs, e.2.Distinct := by
  simp only [request, bind_eq_ok, pure_eq_ok, okOr_eq_ok, object_eq_ok] at h
  obtain ⟨m, hm, -, -, -, -, -, -, -, -, -, -, q, hq, qs, hqs, -, -, -, -, rfl⟩ := h
  have hdq := hv.lookup hm hq
  refine ⟨hm, qs, by rw [hq, Value.eq_object hqs], ?_, hdq.keys hqs, hdq.values hqs⟩
  rw [questionsOf, hq, Option.bind_some, hqs, Option.getD_some]

lemma answers_decisionOf [Field K] [LinearOrder K] [IsStrictOrderedRing K] {A : Arith K}
    (laws : ExpLaws A) {parser : Parser N K} {bodyJson logitsJson name : String} {temperature : K}
    {res : Response N K} {p : Profile} (hp : profile name = .ok p) {v : Value N}
    {hv : v.Distinct} (hvalue : parser.value bodyJson = .ok ⟨v, hv⟩) {body qs : List (String × Value N)}
    (hbody : v.asObject = some body) (hqs : body.lookup "questions" = some (.object qs))
    (h : answer A parser bodyJson logitsJson temperature name = .ok res) :
    ∃ rows, parser.logits logitsJson = .ok rows ∧ rows.length = qs.length ∧
      res.answers.map Prod.fst = qs.map Prod.fst ∧
      List.Forall₂ (fun e a => DecisionOf A temperature e.1.2 e.2 a.2) (qs.zip rows) res.answers := by
  simp only [answer, bind_eq_ok, pure_eq_ok, deny_eq_ok, hp, hvalue, Except.ok.injEq, mapM_eq_ok,
    decide_eq_false_iff_not, not_not] at h
  obtain ⟨_, rfl, -, -, _, rfl, body', hreq, rows, hrows, -, hlen, answers, hans, rfl⟩ := h
  obtain ⟨hbody', qs', hqs', hof, hnodup, hdistinct⟩ := request_questions hv hreq
  obtain rfl := Option.some.inj (hbody.symm.trans hbody')
  obtain rfl := Value.object.inj (Option.some.inj (hqs.symm.trans hqs'))
  rw [hof] at hlen hans
  have hkeys : answers.map Prod.fst = qs.map Prod.fst := by
    have hzip : ((qs.zip rows).map Prod.fst).map Prod.fst = answers.map Prod.fst := by
      rw [List.map_map, ← List.forall₂_eq_eq_eq, List.forall₂_map_left_iff,
        List.forall₂_map_right_iff]
      refine hans.imp ?_
      rintro e a ⟨d, -, rfl⟩
      rfl
    rw [← hzip, List.map_fst_zip hlen.ge]
  have hmem : ∀ e ∈ qs.zip rows, e.1.2.Distinct := fun e he => hdistinct _ (List.of_mem_zip he).1
  rw [collect_of_nodup (hkeys ▸ hnodup)]
  refine ⟨rows, hrows, hlen, hkeys, ?_⟩
  refine ((List.forall₂_and_left _ _).2 ⟨hmem, hans⟩).imp ?_
  rintro e a ⟨hd, d, hrow, rfl⟩
  exact answerRow_decisionOf laws hd hrow

/-- Prompt and answer use the same option order. -/
theorem option_order [Field K] [LinearOrder K] [IsStrictOrderedRing K] {A : Arith K}
    (laws : ExpLaws A) {parser : Parser N K} {bodyJson codesJson name : String} {out : Prepared N}
    (hprep : prepare parser bodyJson codesJson name = .ok out) :
    ∃ p v body qs codes, profile name = .ok p ∧ parser.value bodyJson = .ok v ∧
      v.1.asObject = some body ∧ body.lookup "questions" = some (.object qs) ∧
      parser.codes codesJson = .ok codes ∧
      out.identifiers = qs.map Prod.fst ∧
      List.Forall₂ (fun e row => RowOf p body codes e.2 row) qs out.rows ∧
      ∀ {logitsJson temperature res}, answer A parser bodyJson logitsJson temperature name = .ok res →
        ∃ rows, parser.logits logitsJson = .ok rows ∧ rows.length = qs.length ∧
          res.answers.map Prod.fst = out.identifiers ∧
          List.Forall₂ (fun e a => DecisionOf A temperature e.1.2 e.2 a.2) (qs.zip rows)
            res.answers := by
  have h := hprep
  simp only [prepare, bind_eq_ok, pure_eq_ok, deny_eq_ok] at h
  obtain ⟨p, hp, v, hv, body, hreq, codes, hcodes, -, -, rows, hrows, rfl⟩ := h
  obtain ⟨hbody, qs, hqs, hof, -, -⟩ := request_questions v.2 hreq
  rw [hof] at hrows
  refine ⟨p, v, body, qs, codes, hp, hv, hbody, hqs, hcodes, by rw [hof], ?_, ?_⟩
  · exact (mapM_eq_ok.1 hrows).imp fun _ _ => prepareRow_rowOf
  · intro logitsJson temperature res hres
    rw [hof]
    exact answers_decisionOf laws hp hv hbody hqs hres

end

/-! ## A run -/

section

/-- Numbers that are never floats. -/
instance textOnly : Serde ℕ where
  F64 := Unit
  quote := fun s => "\"" ++ s ++ "\""
  text := toString
  isF64 := fun _ => false
  asF64 := fun _ => none
  isZero := fun _ => true
  isExtreme := fun _ => false
  display := fun _ => ""
  lowerExp := fun _ => ("", 0)

/-- A choice of which the second option has no text. -/
def routeQuestion : Value ℕ :=
  .object [("type", .string "choice"),
    ("criteria", .object [("second", .string "billing"), ("first", .null)])]

/-- A request with one question. -/
def routeRequest : Value ℕ :=
  .object [("model", .string "decider"), ("state", .string "paid twice"),
    ("questions", .object [("route", routeQuestion)])]

lemma routeRequest_distinct : routeRequest.Distinct := by
  refine .object (by simp) ?_
  simp only [List.mem_cons, List.not_mem_nil, or_false, forall_eq_or_imp, forall_eq]
  refine ⟨.string, .string, .object (by simp) ?_⟩
  simp only [List.mem_cons, List.not_mem_nil, or_false, forall_eq]
  refine .object (by simp) ?_
  simp only [List.mem_cons, List.not_mem_nil, or_false, forall_eq_or_imp, forall_eq]
  refine ⟨.string, .object (by simp) ?_⟩
  simp only [List.mem_cons, List.not_mem_nil, or_false, forall_eq_or_imp, forall_eq]
  exact ⟨.string, .null⟩

/-- The parser on the texts of the run. -/
def routeParser : Parser ℕ ℝ where
  value := fun s => if s = "body" then .ok ⟨routeRequest, routeRequest_distinct⟩ else .error s
  codes := fun s => if s = "codes" then .ok ["A", "B", "C"] else .error s
  logits := fun s => if s = "logits" then .ok [[0, 5000, 9999]] else .error s

/-- Exact arithmetic. -/
noncomputable def realArith : Arith ℝ := ⟨Real.exp, Real.log, id, fun _ => true⟩

lemma realArith_laws : ExpLaws realArith :=
  ⟨Real.exp_pos, Real.exp_strictMono, Real.exp_sub⟩

/-- The request is prepared and answered, under one identifier. -/
theorem option_order_route : ∃ out res,
    prepare routeParser "body" "codes" "pplx" = .ok out ∧
      answer realArith routeParser "body" "logits" 2 "pplx" = .ok res ∧
      res.answers.map Prod.fst = out.identifiers := by
  obtain ⟨out, hout⟩ : ∃ out, prepare routeParser "body" "codes" "pplx" = .ok out := ⟨_, rfl⟩
  obtain ⟨res, hres⟩ : ∃ res, answer realArith routeParser "body" "logits" 2 "pplx" = .ok res := by
    have htemp : (!realArith.isFinite 2 || decide ((2 : ℝ) ≤ 0)) = false := by
      simp [realArith]
    have hrow : ∃ d, answerRow realArith 2 .pplx routeQuestion [0, 5000, 9999] = .ok d := ⟨_, rfl⟩
    obtain ⟨d, hd⟩ := hrow
    refine ⟨_, bind_eq_ok.2 ⟨.pplx, rfl, bind_eq_ok.2 ⟨(), deny_eq_ok.2 htemp, bind_eq_ok.2
      ⟨⟨routeRequest, routeRequest_distinct⟩, rfl, bind_eq_ok.2 ⟨_, rfl, bind_eq_ok.2
        ⟨[[0, 5000, 9999]], rfl, bind_eq_ok.2 ⟨(), rfl, bind_eq_ok.2 ⟨[("route", d)], ?_, rfl⟩⟩⟩⟩⟩⟩⟩⟩
    exact mapM_eq_ok.2 (.cons (bind_eq_ok.2 ⟨d, hd, rfl⟩) .nil)
  obtain ⟨_, _, _, _, _, _, _, _, _, _, _, _, hans⟩ := option_order realArith_laws hout
  obtain ⟨_, _, _, hkeys, _⟩ := hans hres
  exact ⟨out, res, hout, hres, hkeys⟩

end

end SuffixHybrid.Decider
