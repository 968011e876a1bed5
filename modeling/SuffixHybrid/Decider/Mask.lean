import SuffixHybrid.Decider.Floats

/-!
# Answers depend on their own candidates only

The rows of the head behind the candidates of a question are masked: whatever the operations of the machine are, a
decision is a function of the first logits of its own row. In exact arithmetic adding a constant to all of them
changes nothing, since the softmax subtracts the greatest.
-/

namespace SuffixHybrid.Decider
open Lib

variable {N K : Type} [Serde N]

/-! ## Rows -/

section
variable [F64 K]

/-- A row of logits that is accepted for `n` options. -/
def RowOk (n : ℕ) (row : List K) : Prop := n ≤ row.length ∧ row.length ≤ 255 ∧ ∀ v ∈ row, F64.isFinite v = true

/-- Rows that are accepted for the questions: one for each. -/
def Accepted (p : Profile) (qs : List (String × Value N)) (rows : List (List K)) : Prop :=
  rows.length = qs.length ∧ ∀ (i : ℕ) q row o, qs[i]? = some q → rows[i]? = some row → options q.2 p = .ok o →
    RowOk o.keys.length row

end

/-- A relation of the candidates of one row and those of another. -/
def Candidates (r : List K → List K → Prop) (p : Profile) (qs : List (String × Value N)) (rows rows' : List (List K))
    (i : ℕ) : Prop :=
  ∀ q row row' o, qs[i]? = some q → rows[i]? = some row → rows'[i]? = some row' → options q.2 p = .ok o →
    r (row.take o.keys.length) (row'.take o.keys.length)

/-! ## Masking -/

section
variable [F64 K]

/-- The checks of a row that is accepted. -/
lemma RowOk.check {n : ℕ} {row : List K} (h : RowOk n row) :
    (decide (row.length < n) || decide (255 < row.length) || row.any fun v => !F64.isFinite v) = false := by
  obtain ⟨hn, hmax, hfinite⟩ := h
  have hany : (row.any fun v => !F64.isFinite v) = false := by
    rw [List.any_eq_false]
    intro v hv
    rw [hfinite v hv]
    decide
  rw [hany, decide_eq_false (Nat.not_lt.mpr hn), decide_eq_false (Nat.not_lt.mpr hmax)]
  rfl

/-- The answer to a question whose row is accepted. -/
lemma answerRow_eq {temperature : K} {p : Profile} {question : Value N} {row : List K} {o : Options N}
    (ho : options question p = .ok o) (hrow : RowOk o.keys.length row) :
    F64.answerRow temperature p question row = (do
      deny ((F64.scaledLogits temperature o.keys.length row).any fun v => !F64.isFinite v) "scaled logits overflowed"
      pure (F64.decision p (question.asObject.getD []) o
        (F64.probabilities (F64.scaledLogits temperature o.keys.length row)))) := by
  unfold F64.answerRow
  rw [ho]
  dsimp only [bind, Except.bind]
  rw [hrow.check]
  rfl

/-- A decision is one of the candidates of its row. -/
lemma answerRow_congr {temperature : K} {p : Profile} {qs : List (String × Value N)} {rows rows' : List (List K)}
    (hrows : Accepted p qs rows) (hrows' : Accepted p qs rows') {i : ℕ} (hi : Candidates (· = ·) p qs rows rows' i)
    {q : String × Value N} {row row' : List K} (hq : qs[i]? = some q) (hrow : rows[i]? = some row)
    (hrow' : rows'[i]? = some row') :
    F64.answerRow temperature p q.2 row = F64.answerRow temperature p q.2 row' := by
  cases ho : options q.2 p with
  | error e =>
    unfold F64.answerRow
    rw [ho]
    rfl
  | ok o =>
    have htake := hi q row row' o hq hrow hrow' ho
    have hscaled : F64.scaledLogits temperature o.keys.length row = F64.scaledLogits temperature o.keys.length row' := by
      rw [F64.scaledLogits, F64.scaledLogits, htake]
    rw [answerRow_eq ho (hrows.2 i q row o hq hrow ho), answerRow_eq ho (hrows'.2 i q row' o hq hrow' ho), hscaled]

section
variable {parser : Parser N K} {bodyJson name lj lj' : String} {temperature : K} {p : Profile}
variable (hp : profile name = .ok p) {v : { v : Value N // v.Distinct }} (hv : parser.value bodyJson = .ok v)
variable {body : List (String × Value N)} (hbody : request v.1 p = .ok body) {rows rows' : List (List K)}
variable (hrows : parser.logits lj = .ok rows) (hlen : rows.length = (questionsOf body).length)
include hp hv hbody hrows hlen

/-- The answer to a valid body. -/
lemma answer_eq : F64.answer parser bodyJson lj temperature name = (do
    deny (!F64.isFinite temperature || !decide (0 < temperature)) "temperature must be positive and finite"
    let answers ← ((questionsOf body).zip rows).mapM fun e => do
      let d ← F64.answerRow temperature p e.1.2 e.2
      pure (e.1.1, d)
    pure ⟨body.lookup "model", collect answers⟩) := by
  unfold F64.answer
  rw [hp, hv]
  dsimp only [bind, Except.bind]
  rw [hbody, hrows]
  dsimp only
  rw [hlen]
  cases (deny (!F64.isFinite temperature || !decide (0 < temperature)) "temperature must be positive and finite") with
  | error e => rfl
  | ok u =>
    dsimp only
    rw [decide_eq_false (not_not.mpr rfl)]
    rfl

/-- The answers, one for each question, under their identifiers. -/
lemma answers_of_ok {res : Response N K} (h : F64.answer parser bodyJson lj temperature name = .ok res) :
    res.model = body.lookup "model" ∧ res.answers.map Prod.fst = (questionsOf body).map Prod.fst ∧
      ∀ (i : ℕ) q row, (questionsOf body)[i]? = some q → rows[i]? = some row →
        ∃ d, F64.answerRow temperature p q.2 row = .ok d ∧ res.answers[i]? = some (q.1, d) := by
  rw [answer_eq hp hv hbody hrows hlen] at h
  simp only [bind_eq_ok, pure_eq_ok, mapM_eq_ok] at h
  obtain ⟨-, -, answers, hans, rfl⟩ := h
  have hpair (j : ℕ) (q : String × Value N) (row : List K) (hq : (questionsOf body)[j]? = some q)
      (hrow : rows[j]? = some row) :
      ∃ d, F64.answerRow temperature p q.2 row = .ok d ∧ answers[j]? = some (q.1, d) := by
    obtain ⟨hj, hget⟩ := List.getElem?_eq_some_iff.mp ((List.getElem?_zip_eq_some (z := (q, row))).mpr ⟨hq, hrow⟩)
    have hj' : j < answers.length := hans.length_eq ▸ hj
    obtain ⟨d, hd, ha⟩ := hans.get hj hj'
    rw [List.get_eq_getElem, hget] at hd ha
    refine ⟨d, hd, ?_⟩
    rw [List.getElem?_eq_getElem hj', ha]
    rfl
  have hsize : answers.length = (questionsOf body).length := by
    rw [← hans.length_eq, List.length_zip, hlen, min_self]
  have hkeys : answers.map Prod.fst = (questionsOf body).map Prod.fst := by
    refine List.ext_getElem? fun j => ?_
    rw [List.getElem?_map, List.getElem?_map]
    by_cases hj : j < (questionsOf body).length
    · obtain ⟨d, -, ha⟩ := hpair j _ _ (List.getElem?_eq_getElem hj) (List.getElem?_eq_getElem (hlen ▸ hj))
      rw [ha, List.getElem?_eq_getElem hj]
      rfl
    · rw [List.getElem?_eq_none (not_lt.mp hj), List.getElem?_eq_none (hsize ▸ not_lt.mp hj)]
      rfl
  obtain ⟨-, qs, -, hqs, hnodup, -⟩ := request_questions v.2 hbody
  rw [← hqs] at hnodup
  rw [collect_of_nodup (hkeys ▸ hnodup)]
  exact ⟨rfl, hkeys, hpair⟩

end

/-- Equal candidates, equal answers. -/
lemma answer_congr {parser : Parser N K} {bodyJson name lj lj' : String} {temperature : K} {p : Profile}
    (hp : profile name = .ok p) {v : { v : Value N // v.Distinct }} (hv : parser.value bodyJson = .ok v)
    {body : List (String × Value N)} (hbody : request v.1 p = .ok body) {rows rows' : List (List K)}
    (hrows : parser.logits lj = .ok rows) (hrows' : parser.logits lj' = .ok rows')
    (hlen : rows.length = (questionsOf body).length) (hlen' : rows'.length = (questionsOf body).length)
    (hsame : ∀ (i : ℕ) q row row', (questionsOf body)[i]? = some q → rows[i]? = some row → rows'[i]? = some row' →
      F64.answerRow temperature p q.2 row = F64.answerRow temperature p q.2 row') :
    F64.answer parser bodyJson lj temperature name = F64.answer parser bodyJson lj' temperature name := by
  rw [answer_eq hp hv hbody hrows hlen, answer_eq hp hv hbody hrows' hlen']
  have hans := mapM_zip_congr (f := fun e : (String × Value N) × List K => do
    let d ← F64.answerRow temperature p e.1.2 e.2
    pure (e.1.1, d)) (hlen.trans hlen'.symm) fun i q row row' hq hrow hrow' => by
      dsimp only
      rw [hsame i q row row' hq hrow hrow']
  rw [hans]

omit [Serde N] [F64 K] in
/-- A lookup of a key whose entries agree. -/
lemma lookup_congr {α : Type} {l l' : List (String × α)} (hkeys : l.map Prod.fst = l'.map Prod.fst) {key : String}
    (h : ∀ j : ℕ, (l.map Prod.fst)[j]? = some key → l[j]? = l'[j]?) : l.lookup key = l'.lookup key := by
  induction l generalizing l' with
  | nil =>
    cases l' with
    | nil => rfl
    | cons e' l' => cases hkeys
  | cons e l ih =>
    cases l' with
    | nil => cases hkeys
    | cons e' l' =>
      obtain ⟨k, a⟩ := e
      obtain ⟨k', a'⟩ := e'
      obtain ⟨hk, hrest⟩ := List.cons.inj hkeys
      dsimp only at hk
      subst hk
      have htail := ih hrest fun j hj => h (j + 1) hj
      by_cases hkey : key = k
      · subst hkey
        have he : some (key, a) = some (key, a') := h 0 rfl
        cases he
        rw [List.lookup_cons_self, List.lookup_cons_self]
      · rw [List.lookup_cons, List.lookup_cons, beq_eq_false_iff_ne.mpr hkey]
        exact htail

end

/-! ## Exact arithmetic -/

section
variable [Field K] [LinearOrder K] [IsStrictOrderedRing K]

lemma maximum_add {l : List K} (hl : l ≠ []) (c : K) : maximum (l.map (· + c)) = maximum l + c := by
  obtain ⟨v, vs, rfl⟩ := List.exists_cons_of_ne_nil hl
  rw [List.map_cons, maximum, maximum]
  clear hl
  induction vs generalizing v with
  | nil => rfl
  | cons w vs ih => rw [List.map_cons, List.foldl_cons, List.foldl_cons, max_add_add_right, ih]

/-- The softmax does not see a constant. -/
lemma probabilities_add (A : Arith K) (l : List K) (c : K) : probabilities A (l.map (· + c)) = probabilities A l := by
  by_cases hl : l = []
  · rw [hl]
    rfl
  · have hexps : (l.map (· + c)).map (fun v => A.exp (v - maximum (l.map (· + c)))) =
        l.map fun v => A.exp (v - maximum l) := by
      rw [List.map_map, maximum_add hl]
      refine List.map_congr_left fun v _ => ?_
      rw [Function.comp_apply, add_sub_add_right_eq_sub]
    rw [probabilities, probabilities, hexps]

/-- Exact arithmetic: no cast rounds, and every number is finite. -/
def exactArith (exp ln : K → K) : Arith K := ⟨exp, ln, id, fun _ => true⟩

omit [IsStrictOrderedRing K] in
/-- The answer to a question in exact arithmetic. -/
lemma answerRow_exactArith (exp ln : K → K) {temperature : K} {p : Profile} {question : Value N} {row : List K}
    {o : Options N} (ho : options question p = .ok o) (hlen : o.keys.length ≤ row.length) (hmax : row.length ≤ 255) :
    answerRow (exactArith exp ln) temperature p question row =
      .ok (decision (exactArith exp ln) p (question.asObject.getD []) o
        (probabilities (exactArith exp ln) (scaledLogits (exactArith exp ln) temperature o.keys.length row))) := by
  have hfinite (l : List K) : (l.any fun v => !(exactArith exp ln).isFinite v) = false := by
    rw [List.any_eq_false]
    exact fun _ _ => Bool.false_ne_true
  rw [answerRow, ho]
  dsimp only [bind, Except.bind]
  rw [hfinite, hfinite, decide_eq_false (Nat.not_lt.mpr hlen), decide_eq_false (Nat.not_lt.mpr hmax)]
  rfl

/-- A constant on all candidates of a row changes nothing. -/
lemma answerRow_add (exp ln : K → K) {temperature : K} {p : Profile} {question : Value N} {row row' : List K} {c : K}
    (hlen : ∀ o, options question p = .ok o → o.keys.length ≤ row.length ∧ row.length ≤ 255)
    (hlen' : ∀ o, options question p = .ok o → o.keys.length ≤ row'.length ∧ row'.length ≤ 255)
    (hadd : ∀ o, options question p = .ok o → row'.take o.keys.length = (row.take o.keys.length).map (· + c)) :
    answerRow (exactArith exp ln) temperature p question row = answerRow (exactArith exp ln) temperature p question row' := by
  cases ho : options question p with
  | error e =>
    rw [answerRow, answerRow, ho]
    rfl
  | ok o =>
    have hscaled : scaledLogits (exactArith exp ln) temperature o.keys.length row' =
        (scaledLogits (exactArith exp ln) temperature o.keys.length row).map (· + c / temperature) := by
      rw [scaledLogits, scaledLogits, hadd o ho, List.map_map, List.map_map]
      exact List.map_congr_left fun v _ => add_div v c temperature
    rw [answerRow_exactArith exp ln ho (hlen o ho).1 (hlen o ho).2,
      answerRow_exactArith exp ln ho (hlen' o ho).1 (hlen' o ho).2, hscaled, probabilities_add]

end

/-! ## The answers -/

/-- Decisions depend on their own candidate logits only. -/
theorem answer_candidates [F64 K] {L : Type} [Field L] [LinearOrder L] [IsStrictOrderedRing L] (exp ln : L → L)
    {name bodyJson : String} {p : Profile} (hp : profile name = .ok p) {parser : Parser N K} {exactParser : Parser N L}
    {v : { v : Value N // v.Distinct }} (hv : parser.value bodyJson = .ok v) (hv' : exactParser.value bodyJson = .ok v)
    {body : List (String × Value N)} (hbody : request v.1 p = .ok body) :
    (∀ (temperature : K) lj lj' rows rows', parser.logits lj = .ok rows → parser.logits lj' = .ok rows' →
      Accepted p (questionsOf body) rows → Accepted p (questionsOf body) rows' →
      ((∀ i, Candidates (· = ·) p (questionsOf body) rows rows' i) →
        F64.answer parser bodyJson lj temperature name = F64.answer parser bodyJson lj' temperature name) ∧
      ∀ i, (∀ j, j ≠ i → Candidates (· = ·) p (questionsOf body) rows rows' j) → ∀ res res',
        F64.answer parser bodyJson lj temperature name = .ok res →
        F64.answer parser bodyJson lj' temperature name = .ok res' →
        res.model = res'.model ∧ res.answers.map Prod.fst = res'.answers.map Prod.fst ∧
          ∀ key, (∀ q, (questionsOf body)[i]? = some q → q.1 ≠ key) →
            res.answers.lookup key = res'.answers.lookup key) ∧
    (letI : F64 L := F64.exact (exactArith exp ln)
     ∀ (temperature : L) lj lj' rows rows', exactParser.logits lj = .ok rows → exactParser.logits lj' = .ok rows' →
      Accepted p (questionsOf body) rows → Accepted p (questionsOf body) rows' →
      (∀ i, ∃ c, Candidates (fun l l' => l' = l.map (· + c)) p (questionsOf body) rows rows' i) →
        F64.answer exactParser bodyJson lj temperature name = F64.answer exactParser bodyJson lj' temperature name) := by
  refine ⟨fun temperature lj lj' rows rows' hrows hrows' hacc hacc' => ⟨fun hall => ?_, fun i hall res res' hres hres' => ?_⟩, ?_⟩
  · exact answer_congr hp hv hbody hrows hrows' hacc.1 hacc'.1 fun i q row row' hq hrow hrow' =>
      answerRow_congr hacc hacc' (hall i) hq hrow hrow'
  · obtain ⟨hmodel, hkeys, hget⟩ := answers_of_ok hp hv hbody hrows hacc.1 hres
    obtain ⟨hmodel', hkeys', hget'⟩ := answers_of_ok hp hv hbody hrows' hacc'.1 hres'
    refine ⟨hmodel.trans hmodel'.symm, hkeys.trans hkeys'.symm, fun key hkey => ?_⟩
    refine lookup_congr (hkeys.trans hkeys'.symm) fun j hj => ?_
    rw [hkeys, List.getElem?_map, Option.map_eq_some_iff] at hj
    obtain ⟨q, hq, rfl⟩ := hj
    have hji : j ≠ i := by
      rintro rfl
      exact hkey q hq rfl
    have hlt := (List.getElem?_eq_some_iff.mp hq).1
    have hrow := List.getElem?_eq_getElem (l := rows) (hacc.1 ▸ hlt)
    have hrow' := List.getElem?_eq_getElem (l := rows') (hacc'.1 ▸ hlt)
    obtain ⟨d, hd, ha⟩ := hget j q _ hq hrow
    obtain ⟨d', hd', ha'⟩ := hget' j q _ hq hrow'
    rw [answerRow_congr hacc hacc' (hall j hji) hq hrow hrow', hd'] at hd
    cases hd
    rw [ha, ha']
  · intro temperature lj lj' rows rows' hrows hrows' hacc hacc' hadd
    let _ : F64 L := F64.exact (exactArith exp ln)
    refine answer_congr hp hv' hbody hrows hrows' hacc.1 hacc'.1 fun i q row row' hq hrow hrow' => ?_
    obtain ⟨c, hc⟩ := hadd i
    rw [answerRow_exact, answerRow_exact]
    exact answerRow_add exp ln (fun o ho => ⟨(hacc.2 i q row o hq hrow ho).1, (hacc.2 i q row o hq hrow ho).2.1⟩)
      (fun o ho => ⟨(hacc'.2 i q row' o hq hrow' ho).1, (hacc'.2 i q row' o hq hrow' ho).2.1⟩)
      fun o ho => hc q row row' o hq hrow hrow' ho

/-! ## A run -/

/-- The parser on rows that differ behind the candidates, and by a constant. -/
def maskParser : Parser ℕ ℝ where
  value := routeParser.value
  codes := routeParser.codes
  logits := fun s =>
    match s with
    | "plain" => .ok [[0, (5 : ℕ)]]
    | "masked" => .ok [[0, (5 : ℕ), (9 : ℕ)]]
    | "shifted" => .ok [[1, (6 : ℕ), 0]]
    | _ => .error s

/-- A row of two or three logits is accepted for the question. -/
lemma accepted_route (row : List ℝ) (hlow : 2 ≤ row.length) (hhigh : row.length ≤ 255) :
    @Accepted ℕ ℝ _ (F64.exact realArith) .pplx [("route", routeQuestion)] [row] := by
  refine ⟨rfl, fun i q row' o hq hrow ho => ?_⟩
  cases i with
  | zero =>
    cases hq
    cases hrow
    cases ho
    exact ⟨hlow, hhigh, fun _ _ => rfl⟩
  | succ i => cases hq

/-- The candidates of two rows of the question. -/
lemma candidates_route {r : List ℝ → List ℝ → Prop} {row row' : List ℝ} (h : r (row.take 2) (row'.take 2)) (i : ℕ) :
    Candidates r .pplx [("route", routeQuestion)] [row] [row'] i := by
  intro q u u' o hq hu hu' ho
  cases i with
  | zero =>
    cases hq
    cases hu
    cases hu'
    cases ho
    exact h
  | succ i => cases hq

theorem answer_candidates_route :
    @F64.answer ℕ ℝ (F64.exact realArith) _ maskParser "body" "plain" 2 "pplx" =
      @F64.answer ℕ ℝ (F64.exact realArith) _ maskParser "body" "masked" 2 "pplx" ∧
    @F64.answer ℕ ℝ (F64.exact realArith) _ maskParser "body" "plain" 2 "pplx" =
      @F64.answer ℕ ℝ (F64.exact realArith) _ maskParser "body" "shifted" 2 "pplx" := by
  have hbody : request routeRequest .pplx = .ok _ := rfl
  have h := @answer_candidates ℕ ℝ _ (F64.exact realArith) ℝ _ _ _ Real.exp Real.log "pplx" "body" .pplx rfl maskParser
    maskParser ⟨routeRequest, routeRequest_distinct⟩ rfl rfl _ hbody
  have hplain := accepted_route [0, (5 : ℕ)] (by decide) (by decide)
  refine ⟨(h.1 2 "plain" "masked" _ _ rfl rfl hplain (accepted_route _ (by decide) (by decide))).1 ?_,
    h.2 2 "plain" "shifted" _ _ rfl rfl hplain (accepted_route _ (by decide) (by decide)) fun i => ⟨1, ?_⟩⟩
  · exact candidates_route rfl
  · exact candidates_route (by norm_num) i

end SuffixHybrid.Decider
