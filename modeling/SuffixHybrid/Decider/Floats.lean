import SuffixHybrid.Decider.Order

/-!
# Answers in machine arithmetic

`answer` over the operations of `f64` and `f32`, without any law: the same reduction as in exact arithmetic, with the
sums taken from the left. Exact arithmetic is the instance whose operations are those of an ordered field
(`answer_exact`).
-/

namespace SuffixHybrid.Decider
open Lib

variable {N K : Type}

/-- The operations of `answer` on `f64`, and on `f32` for the scaling. -/
class F64 (K : Type) extends Zero K, One K, Add K, Sub K, Neg K, Mul K, Div K, NatCast K, Max K, LT K where
  decLt : DecidableLT K
  F32 : Type
  toF32 : K → F32
  divF32 : F32 → F32 → F32
  ofF32 : F32 → K
  isFinite : K → Bool
  abs : K → K
  exp : K → K
  ln : K → K
  clamp : K → K → K → K
  emptySum : K

namespace F64
variable [F64 K]

instance : DecidableLT K := decLt

/-- `iter.sum()`. -/
def sum (l : List K) : K := l.foldl (· + ·) emptySum

/-- The temperature-scaled logits of the `n` options. -/
def scaledLogits (temperature : K) (n : ℕ) (logits : List K) : List K :=
  (logits.take n).map fun v => ofF32 (divF32 (toF32 v) (toF32 temperature))

/-- The greatest of a list: the fold begins below every value. -/
def maximum : List K → K
  | [] => 0
  | v :: vs => vs.foldl max v

/-- The softmax with its greatest exponent subtracted. -/
def probabilities (scaled : List K) : List K :=
  let exps := scaled.map fun v => exp (v - maximum scaled)
  exps.map fun p => p / sum exps

/-- The first index of the greatest probability. -/
def bestIndex (ps : List K) : ℕ :=
  (List.range' 1 (ps.length - 1)).foldl (fun best i => if ps.getD best 0 < ps.getD i 0 then i else best) 0

/-- `entropy_confidence`. -/
def entropyConfidence (ps : List K) : K :=
  if ps.length < 2 then 1
  else
    let entropy := -(sum ((ps.filter fun p => 0 < p).map fun p => p * ln p))
    clamp (1 - entropy / ln (ps.length : K)) 0 1

/-- The expected index. -/
def expectedIndex (ps : List K) : K := sum (ps.zipIdx.map fun e => (e.2 : K) * e.1)

/-- The confidence of a choice over chance. -/
def choiceConfidence (ps : List K) (best : ℕ) : K :=
  let n : K := ps.length
  clamp (if ps.length = 1 then 1 else (ps.getD best 0 - 1 / n) / (1 - 1 / n)) 0 1

/-- The confidence of a score: its mean distance from the best level, against that of chance. -/
def scoreConfidence (ps : List K) (best : ℕ) : K :=
  let n := ps.length
  let distance := sum (ps.zipIdx.map fun e => e.1 * abs ((e.2 : K) - (best : K)))
  let midpoint : K := ((n - 1 : ℕ) : K) / ((2 : ℕ) : K)
  let baseline := sum ((List.range n).map fun (i : ℕ) => abs ((i : K) - midpoint)) / (n : K)
  max (1 - distance / baseline) 0

section
variable [Serde N]

/-- The decision of a question from its probabilities. -/
def decision (p : Profile) (question : List (String × Value N)) (o : Options N) (ps : List K) : Decision N K :=
  let distribution := collect (o.keys.zip ps)
  let best := bestIndex ps
  match o.kind, p with
  | "noul", _ => .noul (ps.getD 1 0)
  | "choice", .d3 => .choice (o.keys.getD best "") distribution (entropyConfidence ps)
  | "score", .d3 =>
    let criteria := ((question.lookup "criteria").bind Value.asArray).getD []
    .score (expectedIndex ps) distribution (entropyConfidence ps)
      (collect (o.keys.zip (criteria.map fun level => .string (canonical level))))
  | "choice", .pplx => .choice (o.keys.getD best "") distribution (choiceConfidence ps best)
  | _, _ =>
    .score (expectedIndex ps) distribution (scoreConfidence ps best)
      (collect (o.keys.zip o.descriptions))

/-- The answer to one question. -/
def answerRow (temperature : K) (p : Profile) (question : Value N) (logits : List K) :
    Except String (Decision N K) := do
  let o ← options question p
  let n := o.keys.length
  deny (logits.length < n || 255 < logits.length || logits.any fun v => !isFinite v)
    "logit rows require finite values for every option, at most 255"
  let scaled := scaledLogits temperature n logits
  deny (scaled.any fun v => !isFinite v) "scaled logits overflowed"
  pure (decision p (question.asObject.getD []) o (probabilities scaled))

/-- `answer`. -/
def answer (parser : Parser N K) (bodyJson logitsJson : String) (temperature : K) (profileName : String) :
    Except String (Response N K) := do
  let p ← profile profileName
  deny (!isFinite temperature || !decide (0 < temperature)) "temperature must be positive and finite"
  let value ← parser.value bodyJson
  let body ← request value.1 p
  let questions := questionsOf body
  let logits ← parser.logits logitsJson
  deny (decide (logits.length ≠ questions.length)) "one logit row is required per question"
  let answers ← (questions.zip logits).mapM fun e => do
    let d ← answerRow temperature p e.1.2 e.2
    pure (e.1.1, d)
  pure ⟨body.lookup "model", collect answers⟩

end

end F64

/-! ## Exact arithmetic -/

section
variable [Field K] [LinearOrder K]

/-- The operations of an ordered field. -/
@[reducible]
def F64.exact (A : Arith K) : F64 K where
  decLt := inferInstance
  F32 := K
  toF32 := A.f32
  divF32 a b := A.f32 (a / b)
  ofF32 := id
  isFinite := A.isFinite
  abs x := |x|
  exp := A.exp
  ln := A.ln
  clamp x lo hi := max lo (min x hi)
  emptySum := 0

lemma sum_exact (A : Arith K) (l : List K) : @F64.sum K (F64.exact A) l = l.sum := (List.sum_eq_foldl ..).symm

lemma probabilities_exact (A : Arith K) (l : List K) : @F64.probabilities K (F64.exact A) l = probabilities A l := by
  have hmax : @F64.maximum K (F64.exact A) l = maximum l := by
    cases l <;> rfl
  unfold F64.probabilities
  dsimp only
  rw [sum_exact, hmax]
  rfl

lemma entropyConfidence_exact (A : Arith K) (ps : List K) :
    @F64.entropyConfidence K (F64.exact A) ps = entropyConfidence A ps := by
  unfold F64.entropyConfidence
  rw [sum_exact]
  rfl

lemma expectedIndex_exact (A : Arith K) (ps : List K) : @F64.expectedIndex K (F64.exact A) ps = expectedIndex ps := by
  unfold F64.expectedIndex
  rw [sum_exact]
  rfl

lemma scoreConfidence_exact (A : Arith K) (ps : List K) (best : ℕ) :
    @F64.scoreConfidence K (F64.exact A) ps best = scoreConfidence ps best := by
  have hlist : (List.range ps.length >>= fun a => pure (a : K)) = (List.range ps.length).map fun (a : ℕ) => (a : K) :=
    List.flatMap_pure_eq_map _ _
  unfold F64.scoreConfidence scoreConfidence
  dsimp only
  rw [sum_exact, sum_exact, hlist, List.map_map]
  rfl

section
variable [Serde N]

lemma decision_exact (A : Arith K) (p : Profile) (question : List (String × Value N)) (o : Options N) (ps : List K) :
    @F64.decision N K (F64.exact A) _ p question o ps = decision A p question o ps := by
  unfold F64.decision
  dsimp only
  rw [entropyConfidence_exact, expectedIndex_exact, scoreConfidence_exact]
  rfl

lemma answerRow_exact (A : Arith K) (temperature : K) (p : Profile) (question : Value N) (logits : List K) :
    @F64.answerRow N K (F64.exact A) _ temperature p question logits = answerRow A temperature p question logits := by
  unfold F64.answerRow answerRow
  refine congrArg (options question p >>= ·) (funext fun o => ?_)
  dsimp only
  rw [decision_exact, probabilities_exact]
  rfl

/-- The answer in exact arithmetic is one over the operations of the field. -/
theorem answer_exact (A : Arith K) (parser : Parser N K) (bodyJson logitsJson : String) (temperature : K)
    (profileName : String) :
    @F64.answer N K (F64.exact A) _ parser bodyJson logitsJson temperature profileName =
      answer A parser bodyJson logitsJson temperature profileName := by
  have hpos : (!decide (0 < temperature)) = decide (temperature ≤ 0) := by
    rw [← decide_not]
    exact decide_eq_decide.mpr not_lt
  unfold F64.answer answer
  refine congrArg (profile profileName >>= ·) (funext fun p => ?_)
  have hrow : @F64.answerRow N K (F64.exact A) _ temperature p = answerRow A temperature p := by
    funext question logits
    exact answerRow_exact A temperature p question logits
  rw [hrow, hpos]
  rfl

end

end

end SuffixHybrid.Decider
