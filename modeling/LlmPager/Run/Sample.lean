import LlmPager.Lib.Float
import LlmPager.Lib.Ranking

/-!
# LlmPager.Run.Sample

Token sampling (`sample.rs`): repetition penalty, temperature, top-k and top-p over
the final logits.

Arithmetic is exact, over an ordered field, but for the draw, which is rounded to the
`f32` that the code draws; `exp` is a parameter, and so is the unstable sort. A panic is `none`: an index past the vocabulary, or the first of no
candidates. Token ids are `u32`.
-/

namespace LlmPager.Sample

open Lib (UnstableSort descLe firstSum roundSignificant)

variable {F : Type}

structure Sampling (F : Type) where
  /-- No more than `0` is greedy. -/
  temperature : F
  /-- Nucleus mass. -/
  topP : F
  /-- Candidate cap before top-p; `0` disables it. -/
  topK : Nat
  repeatPenalty : F
  /-- How many trailing tokens the penalty looks at. -/
  repeatWindow : Nat

/-- The trailing tokens, `recent[start..]`. -/
def window (s : Sampling F) (recent : List Nat) : List Nat :=
  recent.drop (recent.length - s.repeatWindow)

/-- Deterministic xorshift. -/
structure SampleRng where
  state : UInt64
  deriving Repr, DecidableEq

def SampleRng.new (seed : UInt64) : SampleRng := ⟨max seed 1⟩

variable [Field F] [LinearOrder F]

/-- A draw: 53 bits, as an `f64` below `1`, and that as the nearest `f32`, which may be `1`. -/
def SampleRng.unit (rng : SampleRng) : F × SampleRng :=
  let x := rng.state
  let x := x ^^^ (x <<< 13)
  let x := x ^^^ (x >>> 7)
  let x := x ^^^ (x <<< 17)
  ((roundSignificant 24 (x >>> 11).toNat : F) / 2 ^ 53, ⟨x⟩)

def Sampling.isGreedy (s : Sampling F) : Bool := decide (s.temperature ≤ 0)

/-- `f32::MIN`. -/
def f32Min : F := -(2 ^ 128 - 2 ^ 104)

/-- `argmax`: the first of the largest, `0` where none is over `f32::MIN`. -/
def argmax (logits : List F) : Nat :=
  (logits.zipIdx.foldl (fun (best, bestv) (v, i) =>
    if bestv < v then (i % 2 ^ 32, v) else (best, bestv)) (0, f32Min)).1

/-! ### The penalty -/

/-- `if *v > 0.0 { *v / penalty } else { *v * penalty }`. -/
def penalize (penalty v : F) : F := if 0 < v then v / penalty else v * penalty

/-- The loop over the window, in place. -/
def penalizeAll (penalty : F) (tokens : List Nat) (adjusted : List F) : Option (List F) :=
  tokens.foldlM (fun adjusted t => do
    let v ← adjusted[t]?
    return adjusted.set t (penalize penalty v)) adjusted

/-- The logits that a token is selected by. -/
def adjust (s : Sampling F) (logits : List F) (recent : List Nat) : Option (List F) :=
  if s.repeatPenalty ≠ 1 then penalizeAll s.repeatPenalty (window s recent) logits
  else some logits

/-! ### Selection -/

/-- The logit of a token, of which there are as many as candidates at least. -/
def logit (adjusted : List F) (i : Nat) : F := adjusted.getD i 0

/-- Candidates sorted by logit, top-k capped. -/
def candidates (sort : UnstableSort Nat) (topK : Nat) (adjusted : List F) : List Nat :=
  let idx := List.range (adjusted.length % 2 ^ 32)
  let idx := sort.sort (descLe (logit adjusted)) idx
  if 0 < topK ∧ topK < idx.length then idx.take topK else idx

def normalize (probs : List F) : List F := probs.map (· / probs.sum)

/-- Softmax at temperature over the candidate set. -/
def softmax (exp : F → F) (temperature : F) (adjusted : List F) (idx : List Nat) :
    Option (List F) := do
  let first ← idx[0]?
  let m := logit adjusted first
  return normalize (idx.map fun i => exp ((logit adjusted i - m) / temperature))

/-- Nucleus cut. -/
def nucleus (topP : F) (idx : List Nat) (probs : List F) : List Nat × List F :=
  if topP < 1 then
    let keep := ((firstSum (fun acc => topP ≤ acc) 0 probs).map (· + 1)).getD probs.length
    (idx.take keep, normalize (probs.take keep))
  else (idx, probs)

/-- What a token is drawn from: the candidates kept, with their masses. -/
def kept (exp : F → F) (sort : UnstableSort Nat) (s : Sampling F) (adjusted : List F) :
    Option (List Nat × List F) := do
  let idx := candidates sort s.topK adjusted
  let probs ← softmax exp s.temperature adjusted idx
  return nucleus s.topP idx probs

/-- The cumulative draw, the last candidate by default. -/
def draw (r : F) (idx : List Nat) (probs : List F) : Option Nat :=
  idx[(firstSum (fun acc => r < acc) 0 probs).getD (probs.length - 1)]?

def sample (exp : F → F) (sort : UnstableSort Nat) (s : Sampling F) (logits : List F)
    (recent : List Nat) (rng : SampleRng) : Option (Nat × SampleRng) := do
  if s.isGreedy && s.repeatPenalty = 1 then
    return (argmax logits, rng)
  let adjusted ← adjust s logits recent
  if s.isGreedy then
    return (argmax adjusted, rng)
  let (idx, probs) ← kept exp sort s adjusted
  let (r, rng) := rng.unit
  return (← draw r idx probs, rng)

end LlmPager.Sample
