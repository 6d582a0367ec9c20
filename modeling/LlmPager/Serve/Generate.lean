import LlmPager.Lib.Waves
import LlmPager.Serve.Session
import LlmPager.Serve.Stream

/-!
# LlmPager.Serve.Generate

The three generation loops of `llmpager-serve/src/main.rs`: `generate` on slot 0,
`generate_session` on a session's own slot, and `generate_batch` over several
slots in lockstep.

Sampling (`llmpager-run/src/sample.rs`) is floating-point arithmetic on logits;
here it is a function of the logits, the tokens generated so far and the state of
the random generator. The elapsed time in the results is left out.
-/

namespace LlmPager.Serve

open LlmPager.Lib

variable {Cell Logits : Type}

structure Sampling (Logits : Type) where
  /-- `is_greedy() && repeat_penalty == 1.0`: the decoder's own choice is taken. -/
  plainGreedy : Bool
  seed : UInt64
  /-- `sample`, and the generator after it. -/
  sample : Logits → List Nat → UInt64 → Nat × UInt64

/-- `SampleRng::new`. -/
def sampleRng (seed : UInt64) : UInt64 := max seed 1

/-- What a generation on one slot keeps from token to token. -/
structure Generation where
  next : Nat
  rng : UInt64
  outIds : List Nat
  /-- Generated tokens whose KV landed in the slot. -/
  kvTokens : Nat
  printed : String

namespace Engine

variable (arch : Arch Cell Logits) (tok : Tokenizer) (sampling : Sampling Logits)

/-- `tokenize`. -/
def tokenize (prompt : String) : EStateM ServeError (Engine Cell Logits) (List Nat) :=
  match tok.encode prompt with
  | .error text => throw (.encode text)
  | .ok ids => if ids = [] then throw .emptyPrompt else pure ids

def decodeText (ids : List Nat) : EStateM ServeError (Engine Cell Logits) String :=
  match tok.decodeIds ids with
  | .error err => throw err
  | .ok text => pure text

/-- The streaming lines, when there is an `on_delta`: it gets the fragment. -/
def emit (stream : Bool) (outIds : List Nat) (printed : String) :
    EStateM ServeError (Engine Cell Logits) String :=
  if stream then
    match nextDelta tok outIds printed with
    | .error err => throw err
    | .ok (fragment, printed) => do
        modify fun e => { e with sent := e.sent ++ fragment.toList }
        pure printed
  else pure printed

/-! ### Prefill -/

/-- Union prefill of `generate`, chunk by chunk on slot 0. -/
def prefill (ids : List Nat) : EStateM ServeError (Engine Cell Logits) (Nat × Nat) :=
  (chunks chunkCap ids).foldlM (fun (_, pos) chunk => do
    let last := decide (pos + chunk.length = ids.length)
    let next ← onDecoder (Decoder.stepChunk arch chunk pos last)
    pure (next, pos + chunk.length)) (0, 0)

/-- The first token behind a prompt on a slot of its own. -/
def firstToken (out : List Nat) (rng : UInt64) (missing : ServeError) :
    EStateM ServeError (Engine Cell Logits) (Nat × UInt64) :=
  match out.getLast? with
  | none => throw missing
  | some next =>
      if sampling.plainGreedy then pure (next, rng)
      else do
        match (← get).dec.logitsMulti.getLast?.join with
        | some logits => pure (sampling.sample logits [] rng)
        | none => pure (next, rng)

/-- The prefill of `generate_session` and `generate_batch`: `ids[start..]` on slot
`seq`; they differ in what happens when a step returns no token. -/
def prefillSlot (seq start : Nat) (ids : List Nat) (rng : UInt64) (missing : ServeError) :
    EStateM ServeError (Engine Cell Logits) (Nat × UInt64 × Nat) :=
  (chunks chunkCap (ids.drop start)).foldlM (fun (next, rng, pos) chunk => do
    let last := decide (pos + chunk.length = ids.length)
    let out ← onDecoder (Decoder.stepMulti arch (Decoder.chunkEntries chunk pos seq) last)
    if last then do
      let (next, rng) ← firstToken sampling out rng missing
      pure (next, rng, pos + chunk.length)
    else pure (next, rng, pos + chunk.length)) (0, rng, start)

/-! ### Token by token -/

/-- The token behind `next` in `generate`. -/
def stepNext (next pos : Nat) (outIds : List Nat) (rng : UInt64) :
    EStateM ServeError (Engine Cell Logits) (Nat × UInt64) := do
  let greedy ← onDecoder (Decoder.step arch next pos true)
  if sampling.plainGreedy then pure (greedy, rng)
  else do
    let logits := (← get).dec.lastLogits
    pure (sampling.sample logits outIds rng)

/-- The token behind `next` in `generate_session`. -/
def stepSlotNext (slot next pos : Nat) (outIds : List Nat) (rng : UInt64) :
    EStateM ServeError (Engine Cell Logits) (Nat × UInt64) := do
  let out ← onDecoder (Decoder.stepMulti arch [{ token := next, pos, seq := slot }] true)
  if sampling.plainGreedy then
    match out[0]? with
    | some next => pure (next, rng)
    | none => throw .indexOutOfRange
  else do
    match (← get).dec.logitsMulti[0]?.join with
    | some logits => pure (sampling.sample logits outIds rng)
    | none => throw .indexOutOfRange

/-- The token loop of `generate` and `generate_session`, one round per unit of
fuel; they differ in how a token is fed back. -/
def tokenLoop (feed : Nat → Nat → List Nat → UInt64 →
      EStateM ServeError (Engine Cell Logits) (Nat × UInt64))
    (stream : Bool) (promptLen : Nat) :
    Nat → Generation → EStateM ServeError (Engine Cell Logits) Generation
  | 0, g => pure g
  | fuel + 1, g =>
      if g.next ∈ arch.eos then pure g
      else do
        let outIds := g.outIds ++ [g.next]
        let printed ← emit tok stream outIds g.printed
        -- every round before this one pushed one token
        let pos := promptLen + g.outIds.length
        if arch.maxSeq ≤ pos + 1 then pure { g with outIds, printed }
        else do
          let (next, rng) ← feed g.next pos outIds g.rng
          tokenLoop feed stream promptLen fuel
            { next, rng, outIds, kvTokens := outIds.length, printed }

/-- `generate`: text, prompt tokens, completion tokens. -/
def generate (prompt : String) (maxTokens : Nat) (stream : Bool) :
    EStateM ServeError (Engine Cell Logits) (String × Nat × Nat) := do
  let ids ← tokenize tok prompt
  let (next, _) ← prefill arch ids
  let rng := sampleRng sampling.seed
  let logits := (← get).dec.lastLogits
  let (next, rng) := if sampling.plainGreedy then (next, rng) else sampling.sample logits [] rng
  let g ← tokenLoop arch tok (stepNext arch sampling) stream ids.length maxTokens
    { next, rng, outIds := [], kvTokens := 0, printed := "" }
  let text ← decodeText tok g.outIds
  pure (text, ids.length, g.outIds.length)

/-- `generate_session`: text, full context after this turn, prefilled, generated. -/
def generateSession (slot reuse : Nat) (ids : List Nat) (maxTokens : Nat) (stream : Bool) :
    EStateM ServeError (Engine Cell Logits) (String × List Nat × Nat × Nat) :=
  if ids.length < reuse then throw .indexOutOfRange
  else do
    let (next, rng, _) ←
      prefillSlot arch sampling slot reuse ids (sampleRng sampling.seed) .noToken
    let g ← tokenLoop arch tok (stepSlotNext arch sampling slot) stream ids.length maxTokens
      { next, rng, outIds := [], kvTokens := 0, printed := "" }
    let text ← decodeText tok g.outIds
    pure (text, ids ++ g.outIds.take g.kvTokens, ids.length - reuse, g.outIds.length)

end Engine

/-! ### Lockstep -/

/-- What `generate_batch` keeps for one stream; its index is its slot. -/
structure BatchStream where
  ids : List Nat
  next : Nat
  rng : UInt64
  outIds : List Nat
  done : Bool
  pos : Nat

/-- Streams retire on EOS or at `max_seq`; the others write their next token. -/
def BatchStream.push (arch : Arch Cell Logits) (st : BatchStream) : BatchStream :=
  if st.done then st
  else if st.next ∈ arch.eos ∨ arch.maxSeq ≤ st.pos then { st with done := true }
  else { st with outIds := st.outIds ++ [st.next] }

/-- The entries of the active streams. -/
def activeEntries (streams : List BatchStream) (s : Nat) : List Entry :=
  match streams with
  | [] => []
  | st :: rest =>
      if st.done then activeEntries rest (s + 1)
      else { token := st.next, pos := st.pos, seq := s } :: activeEntries rest (s + 1)

section Streams

variable (sampling : Sampling Logits)

/-- What a step gave one active stream. -/
def BatchStream.take (st : BatchStream) (out : Option Nat) (logits : Option Logits) :
    Except ServeError BatchStream :=
  if sampling.plainGreedy then
    match out with
    | some next => .ok { st with next, pos := st.pos + 1 }
    | none => .error .indexOutOfRange
  else
    match logits with
    | some logits =>
        let (next, rng) := sampling.sample logits st.outIds st.rng
        .ok { st with next, rng, pos := st.pos + 1 }
    | none => .error .indexOutOfRange

/-- The active streams take what the step gave, in order. -/
def takeAll : List BatchStream → List Nat → List (Option Logits) →
    Except ServeError (List BatchStream)
  | [], _, _ => .ok []
  | st :: rest, out, lm =>
      if st.done then do
        let rest ← takeAll rest out lm
        pure (st :: rest)
      else do
        let st ← st.take sampling out.head? lm.head?.join
        let rest ← takeAll rest out.tail lm.tail
        pure (st :: rest)

end Streams

namespace Engine

variable (arch : Arch Cell Logits) (tok : Tokenizer) (sampling : Sampling Logits)

/-- Lockstep decode, one round per unit of fuel. -/
def batchLoop : Nat → List BatchStream →
    EStateM ServeError (Engine Cell Logits) (List BatchStream)
  | 0, streams => pure streams
  | fuel + 1, streams => do
      let streams := streams.map (BatchStream.push arch)
      let entries := activeEntries streams 0
      if entries = [] then pure streams
      else do
        let out ← onDecoder (Decoder.stepMulti arch entries true)
        match takeAll sampling streams out (← get).dec.logitsMulti with
        | .error err => throw err
        | .ok streams => batchLoop fuel streams

/-- The prompts' tokens, one after the other. -/
def tokenizeAll (prompts : List String) :
    EStateM ServeError (Engine Cell Logits) (List (List Nat)) :=
  prompts.foldlM (fun ids prompt => do
    let v ← tokenize tok prompt
    pure (ids ++ [v])) []

/-- Each prompt on its own slot, its first token drawn inside its prefill. -/
def prefillAll (ids : List (List Nat)) :
    EStateM ServeError (Engine Cell Logits) (List BatchStream) :=
  ids.foldlM (fun streams v => do
    let s := streams.length
    let (next, rng, _) ← prefillSlot arch sampling s 0 v
      (sampleRng (sampling.seed + UInt64.ofNat s)) .indexOutOfRange
    pure (streams ++ [{ ids := v, next, rng, outIds := [], done := false, pos := v.length }])) []

/-- Per stream: text, prompt tokens, completion tokens. -/
def decodeAll (streams : List BatchStream) :
    EStateM ServeError (Engine Cell Logits) (List (String × Nat × Nat)) :=
  streams.foldlM (fun res st => do
    let text ← decodeText tok st.outIds
    pure (res ++ [(text, st.ids.length, st.outIds.length)])) []

/-- `generate_batch`. -/
def generateBatch (prompts : List String) (maxTokens : Nat) :
    EStateM ServeError (Engine Cell Logits) (List (String × Nat × Nat)) :=
  if arch.batchCap < prompts.length then
    throw (.batchCapacity prompts.length arch.batchCap)
  else do
    let ids ← tokenizeAll tok prompts
    let streams ← prefillAll arch sampling ids
    let streams ← batchLoop arch sampling maxTokens streams
    decodeAll tok streams

end Engine

end LlmPager.Serve
