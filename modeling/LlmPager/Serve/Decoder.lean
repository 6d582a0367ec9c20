import LlmPager.Lib.Fallible

/-!
# LlmPager.Serve.Decoder

The decoder as the server sees it (`AnyDecoder` in `llmpager-run/src/any.rs`,
`step`, `step_multi`, `kv_export` and `kv_import` of `decode.rs` and
`kimi.rs`): sequence slots of KV cells, read and written by position.

What one position holds is a cell (the K and V rows of every layer, or the
compressed rows of the Kimi engine). Decoding `token` at `pos` of slot `seq`
writes exactly that position, and what it writes depends on the token and on
the cells before it: `kv_append` stores at `pos`, `attn_decode` attends to
`0 ..= pos` of the same slot. The entries of one `step_multi` call act one after
the other; its callers give the entries of a slot in ascending order, as the
source asks.

Every call may fail on the device. Which calls do, and what a failed call leaves
at the positions it was writing, is arbitrary but fixed (`Arch.fails`,
`Arch.junk`, by the number of the call). The logits a failed call leaves are not
modelled: nobody reads them before the next call that succeeds.
-/

namespace LlmPager.Serve

open LlmPager.Lib

/-- The errors of `llmpager-serve` and of the decoder calls it makes. -/
inductive ServeError
  | entries (n cap : Nat)
  | position (pos maxSeq : Nat)
  | sequenceSlot (seq batchCap : Nat)
  | kvLength (len maxSeq : Nat)
  | kvBlob (nbytes want len : Nat)
  /-- A CUDA call or the pager failed, with this text. -/
  | device (text : String)
  | needsTwoSlots
  | noSessionSlots
  | parkFreedNoSlot
  | encode (text : String)
  | decode (text : String)
  | emptyPrompt
  | noToken
  | batchCapacity (nstr batchCap : Nat)
  | sessionInBatch (sid : String)
  | missingMessages
  | missingPrompt
  /-- `full[printed.len()..]` off a character boundary: a Rust panic. -/
  | sliceBoundary
  /-- An index past the end of a `Vec`: a Rust panic. -/
  | indexOutOfRange
  deriving Repr, DecidableEq

/-- What the server answers (the texts of `bail!` and `context`). -/
def ServeError.message : ServeError → String
  | entries n cap => s!"{n} entries (cap {cap})"
  | position pos maxSeq => s!"position {pos} exceeds max_seq {maxSeq}"
  | sequenceSlot seq batchCap => s!"sequence slot {seq} exceeds batch cap {batchCap}"
  | kvLength len maxSeq => s!"kv length {len} exceeds max_seq {maxSeq}"
  | kvBlob nbytes want len => s!"kv blob is {nbytes} bytes, expected {want} for {len} tokens"
  | device text => text
  | needsTwoSlots =>
      "sessions need at least 2 sequence slots; raise `batch` for this " ++
        "model in serve.json (slot 0 is the sessionless lane)"
  | noSessionSlots => "no session slots"
  | parkFreedNoSlot => "park freed no slot"
  | encode text => s!"encode: {text}"
  | decode text => s!"decode: {text}"
  | emptyPrompt => "empty prompt after tokenization"
  | noToken => "prefill produced no token"
  | batchCapacity nstr batchCap =>
      s!"{nstr} prompts exceed this model's batch capacity {batchCap} (raise `batch` in serve.json)"
  | sessionInBatch sid =>
      s!"session {sid.quote} cannot be combined with a prompt array or n>1: " ++
        "batch streams occupy the sequence slots sessions live in"
  | missingMessages => "missing messages"
  | missingPrompt => "missing prompt"
  | sliceBoundary => "byte index is not a char boundary"
  | indexOutOfRange => "index out of bounds"

/-- `chunk_cap`, the same constant in both engines. -/
def chunkCap : Nat := 64

/-- What stays fixed while a model is warm: the configuration of the decoder,
the function its kernels compute, and the device's behaviour. -/
structure Arch (Cell Logits : Type) where
  /-- The `batch` argument of `AnyDecoder::new`. -/
  batch : Nat
  maxSeq : Nat
  kvBytesPerToken : Nat
  eos : List Nat
  /-- What decoding a token writes, after the cells before it. -/
  cell : List Cell → Nat → Cell
  /-- The logits behind a token, after the cells before it. -/
  logits : List Cell → Nat → Logits
  argmax : Logits → Nat
  /-- The error of the device call of this number, if it fails. -/
  fails : Nat → Option String
  /-- What a failed call leaves: number of the call, slot, position. -/
  junk : Nat → Nat → Nat → Cell

variable {Cell Logits : Type}

/-- `batch_cap`: `batch.max(1)`. -/
def Arch.batchCap (arch : Arch Cell Logits) : Nat := max arch.batch 1

/-- Which of the two copies between a slot and host memory. -/
inductive CopyKind
  | kvExport
  | kvImport
  deriving Repr, DecidableEq

/-- The model's own record of one `kv_export` or `kv_import` call. -/
structure KvCopy where
  kind : CopyKind
  seq : Nat
  len : Nat
  ok : Bool
  deriving Repr, DecidableEq

structure Decoder (Cell Logits : Type) where
  /-- What a sequence slot holds at a position. -/
  kv : Nat → Nat → Cell
  /-- `logits_host`, read by `last_logits`. -/
  lastLogits : Logits
  /-- `logits_multi`; `none` is the empty vector of an entry that is not the
  last of its slot. -/
  logitsMulti : List (Option Logits)
  /-- How many device calls there have been. -/
  calls : Nat
  /-- The copies so far (the model's own record). -/
  copies : List KvCopy

/-- An entry of `step_multi`: `(token, position, sequence slot)`. -/
structure Entry where
  token : Nat
  pos : Nat
  seq : Nat
  deriving Repr, DecidableEq

/-- Host memory of a parked context: the cells of its positions and the number
of bytes they take. -/
structure Blob (Cell : Type) where
  cells : List Cell
  nbytes : Nat

namespace Decoder

/-- The cells of positions `0 .. n` of a slot. -/
def read (d : Decoder Cell Logits) (seq n : Nat) : List Cell := (List.range n).map (d.kv seq)

def write (d : Decoder Cell Logits) (seq pos : Nat) (c : Cell) : Decoder Cell Logits :=
  { d with kv := fun s p => if s = seq ∧ p = pos then c else d.kv s p }

variable (arch : Arch Cell Logits)

/-- One entry of a step: its token's cell lands at its position. -/
def stepEntry (d : Decoder Cell Logits) (e : Entry) : Decoder Cell Logits :=
  d.write e.seq e.pos (arch.cell (d.read e.seq e.pos) e.token)

/-- A failed call: the positions it was writing hold anything. -/
def scramble (d : Decoder Cell Logits) (touched : Nat → Nat → Bool) : Decoder Cell Logits :=
  { d with kv := fun s p => if touched s p then arch.junk d.calls s p else d.kv s p }

/-- The error of the device call made now, and the count of calls. -/
def deviceCall : EStateM ServeError (Decoder Cell Logits) (Option String) := fun d =>
  .ok (arch.fails d.calls) { d with calls := d.calls + 1 }

/-- Per-entry logits: those of the entries that are the last of their slot. -/
def entryLogits (d : Decoder Cell Logits) : List Entry → List (Option Logits)
  | [] => []
  | e :: rest =>
      (if rest.all (·.seq ≠ e.seq) then some (arch.logits (d.read e.seq e.pos) e.token)
        else none) :: entryLogits d rest

/-- The bounds check of `step_multi` over one entry. -/
def entryError (e : Entry) : Option ServeError :=
  if arch.maxSeq ≤ e.pos then some (.position e.pos arch.maxSeq)
  else if arch.batchCap ≤ e.seq then some (.sequenceSlot e.seq arch.batchCap)
  else none

/-- The logits buffers after a call that wanted logits. -/
def withLogits (d : Decoder Cell Logits) (entries : List Entry) : Decoder Cell Logits :=
  let lm := entryLogits arch d entries
  { d with logitsMulti := lm, lastLogits := (lm.reduceOption.getLast?).getD d.lastLogits }

/-- `step_multi`. -/
def stepMulti (entries : List Entry) (wantLogits : Bool) :
    EStateM ServeError (Decoder Cell Logits) (List Nat) :=
  if entries.length = 0 ∨ chunkCap < entries.length then
    throw (.entries entries.length chunkCap)
  else match entries.findSome? (entryError arch) with
    | some err => throw err
    | none => do
        match ← deviceCall arch with
        | some text => do
            modify fun d => d.scramble arch fun s p => entries.any fun e => e.seq = s ∧ e.pos = p
            throw (.device text)
        | none => do
            modify fun d => entries.foldl (stepEntry arch) d
            if wantLogits then do
              modify fun d => d.withLogits arch entries
              pure ((← get).logitsMulti.map fun l => (l.map arch.argmax).getD 0)
            else
              pure (List.replicate entries.length 0)

/-- `step`: one token on slot 0. -/
def step (token pos : Nat) (wantLogits : Bool) :
    EStateM ServeError (Decoder Cell Logits) Nat :=
  if arch.maxSeq ≤ pos then throw (.position pos arch.maxSeq)
  else do
    match ← deviceCall arch with
    | some text => do
        modify fun d => d.scramble arch fun s p => s = 0 ∧ p = pos
        throw (.device text)
    | none => do
        modify fun d => d.stepEntry arch { token, pos, seq := 0 }
        if wantLogits then do
          modify fun d => { d with lastLogits := arch.logits (d.read 0 pos) token }
          pure (arch.argmax (← get).lastLogits)
        else
          pure 0

/-- The entries of consecutive tokens on one slot. -/
def chunkEntries (tokens : List Nat) (start seq : Nat) : List Entry :=
  tokens.mapIdx fun i token => { token, pos := start + i, seq }

/-- `step_chunk`: consecutive tokens on slot 0. -/
def stepChunk (tokens : List Nat) (start : Nat) (wantLogits : Bool) :
    EStateM ServeError (Decoder Cell Logits) Nat := do
  let out ← stepMulti arch (chunkEntries tokens start 0) wantLogits
  pure (out.getLast?.getD 0)

/-- `kv_geometry`: its checks. -/
def kvGeometry (seq len : Nat) : Option ServeError :=
  if arch.batchCap ≤ seq then some (.sequenceSlot seq arch.batchCap)
  else if arch.maxSeq < len then some (.kvLength len arch.maxSeq)
  else none

/-- The model's record of a copy. -/
def recordCopy (d : Decoder Cell Logits) (kind : CopyKind) (seq len : Nat) (ok : Bool) :
    Decoder Cell Logits :=
  { d with copies := d.copies ++ [{ kind, seq, len, ok }] }

/-- `kv_export`: positions `[0, len)` of a slot, copied to host memory. -/
def kvExport (seq len : Nat) : EStateM ServeError (Decoder Cell Logits) (Blob Cell) :=
  match kvGeometry arch seq len with
  | some err => do
      modify fun d => d.recordCopy .kvExport seq len false
      throw err
  | none => do
      match ← deviceCall arch with
      | some text => do
          modify fun d => d.recordCopy .kvExport seq len false
          throw (.device text)
      | none => do
          modify fun d => d.recordCopy .kvExport seq len true
          pure { cells := (← get).read seq len, nbytes := arch.kvBytesPerToken * len }

/-- The slot after its positions `[0, len)` were restored from a blob. -/
def restored (d : Decoder Cell Logits) (seq len : Nat) (blob : Blob Cell) :
    Decoder Cell Logits :=
  { d with kv := fun s p =>
      if s = seq ∧ p < len then blob.cells.getD p (d.kv s p) else d.kv s p }

/-- `kv_import`: a parked context back into a slot. -/
def kvImport (seq len : Nat) (blob : Blob Cell) :
    EStateM ServeError (Decoder Cell Logits) Unit :=
  match kvGeometry arch seq len with
  | some err => do
      modify fun d => d.recordCopy .kvImport seq len false
      throw err
  | none =>
      if blob.nbytes ≠ arch.kvBytesPerToken * len then do
        modify fun d => d.recordCopy .kvImport seq len false
        throw (.kvBlob blob.nbytes (arch.kvBytesPerToken * len) len)
      else do
        match ← deviceCall arch with
        | some text => do
            modify fun d =>
              (d.scramble arch fun s p => s = seq ∧ p < len).recordCopy .kvImport seq len false
            throw (.device text)
        | none => modify fun d => (d.restored seq len blob).recordCopy .kvImport seq len true

end Decoder

/-- Some device call fails. -/
def Arch.Faulty (arch : Arch Cell Logits) : Prop := ∃ n, arch.fails n ≠ none

/-! ### What a token list leaves in a slot -/

/-- The cells of a token list: each one behind the cells before it. -/
def Arch.kvOf (arch : Arch Cell Logits) (tokens : List Nat) : List Cell :=
  tokens.foldl (fun cells token => cells ++ [arch.cell cells token]) []

/-- The logits behind a token list (which is not empty). -/
def Arch.logitsOf (arch : Arch Cell Logits) (tokens : List Nat) : Logits :=
  arch.logits (arch.kvOf tokens.dropLast) (tokens.getLast?.getD 0)

/-- Positions `[0, tokens.len())` of a slot hold the cells of `tokens`. -/
def Decoder.Holds (arch : Arch Cell Logits) (d : Decoder Cell Logits) (seq : Nat)
    (tokens : List Nat) : Prop :=
  d.read seq tokens.length = arch.kvOf tokens

section KvOf

variable (arch : Arch Cell Logits)

@[simp] theorem Arch.kvOf_nil : arch.kvOf [] = [] := rfl

theorem Arch.kvOf_concat (tokens : List Nat) (token : Nat) :
    arch.kvOf (tokens ++ [token]) =
      arch.kvOf tokens ++ [arch.cell (arch.kvOf tokens) token] := by
  simp [Arch.kvOf, List.foldl_append]

@[simp] theorem Arch.logitsOf_concat (tokens : List Nat) (token : Nat) :
    arch.logitsOf (tokens ++ [token]) = arch.logits (arch.kvOf tokens) token := by
  simp [Arch.logitsOf]

@[simp] theorem Arch.length_kvOf (tokens : List Nat) :
    (arch.kvOf tokens).length = tokens.length := by
  induction tokens using List.reverseRecOn with
  | nil => rfl
  | append_singleton tokens token ih => simp [Arch.kvOf_concat, ih]

/-- The cell of a position depends on the tokens up to it only. -/
theorem Arch.kvOf_append (tokens more : List Nat) :
    ∃ cells, arch.kvOf (tokens ++ more) = arch.kvOf tokens ++ cells := by
  induction more using List.reverseRecOn with
  | nil => exact ⟨[], by simp⟩
  | append_singleton more token ih =>
      obtain ⟨cells, hcells⟩ := ih
      refine ⟨cells ++ [arch.cell (arch.kvOf (tokens ++ more)) token], ?_⟩
      rw [← List.append_assoc, Arch.kvOf_concat, hcells, List.append_assoc]

theorem Arch.kvOf_take (tokens : List Nat) (n : Nat) :
    arch.kvOf (tokens.take n) = (arch.kvOf tokens).take n := by
  obtain ⟨cells, hcells⟩ := arch.kvOf_append (tokens.take n) (tokens.drop n)
  rw [List.take_append_drop] at hcells
  rcases Nat.le_total n tokens.length with hn | hn
  · rw [hcells, List.take_left' (by simp [hn])]
  · have hlen := congrArg List.length hcells
    simp only [Arch.length_kvOf, List.length_append, List.length_take] at hlen
    have hnil : cells = [] := List.length_eq_zero_iff.mp (by omega)
    subst hnil
    rw [List.append_nil] at hcells
    rw [← hcells, List.take_of_length_le (by simpa using hn)]

end KvOf

namespace Decoder

section Read

variable {d d' : Decoder Cell Logits} {seq pos n : Nat} {c : Cell}

@[simp] theorem length_read : (d.read seq n).length = n := by simp [read]

theorem read_succ : d.read seq (n + 1) = d.read seq n ++ [d.kv seq n] := by
  simp [read, List.range_succ]

theorem getElem?_read : (d.read seq n)[pos]? = if pos < n then some (d.kv seq pos) else none := by
  by_cases hp : pos < n
  · simp [read, hp]
  · simp [read, hp]

/-- Two decoders that agree on the positions read the same. -/
theorem read_congr (h : ∀ p < n, d'.kv seq p = d.kv seq p) : d'.read seq n = d.read seq n :=
  List.map_congr_left fun p hp => h p (List.mem_range.mp hp)

theorem take_read {m : Nat} (h : m ≤ n) : (d.read seq n).take m = d.read seq m := by
  simp [read, ← List.map_take, List.take_range, Nat.min_eq_left h]

theorem Holds.congr {arch : Arch Cell Logits} {tokens : List Nat}
    (h : d.Holds arch seq tokens) (hkv : ∀ p < tokens.length, d'.kv seq p = d.kv seq p) :
    d'.Holds arch seq tokens :=
  (read_congr hkv).trans h

theorem Holds.take {arch : Arch Cell Logits} {tokens : List Nat}
    (h : d.Holds arch seq tokens) (n : Nat) : d.Holds arch seq (tokens.take n) := by
  show d.read seq (tokens.take n).length = arch.kvOf (tokens.take n)
  rw [Arch.kvOf_take, ← show d.read seq tokens.length = arch.kvOf tokens from h, List.length_take]
  rcases Nat.le_total n tokens.length with hn | hn
  · rw [Nat.min_eq_left hn, take_read hn]
  · rw [Nat.min_eq_right hn, List.take_of_length_le (by simp [hn])]

theorem holds_nil {arch : Arch Cell Logits} : d.Holds arch seq [] := rfl

end Read

end Decoder

end LlmPager.Serve
