import LlmPager.Serve.FailedAcquire
import LlmPager.Serve.Lockstep

/-!
# LlmPager.Serve.Handle

The requests that one warm engine serves: `handle` of `llmpager-serve/src/main.rs`, from
the point where its model is warm.

A completion is one of three things: a batch in lockstep, a turn of a session, or a
sessionless generation on slot 0. Every request is a sequence of operations of the
session store with decoder calls between them that copy nothing, so the store's own
invariants hold between requests (`reachable_store`).

The texts of a chat prompt and the sampling that a request asks for are data here; the
timings and counts of the answer beyond its tokens are left out.
-/

namespace LlmPager.Serve

open LlmPager.Lib

variable {Cell Logits : Type}

/-- The field `prompt` of a request: `array` has the strings of an array. -/
inductive PromptField
  | missing
  | text (prompt : String)
  | array (prompts : List String)
  deriving Repr, DecidableEq

namespace PromptField

/-- `as_str`. -/
def asStr : PromptField → Option String
  | text prompt => some prompt
  | _ => none

/-- `as_array`. -/
def asArray : PromptField → Option (List String)
  | array prompts => some prompts
  | _ => none

end PromptField

/-- The body of `/v1/completions` and `/v1/chat/completions`. -/
structure CompletionRequest (Logits : Type) where
  chat : Bool
  stream : Bool
  maxTokens : Option Nat
  session : Option String
  sessionId : Option String
  prompt : PromptField
  n : Option Nat
  /-- What the chat template makes of the field `messages`, when it is an array. -/
  messages : Option String
  sampling : Sampling Logits

/-- Per prompt of a batch, or for the one prompt: text, prompt tokens, completion
tokens. -/
inductive Answer
  | batch (results : List (String × Nat × Nat))
  | single (text : String) (promptTokens completionTokens : Nat)
  deriving Repr, DecidableEq

namespace CompletionRequest

variable (req : CompletionRequest Logits)

def tokenLimit : Nat := req.maxTokens.getD (if req.chat then 256 else 128)

/-- The session a request names. -/
def sessionName : Option String := req.session.orElse fun _ => req.sessionId

/-- The batch forms: `prompt` as an array, or `n > 1` of one prompt. -/
def batchPrompts : Option (List String) :=
  if req.chat ∨ req.stream then none
  else
    match req.prompt.asArray, req.n.getD 1 with
    | some v, _ => if 1 < v.length then some v else none
    | none, n => if 1 < n then req.prompt.asStr.map (List.replicate n) else none

def promptText : Except ServeError String :=
  if req.chat then
    match req.messages with
    | some text => .ok text
    | none => .error .missingMessages
  else
    match req.prompt.asStr with
    | some text => .ok text
    | none => .error .missingPrompt

end CompletionRequest

/-! ### Serving a request -/

namespace Engine

variable (arch : Arch Cell Logits) (tok : Tokenizer)

/-- A turn of a session: the context is recorded only if the generation succeeds. -/
def sessionTurn (sampling : Sampling Logits) (sid prompt : String) (maxTokens : Nat)
    (stream : Bool) : EStateM ServeError (Engine Cell Logits) (String × Nat × Nat) := do
  let ids ← tokenize tok prompt
  let (slot, reuse) ← acquire arch sid ids
  let (text, context, _, generated) ←
    generateSession arch tok sampling slot reuse ids maxTokens stream
  onSessions fun st => st.commit sid context
  pure (text, ids.length, generated)

/-- One prompt, in a session or on slot 0. A streamed answer has been sent in
fragments. -/
def single (req : CompletionRequest Logits) (prompt : String) :
    EStateM ServeError (Engine Cell Logits) Answer := do
  let (text, promptTokens, completionTokens) ←
    match req.sessionName with
    | some sid => sessionTurn arch tok req.sampling sid prompt req.tokenLimit req.stream
    | none => generate arch tok req.sampling prompt req.tokenLimit req.stream
  pure (.single (if req.stream then "" else text) promptTokens completionTokens)

/-- The completion endpoints. -/
def complete (req : CompletionRequest Logits) :
    EStateM ServeError (Engine Cell Logits) Answer :=
  match req.batchPrompts with
  | some prompts =>
      match req.sessionName with
      | some sid => throw (.sessionInBatch sid)
      | none => do
          let results ← generateBatch arch tok req.sampling prompts req.tokenLimit
          pure (.batch results)
  | none =>
      match req.promptText with
      | .error err => throw err
      | .ok prompt => single arch tok req prompt

end Engine

/-- What a client may ask of a warm engine. -/
inductive Request (Logits : Type)
  | complete (req : CompletionRequest Logits)
  /-- `DELETE /v1/sessions/{id}`. -/
  | forget (id : String)

namespace Request

/-- The session that a request is for. -/
def sessionName : Request Logits → Option String
  | complete req => req.sessionName
  | forget id => some id

/-- The prompts of a batch. -/
def batchPrompts : Request Logits → Option (List String)
  | complete req => req.batchPrompts
  | forget _ => none

/-- The engine after a request, however it ends. -/
def run (arch : Arch Cell Logits) (tok : Tokenizer) (e : Engine Cell Logits) :
    Request Logits → Engine Cell Logits
  | complete req => Engine.after (Engine.complete arch tok req) e
  | forget id => { e with sessions := (e.sessions.forget id).1 }

end Request

/-- A warm engine and the requests it serves, one at a time. -/
def engineSystem (arch : Arch Cell Logits) (tok : Tokenizer) :
    System (Engine Cell Logits) (Request Logits) where
  init e := (∃ ramBudget, e.sessions = .new arch.batchCap ramBudget) ∧ e.dec.copies = []
  step e req e' := e' = req.run arch tok e

/-! ### What a batch leaves alone -/

namespace Engine

variable (arch : Arch Cell Logits) (tok : Tokenizer) (sampling : Sampling Logits)

/-- A program that keeps a frame at every step of a run from `e`. -/
theorem keeps_changesOnly {α : Type} {touched : Nat → Nat → Prop}
    {m : EStateM ServeError (Engine Cell Logits) α} (h : Rel (ChangesOnly touched) m)
    (e : Engine Cell Logits) :
    Triple (ChangesOnly touched e) m (fun _ => ChangesOnly touched e)
      (fun _ => ChangesOnly touched e) :=
  h.keeps fun _ _ hst hes => trans_of (ChangesOnly touched) hes hst

theorem tokenizeAll_frame {touched : Nat → Nat → Prop} (prompts : List String) :
    Rel (ChangesOnly touched)
      (tokenizeAll tok prompts : EStateM ServeError (Engine Cell Logits) (List (List Nat))) :=
  .foldlM fun _ _ => .bind (tokenize_frame tok _) fun _ => .pure _

theorem decodeAll_frame {touched : Nat → Nat → Prop} (streams : List BatchStream) :
    Rel (ChangesOnly touched) (decodeAll tok streams :
      EStateM ServeError (Engine Cell Logits) (List (String × Nat × Nat))) :=
  .foldlM fun _ _ => .bind (decodeText_frame tok _) fun _ => .pure _

/-- Every prompt is prefilled on a slot of its own. -/
theorem prefillAll_frame (idss : List (List Nat)) (e : Engine Cell Logits) :
    Triple (· = e) (prefillAll arch sampling idss)
      (fun streams e' => ChangesOnly (fun s _ => s < idss.length) e e' ∧
        streams.length = idss.length)
      (fun _ => ChangesOnly (fun s _ => s < idss.length) e) := by
  refine (Triple.foldlM (I := fun done (streams : List BatchStream) e' =>
    ChangesOnly (fun s _ => s < idss.length) e e' ∧ streams.length = done.length) ?_).pre ?_
  · intro done ids rest streams hsplit
    refine .of_pre (fun e' h => h.2) fun hlen => ?_
    have hslot : streams.length < idss.length := by
      rw [hlen, hsplit]
      simp
    have hprefill : Rel (ChangesOnly fun s _ => s < idss.length)
        (prefillSlot arch sampling streams.length 0 ids
          (sampleRng (sampling.seed + UInt64.ofNat streams.length)) .indexOutOfRange) :=
      (prefillSlot_frame arch sampling _ _ ids _ _).mono fun _ _ h => h.mono fun s _ hsp =>
        hsp.1 ▸ hslot
    refine .bind ((keeps_changesOnly hprefill e).pre fun e' h => h.1) fun res => .pure fun e' h => ?_
    exact ⟨h, by simp [hlen]⟩
  · intro e' he
    subst he
    exact ⟨refl_of (ChangesOnly _) _, rfl⟩

theorem length_takeAll {streams streams' : List BatchStream} {out : List Nat}
    {lm : List (Option Logits)} (h : takeAll sampling streams out lm = .ok streams') :
    streams'.length = streams.length := by
  induction streams generalizing streams' out lm with
  | nil =>
      cases h
      rfl
  | cons st rest ih =>
      unfold takeAll at h
      split at h
      · cases hrest : takeAll sampling rest out lm with
        | error err =>
            rw [hrest] at h
            cases h
        | ok rest' =>
            rw [hrest] at h
            cases h
            simp [ih hrest]
      · cases hst : st.take sampling out.head? lm.head?.join with
        | error err =>
            rw [hst] at h
            cases h
        | ok st' =>
            cases hrest : takeAll sampling rest out.tail lm.tail with
            | error err =>
                rw [hst] at h
                simp only [bind, Except.bind, hrest] at h
                cases h
            | ok rest' =>
                rw [hst] at h
                simp only [bind, Except.bind, hrest] at h
                cases h
                simp [ih hrest]

/-- The lockstep loop writes the slots of its streams only. -/
theorem batchLoop_frame {n : Nat} (fuel : Nat) (streams : List BatchStream)
    (hlen : streams.length = n) :
    Rel (ChangesOnly fun s _ => s < n) (batchLoop arch sampling fuel streams) := by
  induction fuel generalizing streams with
  | zero => exact .pure _
  | succ fuel ih =>
      unfold batchLoop
      refine .ite (.pure _) (.bind (onDecoder_frame ?_) fun out => .get fun e => ?_)
      · refine (Decoder.stepMulti_frame arch _ _).mono fun _ _ h => h.mono fun s p hon => ?_
        obtain ⟨entry, hmem, rfl, -⟩ := hon
        obtain ⟨i, st, hget, -, rfl⟩ := mem_activeEntries.mp hmem
        have hi := (List.getElem?_eq_some_iff.mp hget).1
        rw [List.length_map] at hi
        simp only
        omega
      · cases htake : takeAll sampling (streams.map (BatchStream.push arch)) out
            e.dec.logitsMulti with
        | error err => exact .throw _
        | ok streams' =>
            refine ih streams' ?_
            rw [length_takeAll sampling htake, List.length_map, hlen]

/-- A batch that is not refused: there are slots for it, and its prompts have tokens. -/
def Accepted (prompts : List String) : Prop :=
  prompts.length ≤ arch.batchCap ∧ ∀ prompt ∈ prompts, ∃ ids, tok.encode prompt = .ok ids ∧ ids ≠ []

/-- A batch writes the first slots, one for each prompt, if it is accepted. -/
theorem generateBatch_frame (prompts : List String) (maxTokens : Nat) :
    Rel (ChangesOnly fun s _ => Accepted arch tok prompts ∧ s < prompts.length)
      (generateBatch arch tok sampling prompts maxTokens) := by
  intro e
  refine .ite (fun _ => .throw ?_) fun hcap => ?_
  · intro e' he
    subst he
    exact refl_of (ChangesOnly _) e'
  refine .bind (((tokenizeAll_frame tok prompts e).and (tokenizeAll_spec tok prompts)).weaken
    (fun _ h => ⟨h, trivial⟩) (fun _ _ h => h) fun _ _ h => h.1) fun idss => ?_
  refine .of_pre (fun _ h => h.2) fun ⟨hids, hne⟩ => ?_
  have hlen : idss.length = prompts.length := by
    simpa using (congrArg List.length hids).symm
  have haccepted : Accepted arch tok prompts := by
    refine ⟨Nat.le_of_not_lt hcap, fun prompt hmem => ?_⟩
    have hencode : tok.encode prompt ∈ idss.map Except.ok := hids ▸ List.mem_map_of_mem hmem
    obtain ⟨ids, hidsmem, hok⟩ := List.mem_map.mp hencode
    exact ⟨ids, hok.symm, hne ids hidsmem⟩
  have hsub : ∀ s (_ : Nat), s < idss.length → Accepted arch tok prompts ∧ s < prompts.length :=
    fun s _ hs => ⟨haccepted, hlen ▸ hs⟩
  intro e₁ he₁
  refine Triple.bind (P := (· = e₁)) (Q := fun streams e' =>
    ChangesOnly (fun s _ => Accepted arch tok prompts ∧ s < prompts.length) e e' ∧
      streams.length = idss.length) ((prefillAll_frame arch sampling idss e₁).weaken (fun _ h => h)
    (fun _ _ h => ⟨trans_of (ChangesOnly _) he₁.1 (h.1.mono hsub), h.2⟩)
    fun _ _ h => trans_of (ChangesOnly _) he₁.1 (h.mono hsub)) (fun streams => ?_) e₁ rfl
  refine .of_pre (fun _ h => h.2) fun hstreams => ?_
  have hloop := (batchLoop_frame arch sampling maxTokens streams hstreams).mono
    fun _ _ h => h.mono hsub
  exact .bind ((keeps_changesOnly hloop e).pre fun _ h => h.1) fun streams' =>
    keeps_changesOnly (decodeAll_frame tok streams') e

/-! ### Requests are operations of the store -/

section Store

/-- Decoder calls that copy nothing. -/
theorem keeps_reachable {α : Type} {touched : Nat → Nat → Prop}
    {m : EStateM ServeError (Engine Cell Logits) α} (h : Rel (ChangesOnly touched) m) :
    Triple ((storeSystem arch).Reachable System.anyStep) m
      (fun _ => (storeSystem arch).Reachable System.anyStep)
      (fun _ => (storeSystem arch).Reachable System.anyStep) :=
  h.keeps fun _ _ hst hes => @System.Reachable.step _ _ _ _ _ _ none hes trivial
    ⟨hst.sessions, hst.dec.copies⟩

theorem acquire_reachable (id : String) (prompt : List Nat) :
    Triple ((storeSystem arch).Reachable System.anyStep) (acquire arch id prompt)
      (fun _ => (storeSystem arch).Reachable System.anyStep)
      (fun _ => (storeSystem arch).Reachable System.anyStep) := by
  have hstep : ∀ e, (storeSystem arch).Reachable System.anyStep e →
      (storeSystem arch).Reachable System.anyStep (Engine.after (acquire arch id prompt) e) :=
    fun e he => @System.Reachable.step _ _ _ _ _ _ (some (.acquire id prompt)) he trivial rfl
  refine .of_runs (fun e _ e' he hrun => ?_) fun e _ e' he hrun => ?_
  · have h := hstep e he
    rwa [Engine.after, hrun] at h
  · have h := hstep e he
    rwa [Engine.after, hrun] at h

theorem sessionTurn_reachable (sid prompt : String) (maxTokens : Nat) (stream : Bool) :
    Triple ((storeSystem arch).Reachable System.anyStep)
      (sessionTurn arch tok sampling sid prompt maxTokens stream)
      (fun _ => (storeSystem arch).Reachable System.anyStep)
      (fun _ => (storeSystem arch).Reachable System.anyStep) := by
  refine .bind (keeps_reachable arch (@tokenize_frame _ _ (fun _ _ => False) tok prompt))
    fun ids => .bind (acquire_reachable arch sid ids) fun res => ?_
  refine .bind (keeps_reachable arch
    (generateSession_frame arch tok sampling res.1 res.2 ids maxTokens stream)) fun out => ?_
  refine .bind (Q := fun _ => (storeSystem arch).Reachable System.anyStep) (.modify fun e he => ?_)
    fun _ => .pure fun _ h => h
  exact @System.Reachable.step _ _ _ _ _ _ (some (.commit sid out.2.1)) he trivial rfl

theorem single_reachable (req : CompletionRequest Logits) (prompt : String) :
    Triple ((storeSystem arch).Reachable System.anyStep) (single arch tok req prompt)
      (fun _ => (storeSystem arch).Reachable System.anyStep)
      (fun _ => (storeSystem arch).Reachable System.anyStep) := by
  unfold single
  cases req.sessionName with
  | some sid =>
      exact .bind (sessionTurn_reachable arch tok req.sampling sid prompt _ _) fun _ =>
        .pure fun _ h => h
  | none =>
      exact .bind (keeps_reachable arch (generate_frame arch tok req.sampling prompt _ _)) fun _ =>
        .pure fun _ h => h

theorem complete_reachable (req : CompletionRequest Logits) :
    Triple ((storeSystem arch).Reachable System.anyStep) (complete arch tok req)
      (fun _ => (storeSystem arch).Reachable System.anyStep)
      (fun _ => (storeSystem arch).Reachable System.anyStep) := by
  unfold complete
  cases req.batchPrompts with
  | some prompts =>
      cases req.sessionName with
      | some sid => exact .throw fun _ h => h
      | none =>
          exact .bind (keeps_reachable arch
            (generateBatch_frame arch tok req.sampling prompts req.tokenLimit)) fun _ =>
              .pure fun _ h => h
  | none =>
      cases req.promptText with
      | error err => exact .throw fun _ h => h
      | ok prompt => exact single_reachable arch tok req prompt

end Store

end Engine

theorem Request.reachable_run {arch : Arch Cell Logits} {tok : Tokenizer} {e : Engine Cell Logits}
    (he : (storeSystem arch).Reachable System.anyStep e) (req : Request Logits) :
    (storeSystem arch).Reachable System.anyStep (req.run arch tok e) := by
  cases req with
  | complete req =>
      exact Engine.of_after ((Engine.complete_reachable arch tok req).pre fun _ h => h ▸ he)
  | forget id => exact @System.Reachable.step _ _ _ _ _ _ (some (.forget id)) he trivial rfl

/-- Between requests the store is in a state that its operations reach, whatever the
requests. -/
theorem reachable_store {arch : Arch Cell Logits} {tok : Tokenizer} {e : Engine Cell Logits}
    {C : Engine Cell Logits → Request Logits → Prop} (h : (engineSystem arch tok).Reachable C e) :
    (storeSystem arch).Reachable System.anyStep e := by
  refine h.invariant (fun e he => .init he) ?_
  intro e req e' he _ hstep
  obtain rfl : e' = req.run arch tok e := hstep
  exact req.reachable_run he

end LlmPager.Serve
