import LlmPager.Serve.GenerateSpec

/-!
# LlmPager.Serve.Lockstep

`generate_batch` against `generate`. Streams of a batch share every step but not
their slots, so what one stream writes depends on its own prompt only: a batch is
the list of its streams, each run on its own (`BatchStream.step`).

A stream run in a batch and a prompt run alone test the end of the context at
different places. They agree below `max_seq`; a prompt that fills it exactly still
gets one token from `generate` and none from `generate_batch`. And a batch of more
than `chunk_cap` streams is refused at its first lockstep round.
-/

namespace LlmPager.Serve

open LlmPager.Lib

variable {Cell Logits : Type} (arch : Arch Cell Logits) (sampling : Sampling Logits)

/-- The settings of stream `s`: its seed is offset. -/
def Sampling.offset (s : Nat) : Sampling Logits :=
  { sampling with seed := sampling.seed + UInt64.ofNat s }

/-! ### One stream on its own -/

namespace BatchStream

/-- One round of a stream whose slot holds its tokens. -/
def step (st : BatchStream) : BatchStream :=
  let st := st.push arch
  if st.done then st
  else
    let chosen := choose arch sampling (st.ids ++ st.outIds) st.outIds st.rng
    { st with next := chosen.1, rng := chosen.2, pos := st.pos + 1 }

/-- A stream after its prefill. -/
def start (ids : List Nat) : BatchStream :=
  { ids, next := (firstChoice arch sampling ids).1, rng := (firstChoice arch sampling ids).2,
    outIds := [], done := false, pos := ids.length }

variable {arch sampling} {st : BatchStream}

theorem push_of_done (h : st.done) : st.push arch = st := by simp [push, h]

theorem push_ids : (st.push arch).ids = st.ids := by
  unfold push
  split <;> [rfl; split <;> rfl]

/-- A stream that goes on has written its token. -/
theorem push_active (h : (st.push arch).done = false) :
    st.done = false ∧ st.next ∉ arch.eos ∧ st.pos < arch.maxSeq ∧
      st.push arch = { st with outIds := st.outIds ++ [st.next] } := by
  unfold push at h ⊢
  by_cases hdone : st.done
  · simp [hdone] at h
  · by_cases hstop : st.next ∈ arch.eos ∨ arch.maxSeq ≤ st.pos
    · simp [hdone, hstop] at h
    · simp only [not_or, Nat.not_le] at hstop
      simp [hdone, hstop]

theorem step_of_done (h : (st.push arch).done) : st.step arch sampling = st.push arch := by
  simp [step, h]

theorem step_active (h : (st.push arch).done = false) :
    st.step arch sampling =
      let chosen := choose arch sampling (st.ids ++ (st.outIds ++ [st.next]))
        (st.outIds ++ [st.next]) st.rng
      { st with outIds := st.outIds ++ [st.next], next := chosen.1, rng := chosen.2,
                pos := st.pos + 1 } := by
  have hpush := (push_active h).2.2.2
  have hdone := (push_active h).1
  simp only [step, hpush, hdone, Bool.false_eq_true, if_false]

theorem step_ids : (st.step arch sampling).ids = st.ids := by
  cases h : (st.push arch).done with
  | true => rw [step_of_done h, push_ids]
  | false => rw [step_active h]

theorem iterate_step_ids (fuel : Nat) : ((step arch sampling)^[fuel] st).ids = st.ids := by
  induction fuel generalizing st with
  | zero => rfl
  | succ fuel ih => rw [Function.iterate_succ_apply, ih, step_ids]

/-- A retired stream stays retired. -/
theorem step_retired (h : (st.push arch).done) : ((st.step arch sampling).push arch).done := by
  rw [step_of_done h, push_of_done h]
  exact h

/-- `pos` counts the tokens of the stream. -/
def Counts (st : BatchStream) : Prop := st.done = false → st.pos = st.ids.length + st.outIds.length

theorem Counts.step (h : st.Counts) : (st.step arch sampling).Counts := by
  intro hactive
  cases hpush : (st.push arch).done with
  | true =>
      rw [step_of_done hpush, hpush] at hactive
      cases hactive
  | false =>
      have hpos := h (push_active hpush).1
      rw [step_active hpush]
      simp
      omega

theorem iterate_step_of_retired (h : (st.push arch).done) (fuel : Nat) :
    ((step arch sampling)^[fuel] st).outIds = st.outIds := by
  have hout : (st.push arch).outIds = st.outIds := by
    unfold push at h ⊢
    by_cases hdone : st.done
    · simp [hdone]
    · by_cases hstop : st.next ∈ arch.eos ∨ arch.maxSeq ≤ st.pos
      · simp [hdone, hstop]
      · simp [hdone, hstop] at h
  induction fuel generalizing st with
  | zero => rfl
  | succ fuel ih =>
      rw [Function.iterate_succ_apply, step_of_done h,
        ih (by rwa [push_of_done h]) (by rw [push_of_done h])]
      exact hout

/-- What a stream writes is what `generate` writes, as long as there is room for
one more token. -/
theorem iterate_step_outIds (hcount : st.Counts) (hactive : st.done = false)
    (hroom : st.ids.length + st.outIds.length < arch.maxSeq) (fuel : Nat) :
    ((step arch sampling)^[fuel] st).outIds =
      soloTokens arch sampling st.ids fuel st.outIds st.next st.rng := by
  induction fuel generalizing st with
  | zero => rfl
  | succ fuel ih =>
      have hpos := hcount hactive
      unfold soloTokens
      by_cases heos : st.next ∈ arch.eos
      · rw [if_pos heos]
        exact iterate_step_of_retired (by simp [push, hactive, heos]) _
      rw [if_neg heos, Function.iterate_succ_apply]
      have hpush : (st.push arch).done = false := by
        simp [push, hactive, heos, show ¬arch.maxSeq ≤ st.pos by omega]
      have hstep : st.step arch sampling = _ := step_active hpush
      by_cases hend : arch.maxSeq ≤ st.ids.length + st.outIds.length + 1
      · -- the context is full: the stream retires in the next round
        rw [if_pos hend, iterate_step_of_retired, hstep]
        simp [hstep, push, hactive, show arch.maxSeq ≤ st.pos + 1 by omega]
      · rw [if_neg hend, ih hcount.step (by simp [hstep, hactive]), hstep]
        simp only [hstep, List.length_append, List.length_singleton]
        omega

/-- A prompt with room behind it gets the same tokens in a batch as alone. -/
theorem iterate_start_outIds {ids : List Nat} (hroom : ids.length < arch.maxSeq) (maxTokens : Nat) :
    ((step arch sampling)^[maxTokens] (start arch sampling ids)).outIds =
      soloAnswer arch sampling ids maxTokens :=
  iterate_step_outIds (fun _ => rfl) rfl (by simpa [start] using hroom) maxTokens

/-- Alone and in a batch the same tokens are written, unless the prompt fills the
context and its first token is not EOS: then `generate` writes that token. -/
theorem iterate_start_eq_iff {ids : List Nat} (hle : ids.length ≤ arch.maxSeq) (maxTokens : Nat) :
    (((step arch sampling)^[maxTokens] (start arch sampling ids)).outIds.length =
        (soloAnswer arch sampling ids maxTokens).length ↔
      maxTokens = 0 ∨ ids.length < arch.maxSeq ∨ (firstChoice arch sampling ids).1 ∈ arch.eos) ∧
    (maxTokens = 0 ∨ ids.length < arch.maxSeq ∨ (firstChoice arch sampling ids).1 ∈ arch.eos →
      ((step arch sampling)^[maxTokens] (start arch sampling ids)).outIds =
        soloAnswer arch sampling ids maxTokens) := by
  have hsame : maxTokens = 0 ∨ ids.length < arch.maxSeq ∨
      (firstChoice arch sampling ids).1 ∈ arch.eos →
      ((step arch sampling)^[maxTokens] (start arch sampling ids)).outIds =
        soloAnswer arch sampling ids maxTokens := by
    rintro (rfl | hroom | heos)
    · rfl
    · exact iterate_start_outIds hroom maxTokens
    · rw [iterate_step_of_retired (by simp [start, push, heos])]
      cases maxTokens with
      | zero => rfl
      | succ n => simp [start, soloAnswer, soloTokens, heos]
  refine ⟨⟨fun hlen => ?_, fun h => by rw [hsame h]⟩, hsame⟩
  by_contra hfull
  simp only [not_or, Nat.not_lt] at hfull
  obtain ⟨hmax, hroom, heos⟩ := hfull
  obtain ⟨n, rfl⟩ := Nat.exists_eq_succ_of_ne_zero hmax
  rw [iterate_step_of_retired (by simp [start, push, hroom]), soloAnswer, soloTokens, if_neg heos,
    if_pos (by simp; omega)] at hlen
  simp [start] at hlen

end BatchStream

/-! ### All streams together -/

theorem mem_activeEntries {streams : List BatchStream} {k : Nat} {e : Entry} :
    e ∈ activeEntries streams k ↔ ∃ i st, streams[i]? = some st ∧ st.done = false ∧
      e = { token := st.next, pos := st.pos, seq := k + i } := by
  induction streams generalizing k with
  | nil => simp [activeEntries]
  | cons st rest ih =>
      -- the head is at `k`, the rest from `k + 1` on
      have hsplit : (∃ i st', (st :: rest)[i]? = some st' ∧ st'.done = false ∧
            e = { token := st'.next, pos := st'.pos, seq := k + i }) ↔
          (st.done = false ∧ e = { token := st.next, pos := st.pos, seq := k }) ∨
            e ∈ activeEntries rest (k + 1) := by
        rw [ih]
        constructor
        · rintro ⟨i, st', hget, hactive, rfl⟩
          cases i with
          | zero =>
              cases hget
              exact .inl ⟨hactive, rfl⟩
          | succ i => exact .inr ⟨i, st', hget, hactive, by rw [Nat.add_assoc, Nat.add_comm 1 i]⟩
        · rintro (⟨hactive, rfl⟩ | ⟨i, st', hget, hactive, rfl⟩)
          · exact ⟨0, st, rfl, hactive, rfl⟩
          · exact ⟨i + 1, st', hget, hactive, by rw [Nat.add_assoc, Nat.add_comm 1 i]⟩
      rw [hsplit, activeEntries]
      by_cases hdone : st.done
      · simp [hdone]
      · simp [hdone]

theorem activeEntries_pairwise (streams : List BatchStream) (k : Nat) :
    (activeEntries streams k).Pairwise fun e e' => e.seq ≠ e'.seq := by
  induction streams generalizing k with
  | nil => exact .nil
  | cons st rest ih =>
      unfold activeEntries
      by_cases hdone : st.done
      · rw [if_pos hdone]
        exact ih (k + 1)
      · rw [if_neg hdone, List.pairwise_cons]
        refine ⟨fun e he => ?_, ih (k + 1)⟩
        obtain ⟨i, st', -, -, rfl⟩ := mem_activeEntries.mp he
        simp only
        omega

theorem length_activeEntries (streams : List BatchStream) (k : Nat) :
    (activeEntries streams k).length = streams.countP fun st => !st.done := by
  induction streams generalizing k with
  | nil => rfl
  | cons st rest ih =>
      unfold activeEntries
      by_cases hdone : st.done
      · simp [hdone, ih]
      · simp [hdone, ih]

/-- The stream takes the token chosen behind its own tokens. -/
def BatchStream.advance (st : BatchStream) : BatchStream :=
  if st.done then st
  else
    let chosen := choose arch sampling (st.ids ++ st.outIds) st.outIds st.rng
    { st with next := chosen.1, rng := chosen.2, pos := st.pos + 1 }

/-- When the step gave every slot the logits behind its tokens, every stream
takes its own token. -/
theorem takeAll_eq {streams : List BatchStream} {k : Nat} (logits : Entry → Logits)
    (h : ∀ i st, streams[i]? = some st → st.done = false →
      logits { token := st.next, pos := st.pos, seq := k + i } =
        arch.logitsOf (st.ids ++ st.outIds)) :
    takeAll sampling streams ((activeEntries streams k).map fun e => arch.argmax (logits e))
        ((activeEntries streams k).map fun e => some (logits e)) =
      .ok (streams.map (BatchStream.advance arch sampling)) := by
  induction streams generalizing k with
  | nil => rfl
  | cons st rest ih =>
      have hrest := ih (k := k + 1) fun i st' hget hactive => by
        have := h (i + 1) st' hget hactive
        rwa [Nat.add_assoc, Nat.add_comm 1 i]
      unfold takeAll activeEntries
      by_cases hdone : st.done
      · simp only [hdone, if_true]
        rw [hrest]
        simp [BatchStream.advance, hdone, bind, Except.bind, pure, Except.pure]
      · have hst := h 0 st rfl (by simpa using hdone)
        simp only [hdone, Bool.false_eq_true, if_false, List.map_cons, List.head?_cons,
          List.tail_cons, Option.join_some]
        rw [hrest]
        rw [Nat.add_zero] at hst
        have htake : st.take sampling (some (arch.argmax (logits ⟨st.next, st.pos, k⟩)))
            (some (logits ⟨st.next, st.pos, k⟩)) = .ok (st.advance arch sampling) := by
          rw [hst]
          by_cases hgreedy : sampling.plainGreedy
          · simp [BatchStream.take, BatchStream.advance, choose, hgreedy, hdone]
          · simp [BatchStream.take, BatchStream.advance, choose, hgreedy, hdone]
        rw [htake]
        rfl

/-- Every active stream's slot holds its tokens. -/
def AllReady (d : Decoder Cell Logits) (streams : List BatchStream) : Prop :=
  ∀ i st, streams[i]? = some st → st.done = false →
    st.pos = st.ids.length + st.outIds.length ∧ d.Holds arch i (st.ids ++ st.outIds)

section Round

variable {arch sampling} {d : Decoder Cell Logits} {streams : List BatchStream}

/-- An active stream of a round, before and after it wrote its token. -/
theorem active_of_push {i : Nat} {st : BatchStream}
    (hget : (streams.map (BatchStream.push arch))[i]? = some st) (hactive : st.done = false) :
    ∃ st₀, streams[i]? = some st₀ ∧ st₀.done = false ∧ st₀.pos < arch.maxSeq ∧
      (st₀.push arch).done = false ∧ st = { st₀ with outIds := st₀.outIds ++ [st₀.next] } := by
  rw [List.getElem?_map, Option.map_eq_some_iff] at hget
  obtain ⟨st₀, hget, rfl⟩ := hget
  obtain ⟨hdone, -, hpos, heq⟩ := BatchStream.push_active hactive
  exact ⟨st₀, hget, hdone, hpos, hactive, heq⟩

/-- The step of a round: the streams take the tokens chosen behind their own, and
their slots hold them. -/
theorem AllReady.round (h : AllReady arch d streams) :
    let entries := activeEntries (streams.map (BatchStream.push arch)) 0
    let d' := Decoder.stepped arch d entries true
    takeAll sampling (streams.map (BatchStream.push arch))
        (d'.logitsMulti.map fun l => (l.map arch.argmax).getD 0) d'.logitsMulti =
      .ok (streams.map (BatchStream.step arch sampling)) ∧
    AllReady arch d' (streams.map (BatchStream.step arch sampling)) := by
  intro entries d'
  obtain ⟨hmulti, hholds⟩ := Decoder.stepped_distinct arch
    (activeEntries_pairwise (streams.map (BatchStream.push arch)) 0) d
  constructor
  · show takeAll sampling _ (d'.logitsMulti.map _) d'.logitsMulti = _
    rw [show d'.logitsMulti = _ from hmulti, List.map_map]
    refine (takeAll_eq arch sampling (fun e => arch.logits (d.read e.seq e.pos) e.token)
      fun i st hget hactive => ?_).trans (by rw [List.map_map]; rfl)
    obtain ⟨st₀, hget₀, hdone, -, -, rfl⟩ := active_of_push hget hactive
    obtain ⟨hpos, hslot⟩ := h i st₀ hget₀ hdone
    have hread : d.read i st₀.pos = arch.kvOf (st₀.ids ++ st₀.outIds) := by
      rw [hpos, ← List.length_append]
      exact hslot
    simp only [Nat.zero_add, hread]
    rw [← List.append_assoc, Arch.logitsOf_concat]
  · intro i st hget hactive
    rw [List.getElem?_map, Option.map_eq_some_iff] at hget
    obtain ⟨st₀, hget, rfl⟩ := hget
    cases hpush : (st₀.push arch).done with
    | true =>
        rw [BatchStream.step_of_done hpush, hpush] at hactive
        cases hactive
    | false =>
        obtain ⟨hpos, hslot⟩ := h i st₀ hget (BatchStream.push_active hpush).1
        have hentry : { token := st₀.next, pos := st₀.pos, seq := i } ∈ entries := by
          have heq := (BatchStream.push_active hpush).2.2.2
          refine mem_activeEntries.mpr ⟨i, st₀.push arch, by simp [hget], hpush, ?_⟩
          rw [heq, Nat.zero_add]
        have hafter := hholds _ hentry (st₀.ids ++ st₀.outIds) (by simp [hpos]) hslot
        rw [BatchStream.step_active hpush]
        rw [List.append_assoc] at hafter
        refine ⟨?_, hafter⟩
        simp only [List.length_append, List.length_singleton]
        omega

end Round

/-- The streams after the prefills: each prompt on its own slot. -/
def started (idss : List (List Nat)) : List BatchStream :=
  idss.mapIdx fun s ids => .start arch (sampling.offset s) ids

/-- The streams that a lockstep round would step. -/
def activeCount (streams : List BatchStream) : Nat :=
  (activeEntries (streams.map (BatchStream.push arch)) 0).length

theorem activeCount_step (streams : List BatchStream) :
    activeCount arch (streams.map (BatchStream.step arch sampling)) ≤ activeCount arch streams := by
  unfold activeCount
  rw [length_activeEntries, length_activeEntries, List.countP_map, List.countP_map, List.countP_map]
  refine List.countP_mono_left fun st _ h => ?_
  cases hpush : (st.push arch).done with
  | true => simp [BatchStream.step_retired hpush] at h
  | false => simp [hpush]

theorem iterate_step_of_activeCount {streams : List BatchStream} (h : activeCount arch streams = 0)
    (fuel : Nat) :
    streams.map (BatchStream.step arch sampling)^[fuel + 1] = streams.map (BatchStream.push arch) := by
  refine List.map_congr_left fun st hst => ?_
  have hdone : (st.push arch).done := by
    unfold activeCount at h
    rw [length_activeEntries, List.countP_eq_zero] at h
    simpa using h _ (List.mem_map_of_mem hst)
  rw [Function.iterate_succ_apply, BatchStream.step_of_done hdone]
  refine Function.iterate_fixed ?_ fuel
  have hpush : (st.push arch).push arch = st.push arch := BatchStream.push_of_done hdone
  rw [BatchStream.step_of_done (by rwa [hpush]), hpush]

namespace Engine

/-- The lockstep loop runs every stream on its own, unless a round has more
entries than a step takes. -/
theorem batchLoop_spec (fuel : Nat) (streams : List BatchStream) :
    Triple (fun e => AllReady arch e.dec streams) (batchLoop arch sampling fuel streams)
      (fun streams' _ => (fuel = 0 ∨ activeCount arch streams ≤ chunkCap) ∧
        streams' = streams.map (BatchStream.step arch sampling)^[fuel])
      (fun _ _ => (0 < fuel ∧ chunkCap < activeCount arch streams) ∨
        arch.batchCap < streams.length ∨ arch.Faulty) := by
  induction fuel generalizing streams with
  | zero => exact .pure fun _ _ => ⟨.inl rfl, by simp⟩
  | succ fuel ih =>
      unfold batchLoop
      refine .ite (fun hnil => ?_) fun hne => ?_
      · -- every stream has retired
        have hcount : activeCount arch streams = 0 := by simp [activeCount, hnil]
        exact .pure fun _ _ =>
          ⟨.inr (by omega), (iterate_step_of_activeCount arch sampling hcount fuel).symm⟩
      let entries := activeEntries (streams.map (BatchStream.push arch)) 0
      have hstep : Triple (fun d => AllReady arch d streams) (Decoder.stepMulti arch entries true)
          (fun out d => activeCount arch streams ≤ chunkCap ∧
            takeAll sampling (streams.map (BatchStream.push arch)) out d.logitsMulti =
              .ok (streams.map (BatchStream.step arch sampling)) ∧
            AllReady arch d (streams.map (BatchStream.step arch sampling)))
          (fun _ _ => chunkCap < activeCount arch streams ∨ arch.batchCap < streams.length ∨
            arch.Faulty) := by
        intro d hd
        refine (Decoder.stepMulti_spec arch entries true d).weaken (fun _ hs => hs) ?_ ?_ d rfl
        · rintro out d' ⟨hok, rfl, rfl⟩
          exact ⟨Nat.not_lt.mp fun hcap => hok (.inr (.inl hcap)), hd.round⟩
        · rintro _ _ ((hnil | hcap | ⟨e, he, hbound⟩) | hfault)
          · exact absurd hnil hne
          · exact .inl hcap
          · -- active streams are below `max_seq`, and their slots are their indices
            obtain ⟨i, st, hget, hactive, rfl⟩ := mem_activeEntries.mp he
            obtain ⟨st₀, hget₀, -, hpos, -, rfl⟩ := active_of_push hget hactive
            have hi := (List.getElem?_eq_some_iff.mp hget₀).1
            simp only at hbound
            exact .inr (.inl (by omega))
          · exact .inr (.inr hfault)
      refine .bind ((onDecoder_triple hstep).weaken (fun _ h => h) (fun _ _ h => h)
        fun _ _ h => h.imp (fun h => ⟨Nat.succ_pos _, h⟩) id) fun out => .get fun e he => ?_
      obtain ⟨hcap, htake, hready⟩ := he
      rw [htake]
      refine (ih (streams.map (BatchStream.step arch sampling))).weaken (fun s hs => hs ▸ hready) ?_ ?_
      · rintro streams' _ ⟨-, rfl⟩
        refine ⟨.inr hcap, ?_⟩
        rw [List.map_map]
        exact List.map_congr_left fun st _ => (Function.iterate_succ_apply _ fuel st).symm
      · rintro _ _ (⟨-, hcount⟩ | hrest)
        · have := activeCount_step arch sampling streams
          omega
        · exact .inr (by simpa using hrest)

theorem tokenizeAll_spec (tok : Tokenizer) (prompts : List String) :
    Triple (fun _ : Engine Cell Logits => True) (tokenizeAll tok prompts)
      (fun idss _ => prompts.map tok.encode = idss.map .ok ∧ ∀ ids ∈ idss, ids ≠ [])
      (fun _ _ => ∃ prompt ∈ prompts, ∀ ids, tok.encode prompt = .ok ids → ids = []) := by
  refine (Triple.foldlM (I := fun done (idss : List (List Nat)) _ =>
    done.map tok.encode = idss.map .ok ∧ ∀ ids ∈ idss, ids ≠ []) ?_).pre fun _ _ => ⟨rfl, nofun⟩
  intro done prompt rest idss hsplit
  refine .bind ((tokenize_spec tok prompt).weaken (fun _ h => h) (fun _ _ h => h) fun _ _ h => ?_)
    fun ids => .pure fun e he => ?_
  · exact ⟨prompt, by simp [hsplit], h⟩
  · obtain ⟨⟨hmap, hne⟩, hids, hnil⟩ := he
    refine ⟨by simp [hmap, hids], fun v hv => ?_⟩
    rcases List.mem_append.mp hv with hv | hv
    · exact hne v hv
    · rw [List.mem_singleton.mp hv]
      exact hnil

theorem decodeAll_spec (tok : Tokenizer) (streams : List BatchStream) :
    Triple (fun _ : Engine Cell Logits => True) (decodeAll tok streams)
      (fun res _ => streams.map (fun st => tok.decode st.outIds) = res.map (fun r => .ok r.1) ∧
        res.map (·.2) = streams.map fun st => (st.ids.length, st.outIds.length))
      (fun _ _ => ∃ st ∈ streams, ∀ text, tok.decode st.outIds ≠ .ok text) := by
  refine (Triple.foldlM (I := fun (done : List BatchStream) (res : List (String × Nat × Nat)) _ =>
    done.map (fun st => tok.decode st.outIds) = res.map (fun r => .ok r.1) ∧
      res.map (·.2) = done.map fun st => (st.ids.length, st.outIds.length)) ?_).pre
      fun _ _ => ⟨rfl, rfl⟩
  intro done st rest res hsplit
  refine .bind ((decodeText_spec tok st.outIds).weaken (fun _ h => h) (fun _ _ h => h)
    fun _ _ h => ?_) fun text => .pure fun e he => ?_
  · exact ⟨st, by simp [hsplit], h⟩
  · obtain ⟨⟨htexts, hcounts⟩, htext⟩ := he
    exact ⟨by simp [htexts, htext], by simp [hcounts]⟩

theorem prefillAll_spec {idss : List (List Nat)} (hne : ∀ ids ∈ idss, ids ≠ []) :
    Triple (fun _ => True) (prefillAll arch sampling idss)
      (fun streams e => streams = started arch sampling idss ∧ AllReady arch e.dec streams)
      (fun _ _ => (∃ ids ∈ idss, arch.maxSeq < ids.length) ∨ arch.batchCap < idss.length ∨
        arch.Faulty) := by
  let Inv (done : List (List Nat)) (streams : List BatchStream) (e : Engine Cell Logits) : Prop :=
    streams = started arch sampling done ∧ ∀ s ids, done[s]? = some ids → e.dec.Holds arch s ids
  have hloop : Triple (Inv [] []) (prefillAll arch sampling idss) (Inv idss)
      (fun _ _ => (∃ ids ∈ idss, arch.maxSeq < ids.length) ∨ arch.batchCap < idss.length ∨
        arch.Faulty) := by
    unfold prefillAll
    refine .foldlM (I := Inv) ?_
    intro done ids rest streams hsplit
    refine .of_pre (fun e he => he.1) fun hstreams => ?_
    have hlen : streams.length = done.length := by simp [hstreams, started]
    have hmem : ids ∈ idss := by simp [hsplit]
    have hfill := (prefillSlot_spec arch sampling streams.length
      (List.length_pos_iff.mpr (hne ids hmem)) (sampleRng (sampling.offset streams.length).seed)
      .indexOutOfRange).and ((prefillSlot_frame arch sampling streams.length 0 ids
        (sampleRng (sampling.offset streams.length).seed) .indexOutOfRange).keeps
        (P := fun e => ∀ s ids, done[s]? = some ids → e.dec.Holds arch s ids) ?_)
    · refine .bind (hfill.weaken (fun e he => ⟨Decoder.holds_nil, he.2⟩) (fun _ _ h => h) ?_)
        fun b => .pure fun e he => ?_
      · rintro _ _ ⟨hbound | hslot | hfault, -⟩
        · exact .inl ⟨ids, hmem, hbound⟩
        · have := congrArg List.length hsplit
          simp only [List.length_append, List.length_cons] at this
          exact .inr (.inl (by omega))
        · exact .inr (.inr hfault)
      · obtain ⟨⟨hholds, -, hchosen⟩, hothers⟩ := he
        have hchosen : (b.1, b.2.1) = firstChoice arch (sampling.offset streams.length) ids := hchosen
        refine ⟨?_, fun s ids' hget => ?_⟩
        · rw [started, List.mapIdx_concat, ← hlen, BatchStream.start, ← hchosen]
          exact congrArg (· ++ _) hstreams
        · rcases Nat.lt_or_ge s done.length with hs | hs
          · rw [List.getElem?_append_left hs] at hget
            exact hothers s ids' hget
          · rw [List.getElem?_append_right hs] at hget
            cases hk : s - done.length with
            | zero =>
                rw [hk] at hget
                cases hget
                rw [show s = streams.length by omega]
                exact hholds
            | succ k => simp [hk] at hget
    · intro e e' h he s ids' hget
      refine (he s ids' hget).of_changesOnly arch h.dec fun p _ hsp => ?_
      have := (List.getElem?_eq_some_iff.mp hget).1
      omega
  refine hloop.weaken (fun e _ => ⟨rfl, nofun⟩) (fun streams e he => ⟨he.1, ?_⟩) fun _ _ h => h
  obtain ⟨rfl, hholds⟩ := he
  intro i st hget _
  rw [started, List.getElem?_mapIdx, Option.map_eq_some_iff] at hget
  obtain ⟨ids, hget, rfl⟩ := hget
  exact ⟨rfl, by simpa [BatchStream.start] using hholds i ids hget⟩

/-- **`generate_batch`.** What it returns, and every way it can fail. -/
theorem generateBatch_spec (tok : Tokenizer) (prompts : List String) (maxTokens : Nat) :
    Triple (fun _ => True) (generateBatch arch tok sampling prompts maxTokens)
      (fun res _ => ∃ idss, prompts.map tok.encode = idss.map .ok ∧
        (maxTokens = 0 ∨ activeCount arch (started arch sampling idss) ≤ chunkCap) ∧
        res.map (fun r => Except.ok r.1) =
          (started arch sampling idss).map (fun st =>
            tok.decode ((BatchStream.step arch sampling)^[maxTokens] st).outIds) ∧
        res.map (·.2) = (started arch sampling idss).map (fun st =>
          (st.ids.length, ((BatchStream.step arch sampling)^[maxTokens] st).outIds.length)))
      (fun _ _ => arch.batchCap < prompts.length ∨
        (∃ prompt ∈ prompts, ∀ ids, tok.encode prompt = .ok ids → ids = []) ∨
        ∃ idss, prompts.map tok.encode = idss.map .ok ∧
          ((∃ ids ∈ idss, arch.maxSeq < ids.length) ∨
            (0 < maxTokens ∧ chunkCap < activeCount arch (started arch sampling idss)) ∨
            arch.Faulty ∨ ∃ st ∈ started arch sampling idss, ∀ text,
              tok.decode ((BatchStream.step arch sampling)^[maxTokens] st).outIds ≠ .ok text)) := by
  refine .ite (fun hcap => .throw fun _ _ => .inl hcap) fun hcap => ?_
  refine .bind ((tokenizeAll_spec tok prompts).weaken (fun _ h => h) (fun _ _ h => h)
    fun _ _ h => .inr (.inl h)) fun idss => .of_pre (fun _ h => h) fun ⟨hids, hne⟩ => ?_
  have hlen : prompts.length = idss.length := by simpa using congrArg List.length hids
  refine .bind ((prefillAll_spec arch sampling hne).weaken (fun _ _ => trivial) (fun _ _ h => h)
    fun _ _ h => ?_) fun streams => .of_pre (fun _ h => h.1) fun hstarted => ?_
  · rcases h with h | h | h
    · exact .inr (.inr ⟨idss, hids, .inl h⟩)
    · exact .inl (by omega)
    · exact .inr (.inr ⟨idss, hids, .inr (.inr (.inl h))⟩)
  subst hstarted
  refine .bind ((batchLoop_spec arch sampling maxTokens _).weaken (fun _ h => h.2) (fun _ _ h => h)
    fun _ _ h => ?_) fun streams => .of_pre (fun _ h => h) fun ⟨hcount, hstreams⟩ => ?_
  · rcases h with h | h | h
    · exact .inr (.inr ⟨idss, hids, .inr (.inl h)⟩)
    · exact .inl (by simpa [started, hlen] using h)
    · exact .inr (.inr ⟨idss, hids, .inr (.inr (.inl h))⟩)
  subst hstreams
  refine (decodeAll_spec tok _).weaken (fun _ _ => trivial) (fun res _ h => ?_) fun _ _ h => ?_
  · obtain ⟨htexts, hcounts⟩ := h
    rw [List.map_map] at htexts hcounts
    refine ⟨idss, hids, ?_, htexts.symm, hcounts.trans ?_⟩
    · exact hcount
    · exact List.map_congr_left fun st _ => by simp [BatchStream.iterate_step_ids]
  · obtain ⟨_, hmem, htext⟩ := h
    obtain ⟨st, hst, rfl⟩ := List.mem_map.mp hmem
    exact .inr (.inr ⟨idss, hids, .inr (.inr (.inr ⟨st, hst, htext⟩))⟩)

end Engine

/-! ### A batch against its prompts alone -/

section Agreement

variable (tok : Tokenizer) (prompts : List String) (maxTokens : Nat)

/-- `generate` accepts every prompt alone, with its stream's seed, and returns
`results`. -/
structure SoloResults (results : List (String × Nat × Nat)) : Prop where
  length : results.length = prompts.length
  runs : ∀ s prompt, prompts[s]? = some prompt →
    ∃ res stream, ∃ e e' : Engine Cell Logits, results[s]? = some res ∧
      Engine.generate arch tok (sampling.offset s) prompt maxTokens stream e = .ok res e'

/-- Whether the decoder's first choice behind the prompt of stream `s` is not EOS. -/
def goesOn (s : Nat) (prompt : String) : Bool :=
  match tok.encode prompt with
  | .ok ids => (firstChoice arch (sampling.offset s) ids).1 ∉ arch.eos
  | .error _ => false

/-- The batch has nothing to generate; or every prompt that goes on leaves room
below `max_seq`, and no more than `chunk_cap` prompts go on. -/
def BatchFits : Prop :=
  maxTokens = 0 ∨
    (∀ s prompt ids, prompts[s]? = some prompt → tok.encode prompt = .ok ids →
      goesOn arch sampling tok s prompt = true → ids.length < arch.maxSeq) ∧
    (prompts.mapIdx (goesOn arch sampling tok)).count true ≤ chunkCap

variable {arch sampling tok prompts maxTokens}

/-- What `generate` returned for a prompt of the batch. -/
theorem SoloResults.answer {results : List (String × Nat × Nat)}
    (h : SoloResults arch sampling tok prompts maxTokens results)
    {idss : List (List Nat)} (hids : prompts.map tok.encode = idss.map .ok) {s : Nat}
    {ids : List Nat} (hget : idss[s]? = some ids) :
    ∃ res, results[s]? = some res ∧ ids.length ≤ arch.maxSeq ∧
      tok.decode (soloAnswer arch (sampling.offset s) ids maxTokens) = .ok res.1 ∧
      res.2 = (ids.length, (soloAnswer arch (sampling.offset s) ids maxTokens).length) := by
  have henc : (prompts.map tok.encode)[s]? = some (.ok ids) := by rw [hids]; simp [hget]
  rw [List.getElem?_map, Option.map_eq_some_iff] at henc
  obtain ⟨prompt, hprompt, henc⟩ := henc
  obtain ⟨res, stream, e, e', hres, hrun⟩ := h.runs s prompt hprompt
  obtain ⟨ids', henc', -, hle, htext, hcounts⟩ :=
    (Engine.generate_spec arch (sampling.offset s) tok prompt maxTokens stream).ok trivial hrun
  rw [henc] at henc'
  cases henc'
  exact ⟨res, hres, hle, htext, hcounts⟩

/-- `BatchFits` over the tokens of the prompts. -/
theorem batchFits_iff {idss : List (List Nat)} (hids : prompts.map tok.encode = idss.map .ok) :
    BatchFits arch sampling tok prompts maxTokens ↔
      maxTokens = 0 ∨
        (∀ s ids, idss[s]? = some ids → ids.length < arch.maxSeq ∨
          (firstChoice arch (sampling.offset s) ids).1 ∈ arch.eos) ∧
        activeCount arch (started arch sampling idss) ≤ chunkCap := by
  have hidx : ∀ s : Nat, prompts[s]?.map tok.encode = idss[s]?.map .ok := by
    intro s
    rw [← List.getElem?_map, hids, List.getElem?_map]
  have hroom : (∀ s prompt ids, prompts[s]? = some prompt → tok.encode prompt = .ok ids →
        goesOn arch sampling tok s prompt = true → ids.length < arch.maxSeq) ↔
      ∀ (s : Nat) ids, idss[s]? = some ids → ids.length < arch.maxSeq ∨
        (firstChoice arch (sampling.offset s) ids).1 ∈ arch.eos := by
    constructor
    · intro h s ids hget
      have hs := hidx s
      rw [hget, Option.map_some, Option.map_eq_some_iff] at hs
      obtain ⟨prompt, hprompt, henc⟩ := hs
      by_cases heos : (firstChoice arch (sampling.offset s) ids).1 ∈ arch.eos
      · exact .inr heos
      · exact .inl (h s prompt ids hprompt henc (by simp [goesOn, henc, heos]))
    · intro h s prompt ids hprompt henc hgoes
      have hs := hidx s
      rw [hprompt, Option.map_some, henc] at hs
      obtain ⟨ids', hget, hids'⟩ := Option.map_eq_some_iff.mp hs.symm
      cases hids'
      exact (h s ids hget).resolve_right (by simpa [goesOn, henc] using hgoes)
  unfold BatchFits
  rw [hroom]
  refine or_congr_right (and_congr_right fun h => ?_)
  -- below `max_seq`, the prompts that go on are the active streams
  have hcount : (prompts.mapIdx (goesOn arch sampling tok)).count true =
      activeCount arch (started arch sampling idss) := by
    have hsame : prompts.mapIdx (goesOn arch sampling tok) =
        (started arch sampling idss).map fun st => !(st.push arch).done := by
      refine List.ext_getElem? fun s => ?_
      rw [List.getElem?_mapIdx, List.getElem?_map, started, List.getElem?_mapIdx]
      have hs := hidx s
      cases hget : idss[s]? with
      | none =>
          rw [hget, Option.map_none, Option.map_eq_none_iff] at hs
          rw [hs]
          rfl
      | some ids =>
          rw [hget, Option.map_some, Option.map_eq_some_iff] at hs
          obtain ⟨prompt, hprompt, henc⟩ := hs
          rw [hprompt]
          have hids := h s ids hget
          by_cases heos : (firstChoice arch (sampling.offset s) ids).1 ∈ arch.eos
          · simp [goesOn, henc, BatchStream.push, BatchStream.start, heos]
          · have hlt := hids.resolve_right heos
            simp [goesOn, henc, BatchStream.push, BatchStream.start, heos,
              Nat.not_le.mpr hlt]
    rw [hsame, activeCount, length_activeEntries, List.count, List.countP_map, List.countP_map]
    exact List.countP_congr fun st _ => by simp
  rw [hcount]

/-- Every stream's results are those of its prompt alone, or its prompt does not
leave room. -/
theorem SoloResults.same_iff {results res : List (String × Nat × Nat)}
    (h : SoloResults arch sampling tok prompts maxTokens results)
    {idss : List (List Nat)} (hids : prompts.map tok.encode = idss.map .ok)
    (htexts : res.map (fun r => Except.ok r.1) = (started arch sampling idss).map (fun st =>
      tok.decode ((BatchStream.step arch sampling)^[maxTokens] st).outIds))
    (hcounts : res.map (·.2) = (started arch sampling idss).map (fun st =>
      (st.ids.length, ((BatchStream.step arch sampling)^[maxTokens] st).outIds.length))) :
    res = results ↔ ∀ s ids, idss[s]? = some ids → maxTokens = 0 ∨ ids.length < arch.maxSeq ∨
      (firstChoice arch (sampling.offset s) ids).1 ∈ arch.eos := by
  have hstarted : ∀ (s : Nat) ids, idss[s]? = some ids →
      (started arch sampling idss)[s]? = some (.start arch (sampling.offset s) ids) := by
    intro s ids hget
    rw [started, List.getElem?_mapIdx, hget, Option.map_some]
  constructor
  · rintro rfl s ids hget
    obtain ⟨r, hr, hle, -, hr2⟩ := h.answer hids hget
    have hs := congrArg (·[s]?) hcounts
    simp only [List.getElem?_map, hr, hstarted s ids hget, Option.map_some, Option.some.injEq] at hs
    rw [hr2, Prod.mk.injEq] at hs
    exact (@BatchStream.iterate_start_eq_iff _ _ arch (sampling.offset s) ids hle maxTokens).1.mp
      hs.2.symm
  · intro hroom
    refine List.ext_getElem? fun s => ?_
    have hlen : res.length = idss.length := by simpa [started] using congrArg List.length hcounts
    have hlen' : results.length = idss.length :=
      h.length.trans (by simpa using congrArg List.length hids)
    cases hget : idss[s]? with
    | none =>
        have hs := List.getElem?_eq_none_iff.mp hget
        rw [List.getElem?_eq_none_iff.mpr (by omega), List.getElem?_eq_none_iff.mpr (by omega)]
    | some ids =>
        obtain ⟨r, hr, hle, htext, hr2⟩ := h.answer hids hget
        have hout := (@BatchStream.iterate_start_eq_iff _ _ arch (sampling.offset s) ids hle
          maxTokens).2 (hroom s ids hget)
        have hs := (List.getElem?_eq_some_iff.mp hget).1
        obtain ⟨r', hr'⟩ : ∃ r', res[s]? = some r' :=
          ⟨res.get ⟨s, by omega⟩, List.getElem?_eq_getElem _⟩
        have hc := congrArg (·[s]?) hcounts
        have ht := congrArg (·[s]?) htexts
        simp only [List.getElem?_map, hr', hstarted s ids hget, Option.map_some,
          Option.some.injEq] at hc ht
        have hout : ((BatchStream.step arch sampling)^[maxTokens]
            (.start arch (sampling.offset s) ids)).outIds =
            soloAnswer arch (sampling.offset s) ids maxTokens := hout
        rw [hout, htext, Except.ok.injEq] at ht
        rw [hout] at hc
        rw [hr', hr, Prod.ext ht (hc.trans hr2.symm)]

/-- **Lockstep.** On a device that does not fail, for any prompts that `generate`
accepts and that fit the slots: the batch returns what `generate` returns for
each prompt alone exactly when `BatchFits`. -/
theorem generateBatch_iff (hdevice : ¬arch.Faulty) (hslots : prompts.length ≤ arch.batchCap)
    {results : List (String × Nat × Nat)}
    (hsolo : SoloResults arch sampling tok prompts maxTokens results)
    (e : Engine Cell Logits) :
    (∃ e', Engine.generateBatch arch tok sampling prompts maxTokens e = .ok results e') ↔
      BatchFits arch sampling tok prompts maxTokens := by
  have hspec := Engine.generateBatch_spec arch sampling tok prompts maxTokens
  constructor
  · intro ⟨e', hrun⟩
    obtain ⟨idss, hids, hcount, htexts, hcounts⟩ := hspec.ok trivial hrun
    have hsame := (hsolo.same_iff hids htexts hcounts).mp rfl
    rw [batchFits_iff hids]
    by_cases hzero : maxTokens = 0
    · exact .inl hzero
    · exact .inr ⟨fun s ids hget => (hsame s ids hget).resolve_left hzero,
        hcount.resolve_left hzero⟩
  · intro hfits
    have hroom : ∀ idss : List (List Nat), prompts.map tok.encode = idss.map .ok →
        (∀ s ids, idss[s]? = some ids → maxTokens = 0 ∨ ids.length < arch.maxSeq ∨
          (firstChoice arch (sampling.offset s) ids).1 ∈ arch.eos) ∧
        (maxTokens = 0 ∨ activeCount arch (started arch sampling idss) ≤ chunkCap) := by
      intro idss hids
      rcases (batchFits_iff hids).mp hfits with hzero | ⟨hroom, hcount⟩
      · exact ⟨fun _ _ _ => .inl hzero, .inl hzero⟩
      · exact ⟨fun s ids hget => .inr (hroom s ids hget), .inr hcount⟩
    cases hrun : Engine.generateBatch arch tok sampling prompts maxTokens e with
    | ok res e' =>
        obtain ⟨idss, hids, hcount, htexts, hcounts⟩ := hspec.ok trivial hrun
        rw [(hsolo.same_iff hids htexts hcounts).mpr (hroom idss hids).1]
        exact ⟨e', rfl⟩
    | error err e' =>
        exfalso
        rcases hspec.error trivial hrun with hcap | ⟨prompt, hmem, hempty⟩ | ⟨idss, hids, hwhy⟩
        · omega
        · obtain ⟨s, hget⟩ := List.getElem?_of_mem hmem
          obtain ⟨res, stream, e₁, e₂, -, hrun⟩ := hsolo.runs s prompt hget
          obtain ⟨ids, henc, hne, -⟩ := (Engine.generate_spec arch (sampling.offset s) tok prompt
            maxTokens stream).ok trivial hrun
          exact hne (hempty ids henc)
        · rcases hwhy with ⟨ids, hmem, hlong⟩ | ⟨hpos, hmany⟩ | hfault | ⟨st, hmem, hdecode⟩
          · obtain ⟨s, hget⟩ := List.getElem?_of_mem hmem
            obtain ⟨res, -, hle, -⟩ := hsolo.answer hids hget
            omega
          · have := (hroom idss hids).2
            omega
          · exact hdevice hfault
          · -- the stream's tokens are those of its prompt alone, which were decoded
            obtain ⟨s, hget⟩ := List.getElem?_of_mem hmem
            rw [started, List.getElem?_mapIdx, Option.map_eq_some_iff] at hget
            obtain ⟨ids, hget, rfl⟩ := hget
            obtain ⟨res, -, hle, htext, -⟩ := hsolo.answer hids hget
            have hout := (@BatchStream.iterate_start_eq_iff _ _ arch (sampling.offset s) ids hle
              maxTokens).2 ((hroom idss hids).1 s ids hget)
            exact hdecode res.1 ((congrArg tok.decode hout).trans htext)

end Agreement

/-! ### A small decoder -/

/-- Behind a token comes the next one; there is room for four tokens. -/
def countingArch (batch : Nat) : Arch Unit Nat where
  batch := batch
  maxSeq := 4
  kvBytesPerToken := 1
  eos := []
  cell _ _ := ()
  logits _ token := token + 1
  argmax := id
  fails _ := none
  junk _ _ _ := ()

def greedy : Sampling Nat where
  plainGreedy := true
  seed := 0
  sample logits _ rng := (logits, rng)

/-- Tokens are characters. -/
def charTokenizer : Tokenizer where
  encode text := .ok (text.toList.map Char.toNat)
  decode ids := .ok (String.ofList (ids.map Char.ofNat))

def freshEngine (batch : Nat) : Engine Unit Nat where
  dec := { kv := fun _ _ => (), lastLogits := 0, logitsMulti := [], calls := 0, copies := [] }
  sessions := .new batch 0
  sent := []

theorem generateBatch_iff_two :
    (∃ e', Engine.generateBatch (countingArch 2) charTokenizer greedy ["a", "wx"] 2 (freshEngine 2) =
        .ok [("bc", 1, 2), ("yz", 2, 2)] e') ↔
      BatchFits (countingArch 2) greedy charTokenizer ["a", "wx"] 2 := by
  refine generateBatch_iff (by simp [Arch.Faulty, countingArch]) (by decide) ⟨rfl, ?_⟩ _
  intro s prompt hget
  match s with
  | 0 =>
      cases hget
      exact ⟨_, false, freshEngine 2, _, rfl, rfl⟩
  | 1 =>
      cases hget
      exact ⟨_, false, freshEngine 2, _, rfl, rfl⟩
  | s + 2 => cases hget

/-- A prompt that fills the context. -/
theorem batch_differs :
    (∃ e', Engine.generate (countingArch 1) charTokenizer greedy "abcd" 1 false (freshEngine 1) =
        .ok ("e", 4, 1) e') ∧
      ∃ e', Engine.generateBatch (countingArch 1) charTokenizer greedy ["abcd"] 1 (freshEngine 1) =
        .ok [("", 4, 0)] e' :=
  ⟨⟨_, rfl⟩, ⟨_, rfl⟩⟩

end LlmPager.Serve
