import LlmPager.Serve.Generate

/-!
# LlmPager.Serve.GenerateSpec

What the generation loops do to the sequence slots: they write on their own slot
only, from the first position that is not reused on, also when they fail. And
what they compute: every token is the choice behind the tokens before it
(`choose`), and the tokens whose KV is in the slot are the ones that are counted.
-/

namespace LlmPager.Serve

open LlmPager.Lib

variable {Cell Logits : Type}

/-! ### Frames -/

instance (touched : Nat → Nat → Prop) :
    Std.Refl (Decoder.ChangesOnly touched : Decoder Cell Logits → Decoder Cell Logits → Prop) :=
  ⟨fun _ => .rfl⟩

instance (touched : Nat → Nat → Prop) :
    IsTrans (Decoder Cell Logits) (Decoder.ChangesOnly touched) :=
  ⟨fun _ _ _ h h' => h.trans h'⟩

namespace Engine

/-- Only positions in `touched` may differ, and the sessions are the same. -/
structure ChangesOnly (touched : Nat → Nat → Prop) (e e' : Engine Cell Logits) : Prop where
  dec : e.dec.ChangesOnly touched e'.dec
  sessions : e'.sessions = e.sessions

section Frames

variable {touched touched' : Nat → Nat → Prop}

instance : Std.Refl (ChangesOnly touched : Engine Cell Logits → Engine Cell Logits → Prop) :=
  ⟨fun _ => ⟨.rfl, rfl⟩⟩

instance : IsTrans (Engine Cell Logits) (ChangesOnly touched) :=
  ⟨fun _ _ _ h h' => ⟨h.dec.trans h'.dec, h'.sessions.trans h.sessions⟩⟩

theorem ChangesOnly.mono {e e' : Engine Cell Logits} (h : ChangesOnly touched e e')
    (hsub : ∀ s p, touched s p → touched' s p) : ChangesOnly touched' e e' :=
  ⟨h.dec.mono hsub, h.sessions⟩

/-- A decoder call leaves the rest of the engine alone. -/
theorem onDecoder_frame {α : Type} {m : EStateM ServeError (Decoder Cell Logits) α}
    (h : Rel (Decoder.ChangesOnly touched) m) : Rel (ChangesOnly touched) (onDecoder m) :=
  h.zoom fun _ _ hd => ⟨hd, rfl⟩

variable (arch : Arch Cell Logits) (tok : Tokenizer) (sampling : Sampling Logits)

theorem tokenize_frame (prompt : String) :
    Rel (ChangesOnly touched)
      (tokenize tok prompt : EStateM ServeError (Engine Cell Logits) (List Nat)) := by
  unfold tokenize
  cases tok.encode prompt with
  | error text => exact .throw _
  | ok ids => exact .ite (.throw _) (.pure _)

theorem decodeText_frame (ids : List Nat) :
    Rel (ChangesOnly touched)
      (decodeText tok ids : EStateM ServeError (Engine Cell Logits) String) := by
  unfold decodeText
  cases tok.decodeIds ids with
  | error err => exact .throw _
  | ok text => exact .pure _

theorem emit_frame (stream : Bool) (outIds : List Nat) (printed : String) :
    Rel (ChangesOnly touched)
      (emit tok stream outIds printed : EStateM ServeError (Engine Cell Logits) String) := by
  unfold emit
  refine .ite ?_ (.pure _)
  cases nextDelta tok outIds printed with
  | error err => exact .throw _
  | ok res => exact .bind (.modify fun e => ⟨.rfl, rfl⟩) fun _ => .pure _

theorem firstToken_frame (out : List Nat) (rng : UInt64) (missing : ServeError) :
    Rel (ChangesOnly touched) (firstToken sampling out rng missing :
      EStateM ServeError (Engine Cell Logits) (Nat × UInt64)) := by
  unfold firstToken
  cases out.getLast? with
  | none => exact .throw _
  | some next =>
      refine .ite (.pure _) (.get fun e => ?_)
      cases e.dec.logitsMulti.getLast?.join with
      | none => exact .pure _
      | some logits => exact .pure _

/-- A prefill writes its slot from its first position on. -/
theorem prefillSlot_frame (seq start : Nat) (ids : List Nat) (rng : UInt64)
    (missing : ServeError) :
    Rel (ChangesOnly fun s p => s = seq ∧ start ≤ p)
      (prefillSlot arch sampling seq start ids rng missing) := by
  intro s
  let R : Engine Cell Logits → Prop := ChangesOnly (fun s p => s = seq ∧ start ≤ p) s
  -- the position never moves back behind `start`
  have hloop : Triple (fun t => start ≤ start ∧ R t)
      (prefillSlot arch sampling seq start ids rng missing)
      (fun b t => start ≤ b.2.2 ∧ R t) (fun _ => R) := by
    unfold prefillSlot
    refine Triple.foldlM (I := fun _ (b : Nat × UInt64 × Nat) t => start ≤ b.2.2 ∧ R t)
      (b := (0, rng, start)) ?_
    rintro done chunk rest ⟨next, rng, pos⟩ -
    refine .of_pre (fun t ht => ht.1) fun hpos => ?_
    have hstep : Rel (ChangesOnly fun s p => s = seq ∧ start ≤ p) (onDecoder (Decoder.stepMulti
        arch (Decoder.chunkEntries chunk pos seq) (decide (pos + chunk.length = ids.length)))) :=
      onDecoder_frame ((Decoder.stepMulti_frame arch _ _).mono fun _ _ h => h.mono fun _ _ hon =>
        (Decoder.onEntries_chunk hon).imp id (Nat.le_trans hpos))
    refine .bind (Q := fun _ => R) ((hstep.keeps fun _ _ htu hst => trans_of _ hst htu).pre
      fun t ht => ht.2) fun out => ?_
    refine .ite (fun _ => ?_) fun _ => ?_
    · refine .bind (Q := fun _ => R) ((firstToken_frame sampling out rng missing).keeps
        fun _ _ htu hst => trans_of _ hst htu) fun b => ?_
      exact .pure fun t ht => ⟨Nat.le_trans hpos (Nat.le_add_right _ _), ht⟩
    · exact .pure fun t ht => ⟨Nat.le_trans hpos (Nat.le_add_right _ _), ht⟩
  exact hloop.weaken (fun t ht => ⟨Nat.le_refl _, ht ▸ refl_of _ s⟩) (fun _ _ h => h.2)
    fun _ _ h => h

/-- The prefill of `generate` writes slot 0 only. -/
theorem prefill_frame (ids : List Nat) :
    Rel (ChangesOnly fun s _ => s = 0) (prefill arch ids) := by
  refine .foldlM fun b chunk => .bind ?_ fun next => .pure _
  refine onDecoder_frame (.bind ?_ fun out => .pure _)
  exact (Decoder.stepMulti_frame arch _ _).mono fun _ _ h => h.mono fun _ _ hon =>
    (Decoder.onEntries_chunk hon).1

theorem stepNext_frame (next pos : Nat) (outIds : List Nat) (rng : UInt64) :
    Rel (ChangesOnly fun s p => s = 0 ∧ p = pos)
      (stepNext arch sampling next pos outIds rng) :=
  .bind (onDecoder_frame (Decoder.step_frame arch next pos true)) fun _ =>
    .ite (.pure _) (.get fun _ => .pure _)

theorem stepSlotNext_frame (slot next pos : Nat) (outIds : List Nat) (rng : UInt64) :
    Rel (ChangesOnly fun s p => s = slot ∧ p = pos)
      (stepSlotNext arch sampling slot next pos outIds rng) := by
  have hstep : Rel (Decoder.ChangesOnly fun s p => s = slot ∧ p = pos)
      (Decoder.stepMulti arch [{ token := next, pos, seq := slot }] true) :=
    (Decoder.stepMulti_frame arch _ _).mono fun _ _ h => h.mono fun s p ⟨e, he, hs, hp⟩ => by
      rw [List.mem_singleton] at he
      subst he
      exact ⟨hs.symm, hp.symm⟩
  refine .bind (onDecoder_frame hstep) fun out => .ite ?_ (.get fun e => ?_)
  · cases out[0]? with
    | none => exact .throw _
    | some next => exact .pure _
  · cases e.dec.logitsMulti[0]?.join with
    | none => exact .throw _
    | some logits => exact .pure _

/-- The token loop writes behind the prompt. -/
theorem tokenLoop_frame {feed : Nat → Nat → List Nat → UInt64 →
      EStateM ServeError (Engine Cell Logits) (Nat × UInt64)} {slot : Nat}
    (hfeed : ∀ next pos outIds rng,
      Rel (ChangesOnly fun s p => s = slot ∧ p = pos) (feed next pos outIds rng))
    (stream : Bool) (promptLen fuel : Nat) (g : Generation) :
    Rel (ChangesOnly fun s p => s = slot ∧ promptLen ≤ p)
      (tokenLoop arch tok feed stream promptLen fuel g) := by
  induction fuel generalizing g with
  | zero => exact .pure _
  | succ fuel ih =>
      unfold tokenLoop
      refine .ite (.pure _) (.bind (emit_frame tok stream _ _) fun printed =>
        .ite (.pure _) (.bind ?_ fun res => ih _))
      refine (hfeed _ _ _ _).mono fun _ _ h => h.mono fun s p hsp => ?_
      exact ⟨hsp.1, by omega⟩

/-- `generate` writes slot 0 only. -/
theorem generate_frame (prompt : String) (maxTokens : Nat) (stream : Bool) :
    Rel (ChangesOnly fun s _ => s = 0)
      (generate arch tok sampling prompt maxTokens stream) := by
  refine .bind (tokenize_frame tok prompt) fun ids => .bind (prefill_frame arch ids) fun first =>
    .get fun e => .bind ?_ fun g => .bind (decodeText_frame tok _) fun text => .pure _
  exact (tokenLoop_frame arch tok (stepNext_frame arch sampling) _ _ _ _).mono fun _ _ h =>
    h.mono fun _ _ hsp => hsp.1

/-- `generate_session` writes its slot only, and nothing it reuses. -/
theorem generateSession_frame (slot reuse : Nat) (ids : List Nat) (maxTokens : Nat)
    (stream : Bool) :
    Rel (ChangesOnly fun s p => s = slot ∧ reuse ≤ p)
      (generateSession arch tok sampling slot reuse ids maxTokens stream) := by
  unfold generateSession
  by_cases hlen : ids.length < reuse
  · rw [if_pos hlen]
    exact .throw _
  · rw [if_neg hlen]
    refine .bind (prefillSlot_frame arch sampling slot reuse ids _ _) fun first =>
      .bind ?_ fun g => .bind (decodeText_frame tok _) fun text => .pure _
    refine (tokenLoop_frame arch tok (stepSlotNext_frame arch sampling slot) _ _ _ _).mono
      fun _ _ h => h.mono fun _ p hsp => ⟨hsp.1, by omega⟩

end Frames

end Engine

/-! ### What is computed -/

section Values

variable (arch : Arch Cell Logits) (sampling : Sampling Logits)

/-- The token behind `tokens`, of which `outIds` were generated. -/
def choose (tokens outIds : List Nat) (rng : UInt64) : Nat × UInt64 :=
  if sampling.plainGreedy then (arch.argmax (arch.logitsOf tokens), rng)
  else sampling.sample (arch.logitsOf tokens) outIds rng

/-- The tokens `generate` writes behind `outIds` when `next` comes next. -/
def soloTokens (ids : List Nat) : Nat → List Nat → Nat → UInt64 → List Nat
  | 0, outIds, _, _ => outIds
  | fuel + 1, outIds, next, rng =>
      if next ∈ arch.eos then outIds
      else if arch.maxSeq ≤ ids.length + outIds.length + 1 then outIds ++ [next]
      else
        let chosen := choose arch sampling (ids ++ (outIds ++ [next])) (outIds ++ [next]) rng
        soloTokens ids fuel (outIds ++ [next]) chosen.1 chosen.2

/-- The token behind a prompt. -/
def firstChoice (ids : List Nat) : Nat × UInt64 :=
  choose arch sampling ids [] (sampleRng sampling.seed)

/-- All tokens `generate` writes behind a prompt. -/
def soloAnswer (ids : List Nat) (maxTokens : Nat) : List Nat :=
  soloTokens arch sampling ids maxTokens [] (firstChoice arch sampling ids).1
    (firstChoice arch sampling ids).2

namespace Engine

theorem onDecoder_triple {α : Type} {m : EStateM ServeError (Decoder Cell Logits) α}
    {P : Decoder Cell Logits → Prop} {Q : α → Decoder Cell Logits → Prop}
    {E : ServeError → Decoder Cell Logits → Prop} (h : Triple P m Q E) :
    Triple (fun e => P e.dec) (onDecoder m) (fun a e => Q a e.dec) (fun err e => E err e.dec) :=
  .zoom fun _ ht => h.pre fun _ hs => hs ▸ ht

/-- How `feed` extends the tokens its slot holds. -/
def Feeds (feed : Nat → Nat → List Nat → UInt64 →
    EStateM ServeError (Engine Cell Logits) (Nat × UInt64)) (slot : Nat) : Prop :=
  ∀ tokens next outIds rng, Triple (fun e => e.dec.Holds arch slot tokens)
    (feed next tokens.length outIds rng)
    (fun res e => e.dec.Holds arch slot (tokens ++ [next]) ∧
      res = choose arch sampling (tokens ++ [next]) outIds rng)
    (fun _ _ => True)

theorem stepNext_feeds : Feeds arch sampling (stepNext arch sampling) 0 := by
  intro tokens next outIds rng
  refine .bind (onDecoder_triple (Decoder.step_spec arch next)) fun greedy => ?_
  refine .ite (fun hgreedy => .pure fun e h => ⟨h.1, ?_⟩) fun hgreedy => .get fun e h => ?_
  · simp [choose, hgreedy, h.2.1]
  · refine .pure fun s hs => ?_
    subst hs
    exact ⟨h.1, by simp [choose, hgreedy, h.2.2]⟩

theorem stepSlotNext_feeds (slot : Nat) :
    Feeds arch sampling (stepSlotNext arch sampling slot) slot := by
  intro tokens next outIds rng
  have hstep := (Decoder.stepMulti_chunk_spec arch slot tokens true (List.cons_ne_nil next [])
    (by simp [chunkCap])).and
    (Decoder.stepMulti_length arch (Decoder.chunkEntries [next] tokens.length slot))
  refine .bind (onDecoder_triple (hstep.weaken (fun _ hd => ⟨hd, trivial⟩) (fun _ _ h => h)
    fun _ _ _ => trivial)) fun out => ?_
  refine .of_pre (p := out.length = 1) (fun e he => by simpa using he.2.1) fun hone => ?_
  obtain ⟨token, rfl⟩ := List.length_eq_one_iff.mp hone
  refine .ite (fun hgreedy => .pure ?_) fun hgreedy => .get fun e he => ?_
  · rintro e ⟨⟨hholds, -, hoffers⟩, -⟩
    have htoken := (hoffers rfl).out
    simp only [List.getLast?_singleton, Option.some.injEq] at htoken
    exact ⟨hholds, by simp [choose, hgreedy, htoken]⟩
  · obtain ⟨⟨hholds, -, hoffers⟩, -, hlen⟩ := he
    obtain ⟨logits, hlogits⟩ := List.length_eq_one_iff.mp hlen
    have hmulti := (hoffers rfl).multi
    rw [hlogits] at hmulti ⊢
    obtain rfl : logits = _ := hmulti
    refine .pure fun s hs => ?_
    subst hs
    exact ⟨hholds, by simp [choose, hgreedy]⟩

/-- The token loop writes the tokens chosen one after the other, and the slot
holds the ones that are counted. -/
theorem tokenLoop_spec (tok : Tokenizer) {feed : Nat → Nat → List Nat → UInt64 →
      EStateM ServeError (Engine Cell Logits) (Nat × UInt64)} {slot : Nat}
    (hfeed : Feeds arch sampling feed slot) (stream : Bool) (ids : List Nat) (fuel : Nat)
    (g : Generation) (hkv : g.kvTokens = g.outIds.length) :
    Triple (fun e => e.dec.Holds arch slot (ids ++ g.outIds))
      (tokenLoop arch tok feed stream ids.length fuel g)
      (fun g' e => g'.outIds = soloTokens arch sampling ids fuel g.outIds g.next g.rng ∧
        e.dec.Holds arch slot (ids ++ g'.outIds.take g'.kvTokens))
      (fun _ _ => True) := by
  induction fuel generalizing g with
  | zero => exact .pure fun e he => ⟨rfl, by simpa [hkv] using he⟩
  | succ fuel ih =>
      unfold tokenLoop soloTokens
      refine .ite (fun heos => ?_) fun heos => ?_
      · rw [if_pos heos]
        exact .pure fun e he => ⟨rfl, by simpa [hkv] using he⟩
      rw [if_neg heos]
      refine .bind (Q := fun _ e => e.dec.Holds arch slot (ids ++ g.outIds)) ?_ fun printed => ?_
      · have hemit : Rel (ChangesOnly fun _ _ => False)
            (emit tok stream (g.outIds ++ [g.next]) g.printed :
              EStateM ServeError (Engine Cell Logits) String) := emit_frame tok stream _ _
        exact (hemit.keeps fun e e' h he => he.of_changesOnly arch h.dec fun _ _ => id).weaken
          (fun _ h => h) (fun _ _ h => h) fun _ _ _ => trivial
      refine .ite (fun hend => ?_) fun hend => ?_
      · -- the last token is written but not fed back
        rw [if_pos hend]
        exact .pure fun e he => ⟨rfl, by simpa [hkv] using he⟩
      rw [if_neg hend]
      have hstep := hfeed (ids ++ g.outIds) g.next (g.outIds ++ [g.next]) g.rng
      rw [List.length_append] at hstep
      refine .bind hstep fun res => .of_pre (fun e he => he.2) fun hres => ?_
      rw [List.append_assoc] at hres
      subst hres
      exact (ih _ rfl).pre fun e he => by simpa using he.1

theorem tokenize_spec (tok : Tokenizer) (prompt : String) {P : Engine Cell Logits → Prop} :
    Triple P (tokenize tok prompt) (fun ids e => P e ∧ tok.encode prompt = .ok ids ∧ ids ≠ [])
      (fun _ _ => ∀ ids, tok.encode prompt = .ok ids → ids = []) := by
  unfold tokenize
  cases tok.encode prompt with
  | error text => exact .throw fun _ _ => nofun
  | ok ids =>
      refine .ite (fun hnil => .throw fun _ _ => ?_) fun hne => .pure fun e he => ⟨he, rfl, hne⟩
      rintro _ ⟨⟩
      exact hnil

theorem decodeText_spec (tok : Tokenizer) (ids : List Nat) {P : Engine Cell Logits → Prop} :
    Triple P (decodeText tok ids) (fun text e => P e ∧ tok.decode ids = .ok text)
      (fun _ _ => ∀ text, tok.decode ids ≠ .ok text) := by
  unfold decodeText Tokenizer.decodeIds
  cases tok.decode ids with
  | error err => exact .throw fun _ _ => nofun
  | ok text => exact .pure fun e he => ⟨he, rfl⟩

/-- A chunk is the last one when nothing of the prompt is left behind it. -/
theorem chunk_last {l : List Nat} {done rest : List (List Nat)} {chunk : List Nat} {start : Nat}
    (hstart : start ≤ l.length)
    (h : chunks chunkCap (l.drop start) = done ++ chunk :: rest) :
    chunk ≠ [] ∧ chunk.length ≤ chunkCap ∧
      start + done.flatten.length + chunk.length ≤ l.length ∧
      (start + done.flatten.length + chunk.length = l.length ↔
        done.flatten ++ chunk = l.drop start) := by
  have hcap : 0 < chunkCap := by simp [chunkCap]
  have hmem : chunk ∈ chunks chunkCap (l.drop start) := by simp [h]
  have hflat := chunks_flatten hcap (l.drop start)
  rw [h, List.flatten_append, List.flatten_cons, ← List.append_assoc] at hflat
  have hlen := congrArg List.length hflat
  simp only [List.length_append, List.length_drop] at hlen
  refine ⟨ne_nil_of_mem_chunks hcap hmem, length_le_of_mem_chunks hmem, by omega, ?_, ?_⟩
  · intro heq
    have hrest : rest.flatten = [] := List.length_eq_zero_iff.mp (by omega)
    rw [← hflat, hrest, List.append_nil]
  · intro heq
    have hlen' := congrArg List.length heq
    simp only [List.length_append, List.length_drop] at hlen'
    omega

/-- The prefill of `generate` leaves the whole prompt on slot 0. -/
theorem prefill_spec {ids : List Nat} (hne : ids ≠ []) :
    Triple (fun _ => True) (prefill arch ids)
      (fun b e => e.dec.Holds arch 0 ids ∧ ids.length ≤ arch.maxSeq ∧
        b.1 = arch.argmax (arch.logitsOf ids) ∧ e.dec.lastLogits = arch.logitsOf ids)
      (fun _ _ => True) := by
  have hflat := chunks_flatten (n := chunkCap) (by simp [chunkCap]) ids
  let Inv (done : List (List Nat)) (b : Nat × Nat) (e : Engine Cell Logits) : Prop :=
    e.dec.Holds arch 0 done.flatten ∧ b.2 = done.flatten.length ∧
      (done ≠ [] → done.flatten = ids → ids.length ≤ arch.maxSeq ∧
        b.1 = arch.argmax (arch.logitsOf ids) ∧ e.dec.lastLogits = arch.logitsOf ids)
  have hloop : Triple (Inv [] (0, 0)) (prefill arch ids)
      (Inv (chunks chunkCap ids)) (fun _ _ => True) := by
    unfold prefill
    refine .foldlM (I := Inv) ?_
    intro done chunk rest ⟨next, pos⟩ hsplit
    refine .of_pre (fun e he => he.2.1) fun hpos => ?_
    have hpos : pos = done.flatten.length := hpos
    subst hpos
    obtain ⟨hchunk, hcap, -, hlast⟩ := chunk_last (Nat.zero_le ids.length) hsplit
    rw [Nat.zero_add, List.drop_zero] at hlast
    refine .bind ((onDecoder_triple (Decoder.stepChunk_spec arch _ hchunk hcap)).pre
      fun e he => he.1) fun next => .pure fun e he => ?_
    obtain ⟨hholds, hlen, hoffers⟩ := he
    have hdone : (done ++ [chunk]).flatten = done.flatten ++ chunk := by simp
    refine ⟨hdone ▸ hholds, by simp, fun _ hids => ?_⟩
    rw [hdone] at hids
    have hend := hlast.mpr hids
    rw [hids] at hoffers
    exact ⟨by omega, hoffers (by simpa using hend)⟩
  refine hloop.weaken (fun e _ => ⟨rfl, rfl, fun h => absurd rfl h⟩) ?_ fun _ _ h => h
  rintro b e ⟨hholds, -, hlast⟩
  rw [hflat] at hholds hlast
  refine ⟨hholds, hlast ?_ rfl⟩
  intro hnil
  rw [hnil] at hflat
  exact hne hflat.symm

/-- The first token of a prompt whose last chunk has just been run. -/
theorem firstToken_spec {logits : Logits} {P : Engine Cell Logits → Prop} (out : List Nat)
    (rng : UInt64) (missing : ServeError) :
    Triple (fun e => P e ∧ Decoder.Offers arch logits out e.dec)
      (firstToken sampling out rng missing)
      (fun b e => P e ∧ b = if sampling.plainGreedy then (arch.argmax logits, rng)
        else sampling.sample logits [] rng)
      (fun _ _ => False) := by
  refine .of_pre (fun e he => he.2.out) fun hout => ?_
  unfold firstToken
  rw [hout]
  refine .ite (fun hgreedy => .pure fun e he => ⟨he.1, by simp [hgreedy]⟩) fun hgreedy =>
    .get fun e he => ?_
  rw [he.2.multi]
  refine .pure fun s hs => ?_
  subst hs
  exact ⟨he.1, by simp [hgreedy]⟩

/-- A prefill continues the tokens its slot holds with the rest of the prompt. -/
theorem prefillSlot_spec (seq : Nat) {start : Nat} {ids : List Nat} (hstart : start < ids.length)
    (rng : UInt64) (missing : ServeError) :
    Triple (fun e => e.dec.Holds arch seq (ids.take start))
      (prefillSlot arch sampling seq start ids rng missing)
      (fun b e => e.dec.Holds arch seq ids ∧ ids.length ≤ arch.maxSeq ∧
        (b.1, b.2.1) = choose arch sampling ids [] rng)
      (fun _ _ => arch.maxSeq < ids.length ∨ arch.batchCap ≤ seq ∨ arch.Faulty) := by
  have hflat := chunks_flatten (n := chunkCap) (by simp [chunkCap]) (ids.drop start)
  let Inv (done : List (List Nat)) (b : Nat × UInt64 × Nat) (e : Engine Cell Logits) : Prop :=
    e.dec.Holds arch seq (ids.take start ++ done.flatten) ∧
      b.2.2 = start + done.flatten.length ∧
      (done.flatten ≠ ids.drop start → b.2.1 = rng) ∧
      (done.flatten = ids.drop start →
        ids.length ≤ arch.maxSeq ∧ (b.1, b.2.1) = choose arch sampling ids [] rng)
  have hdrop : ids.drop start ≠ [] := by simp; omega
  have hloop : Triple (Inv [] (0, rng, start)) (prefillSlot arch sampling seq start ids rng missing)
      (Inv (chunks chunkCap (ids.drop start)))
      (fun _ _ => arch.maxSeq < ids.length ∨ arch.batchCap ≤ seq ∨ arch.Faulty) := by
    unfold prefillSlot
    refine .foldlM (I := Inv) ?_
    intro done chunk rest ⟨next, rng', pos⟩ hsplit
    refine .of_pre (p := pos = start + done.flatten.length) (fun e he => he.2.1) fun hpos => ?_
    obtain ⟨hchunk, hcap, hle, hlast⟩ := chunk_last (Nat.le_of_lt hstart) hsplit
    have hdone : (done ++ [chunk]).flatten = done.flatten ++ chunk := by simp
    -- this chunk is not empty, so the prompt was not finished before it
    have hbefore : done.flatten ≠ ids.drop start := by
      intro heq
      have hlen := congrArg List.length heq
      have hpos := List.length_pos_iff.mpr hchunk
      simp only [List.length_drop] at hlen
      omega
    refine .of_pre (p := rng' = rng) (fun e he => he.2.2.1 hbefore) fun hrng => ?_
    subst hpos hrng
    have hstep := Decoder.stepMulti_chunk_spec arch seq (ids.take start ++ done.flatten)
      (decide (start + done.flatten.length + chunk.length = ids.length)) hchunk hcap
    have hheld : (ids.take start ++ done.flatten).length = start + done.flatten.length := by
      rw [List.length_append, List.length_take, Nat.min_eq_left (Nat.le_of_lt hstart)]
    rw [hheld] at hstep
    refine .bind ((onDecoder_triple hstep).weaken (fun e he => he.1) (fun _ _ h => h)
      fun _ _ h => h.imp (fun h => by omega) id) fun out => ?_
    refine .ite (fun hend => ?_) fun hend => ?_
    · have hend : start + done.flatten.length + chunk.length = ids.length := by simpa using hend
      have hids : ids.take start ++ done.flatten ++ chunk = ids := by
        rw [List.append_assoc, hlast.mp hend, List.take_append_drop]
      rw [hids]
      refine .bind (Q := fun b e => (e.dec.Holds arch seq ids ∧ ids.length ≤ arch.maxSeq) ∧
          b = choose arch sampling ids [] rng') ?_ fun b => .pure fun e he => ?_
      · refine (firstToken_spec arch sampling out rng' missing).weaken ?_ (fun _ _ h => h)
          fun _ _ h => h.elim
        intro e he
        exact ⟨⟨he.1, by omega⟩, he.2.2 (by simpa using hend)⟩
      · refine ⟨?_, ?_, fun hne => ?_, fun _ => ⟨he.1.2, by rw [← he.2]⟩⟩
        · rw [hdone, ← List.append_assoc, hids]
          exact he.1.1
        · simp [Nat.add_assoc]
        · exact absurd (hdone.trans (hlast.mp hend)) hne
    · have hend : start + done.flatten.length + chunk.length ≠ ids.length := by simpa using hend
      refine .pure fun e he => ⟨?_, ?_, fun _ => rfl, fun heq => ?_⟩
      · rw [hdone, ← List.append_assoc]
        exact he.1
      · simp [Nat.add_assoc]
      · exact absurd (hlast.mpr (hdone.symm.trans heq)) hend
  refine hloop.weaken (fun e he => ⟨by simpa using he, rfl, fun _ => rfl, fun h => ?_⟩) ?_
    fun _ _ h => h
  · exact absurd h.symm hdrop
  · rintro b e ⟨hholds, -, -, hlast⟩
    rw [hflat] at hholds hlast
    rw [List.take_append_drop] at hholds
    exact ⟨hholds, hlast rfl⟩

/-- **`generate`.** What it returns: the prompt fits in `max_seq`, and the
answer is the tokens chosen one after the other. -/
theorem generate_spec (tok : Tokenizer) (prompt : String) (maxTokens : Nat) (stream : Bool) :
    Triple (fun _ => True) (generate arch tok sampling prompt maxTokens stream)
      (fun res _ => ∃ ids, tok.encode prompt = .ok ids ∧ ids ≠ [] ∧ ids.length ≤ arch.maxSeq ∧
        tok.decode (soloAnswer arch sampling ids maxTokens) = .ok res.1 ∧
        res.2 = (ids.length, (soloAnswer arch sampling ids maxTokens).length))
      (fun _ _ => True) := by
  refine .bind ((tokenize_spec tok prompt).weaken (fun _ _ => trivial) (fun _ _ h => h)
    fun _ _ _ => trivial) fun ids => .of_pre (fun e he => he.2) fun ⟨hids, hne⟩ => ?_
  refine .bind ((prefill_spec arch hne).pre fun _ _ => trivial) fun first => .get fun e he => ?_
  obtain ⟨hholds, hlen, hnext, hlogits⟩ := he
  have hfirst : (if sampling.plainGreedy then (first.1, sampleRng sampling.seed)
      else sampling.sample e.dec.lastLogits [] (sampleRng sampling.seed)) =
      firstChoice arch sampling ids := by
    rw [firstChoice, choose, hnext, hlogits]
  simp only [hfirst]
  refine .bind ((tokenLoop_spec arch sampling tok (stepNext_feeds arch sampling) stream ids maxTokens
    _ rfl).pre fun s hs => by subst hs; simpa using hholds) fun g => .of_pre (fun s hs => hs.1)
    fun hg => ?_
  refine .bind ((decodeText_spec tok g.outIds (P := fun _ => True)).weaken (fun _ _ => trivial)
    (fun _ _ h => h.2) fun _ _ _ => trivial) fun text => .pure fun s hs => ?_
  rw [hg] at hs ⊢
  exact ⟨ids, hids, hne, hlen, hs, rfl⟩

/-- All tokens are counted, but for one that was written at the end of the context and
not fed back. -/
def Counted (promptLen : Nat) (g : Generation) : Prop :=
  g.kvTokens = g.outIds.length ∨
    (g.kvTokens + 1 = g.outIds.length ∧ arch.maxSeq ≤ promptLen + g.outIds.length)

theorem tokenLoop_counted (tok : Tokenizer) {feed : Nat → Nat → List Nat → UInt64 →
      EStateM ServeError (Engine Cell Logits) (Nat × UInt64)} (stream : Bool)
    (promptLen fuel : Nat) (g : Generation) (hkv : g.kvTokens = g.outIds.length) :
    Triple (fun _ => True) (tokenLoop arch tok feed stream promptLen fuel g)
      (fun g' _ => Counted arch promptLen g') (fun _ _ => True) := by
  induction fuel generalizing g with
  | zero => exact .pure fun _ _ => .inl hkv
  | succ fuel ih =>
      unfold tokenLoop
      refine .ite (fun _ => .pure fun _ _ => .inl hkv) fun _ => ?_
      refine .bind (.of_runs (fun _ _ _ _ _ => trivial) fun _ _ _ _ _ => trivial) fun printed => ?_
      refine .ite (fun hend => .pure fun _ _ => .inr ?_) fun _ => ?_
      · simp only [List.length_append, List.length_singleton]
        omega
      · exact .bind (.of_runs (fun _ _ _ _ _ => trivial) fun _ _ _ _ _ => trivial) fun res =>
          ih _ rfl

/-- The prefill of a session's turn, which may find nothing to do. -/
theorem prefillSlot_holds (seq : Nat) {start : Nat} {ids : List Nat}
    (hstart : start < max 1 ids.length) (rng : UInt64) (missing : ServeError) :
    Triple (fun e => e.dec.Holds arch seq (ids.take start))
      (prefillSlot arch sampling seq start ids rng missing)
      (fun _ e => e.dec.Holds arch seq ids) (fun _ _ => True) := by
  by_cases hlt : start < ids.length
  · exact (prefillSlot_spec arch sampling seq hlt rng missing).weaken (fun _ h => h)
      (fun _ _ h => h.1) fun _ _ _ => trivial
  · have hnil : ids = [] := List.length_eq_zero_iff.mp (by omega)
    subst hnil
    have hnone : chunks chunkCap (([] : List Nat).drop start) = [] := by
      rw [List.drop_nil]
      rfl
    unfold prefillSlot
    rw [hnone]
    exact .pure fun e he => by simpa using he

/-- **`generate_session`.** The context it returns is the prompt with a prefix of the
generated tokens, and it is what the slot holds. -/
theorem generateSession_spec (tok : Tokenizer) {slot reuse : Nat} {ids : List Nat}
    (hreuse : reuse < max 1 ids.length) (maxTokens : Nat) (stream : Bool) :
    Triple (fun e => e.dec.Holds arch slot (ids.take reuse))
      (generateSession arch tok sampling slot reuse ids maxTokens stream)
      (fun res e => e.dec.Holds arch slot res.2.1 ∧ ∃ g : Generation,
        res.2 = (ids ++ g.outIds.take g.kvTokens, ids.length - reuse, g.outIds.length) ∧
          tok.decode g.outIds = .ok res.1 ∧ Counted arch ids.length g)
      (fun _ _ => True) := by
  unfold generateSession
  refine .ite (fun _ => .throw fun _ _ => trivial) fun _ => ?_
  refine .bind (prefillSlot_holds arch sampling slot hreuse _ _) fun first => ?_
  refine .bind (((tokenLoop_spec arch sampling tok (stepSlotNext_feeds arch sampling slot) stream ids
    maxTokens _ rfl).and (tokenLoop_counted arch tok stream ids.length maxTokens _ rfl)).weaken
      (fun e he => ⟨by simpa using he, trivial⟩) (fun _ _ h => h) fun _ _ h => trivial) fun g => ?_
  refine .bind ((decodeText_spec tok g.outIds).weaken (fun _ h => h) (fun _ _ h => h)
    fun _ _ _ => trivial) fun text => .pure fun e he => ?_
  exact ⟨he.1.1.2, g, rfl, he.2, he.1.2⟩

/-! ### What is streamed -/

/-- What has been sent since `base` are the fragments of the streaming loop over
the tokens generated so far. -/
def Sent (tok : Tokenizer) (base : List String) (g : Generation) (e : Engine Cell Logits) : Prop :=
  ∃ sent, streamed (nextDelta tok) g.outIds = .ok ⟨g.outIds, g.printed, sent⟩ ∧
    e.sent = base ++ sent

/-- Nothing is sent. -/
def SameSent (e e' : Engine Cell Logits) : Prop := e'.sent = e.sent

instance : Std.Refl (SameSent : Engine Cell Logits → Engine Cell Logits → Prop) := ⟨fun _ => rfl⟩

instance : IsTrans (Engine Cell Logits) SameSent := ⟨fun _ _ _ h h' => h'.trans h⟩

theorem onDecoder_sent {α : Type} (m : EStateM ServeError (Decoder Cell Logits) α) :
    Rel SameSent (onDecoder m) :=
  fun _ => .zoom fun _ ht => .of_runs (fun _ _ _ _ _ => ht ▸ rfl) fun _ _ _ _ _ => ht ▸ rfl

theorem tokenize_sent (tok : Tokenizer) (prompt : String) :
    Rel SameSent (tokenize tok prompt : EStateM ServeError (Engine Cell Logits) (List Nat)) := by
  unfold tokenize
  cases tok.encode prompt with
  | error text => exact .throw _
  | ok ids => exact .ite (.throw _) (.pure _)

theorem stepNext_sent (next pos : Nat) (outIds : List Nat) (rng : UInt64) :
    Rel SameSent (stepNext arch sampling next pos outIds rng) :=
  .bind (onDecoder_sent _) fun _ => .ite (.pure _) (.get fun _ => .pure _)

theorem stepSlotNext_sent (slot next pos : Nat) (outIds : List Nat) (rng : UInt64) :
    Rel SameSent (stepSlotNext arch sampling slot next pos outIds rng) := by
  refine .bind (onDecoder_sent _) fun out => .ite ?_ (.get fun e => ?_)
  · cases out[0]? with
    | none => exact .throw _
    | some next => exact .pure _
  · cases e.dec.logitsMulti[0]?.join with
    | none => exact .throw _
    | some logits => exact .pure _

theorem prefill_sent (ids : List Nat) : Rel SameSent (prefill arch ids) :=
  .foldlM fun _ _ => .bind (onDecoder_sent _) fun _ => .pure _

theorem prefillSlot_sent (seq start : Nat) (ids : List Nat) (rng : UInt64) (missing : ServeError) :
    Rel SameSent (prefillSlot arch sampling seq start ids rng missing) := by
  refine .foldlM fun b chunk => .bind (onDecoder_sent _) fun out => .ite (.bind ?_ fun _ => .pure _)
    (.pure _)
  unfold firstToken
  cases out.getLast? with
  | none => exact .throw _
  | some next =>
      refine .ite (.pure _) (.get fun e => ?_)
      cases e.dec.logitsMulti.getLast?.join with
      | none => exact .pure _
      | some logits => exact .pure _

/-- The token loop with an `on_delta` runs the streaming loop over its tokens. -/
theorem tokenLoop_sent (tok : Tokenizer) {feed : Nat → Nat → List Nat → UInt64 →
      EStateM ServeError (Engine Cell Logits) (Nat × UInt64)}
    (hfeed : ∀ next pos outIds rng, Rel SameSent (feed next pos outIds rng))
    (base : List String) (promptLen fuel : Nat) (g : Generation) :
    Triple (Sent tok base g) (tokenLoop arch tok feed true promptLen fuel g)
      (fun g' => Sent tok base g') (fun _ _ => True) := by
  induction fuel generalizing g with
  | zero => exact .pure fun _ h => h
  | succ fuel ih =>
      unfold tokenLoop
      refine .ite (fun _ => .pure fun _ h => h) fun _ => ?_
      have hemit : Triple (Sent tok base g)
          (emit tok true (g.outIds ++ [g.next]) g.printed)
          (fun printed (e : Engine Cell Logits) =>
            Sent tok base { g with outIds := g.outIds ++ [g.next], printed } e)
          (fun _ _ => True) := by
        unfold emit
        simp only [if_true]
        cases hround : nextDelta tok (g.outIds ++ [g.next]) g.printed with
        | error err => exact .throw fun _ _ => trivial
        | ok res =>
            refine .bind (Q := fun _ e => Sent tok base
              { g with outIds := g.outIds ++ [g.next], printed := res.2 } e) (.modify ?_)
              fun _ => .pure fun _ h => h
            intro e he
            obtain ⟨sent, hsent, hbase⟩ := he
            refine ⟨sent ++ res.1.toList, ?_, by simp [hbase]⟩
            rw [streamed_concat, hsent]
            simp [Stream.push, hround, bind, Except.bind, pure, Except.pure]
      refine .bind hemit fun printed => .ite (fun _ => .pure fun _ h => h) fun _ => ?_
      have hkeep := (hfeed g.next (promptLen + g.outIds.length) (g.outIds ++ [g.next]) g.rng).keeps
        (P := Sent tok base { g with outIds := g.outIds ++ [g.next], printed }) ?_
      · exact .bind (hkeep.weaken (fun _ h => h) (fun _ _ h => h) fun _ _ _ => trivial)
          fun res => (ih _).pre fun _ h => h
      · intro e e' hsame he
        obtain ⟨sent, hsent, hbase⟩ := he
        exact ⟨sent, hsent, hsame.trans hbase⟩

/-- The fragments an answer was sent in are those of the streaming loop over its
tokens, whose text is returned. -/
def StreamedAs (tok : Tokenizer) (base : List String) (text : String) (e : Engine Cell Logits) :
    Prop :=
  ∃ outIds st, streamed (nextDelta tok) outIds = .ok st ∧ e.sent = base ++ st.sent ∧
    tok.decode outIds = .ok text

theorem decodeText_streamedAs (tok : Tokenizer) (base : List String) (g : Generation) :
    Triple (Sent tok base g) (decodeText tok g.outIds)
      (fun text (e : Engine Cell Logits) => StreamedAs tok base text e) (fun _ _ => True) := by
  refine (decodeText_spec tok g.outIds).weaken (fun _ h => h) ?_ fun _ _ _ => trivial
  intro text e ⟨⟨sent, hsent, hbase⟩, htext⟩
  exact ⟨g.outIds, _, hsent, hbase, htext⟩

/-- What keeps `sent` keeps that nothing was sent since `base`. -/
theorem keeps_sent {α : Type} {m : EStateM ServeError (Engine Cell Logits) α}
    (h : Rel SameSent m) (base : List String) :
    Triple (fun e => e.sent = base) m (fun _ e => e.sent = base) (fun _ _ => True) :=
  (h.keeps fun _ _ hsame hbase => hsame.trans hbase).weaken (fun _ h => h) (fun _ _ h => h)
    fun _ _ _ => trivial

theorem sent_nil (tok : Tokenizer) {base : List String} {g : Generation} (hout : g.outIds = [])
    (hprinted : g.printed = "") {e : Engine Cell Logits} (h : e.sent = base) : Sent tok base g e :=
  ⟨[], by rw [hout, hprinted]; rfl, by simpa using h⟩

theorem generate_sent (tok : Tokenizer) (prompt : String) (maxTokens : Nat) (base : List String) :
    Triple (fun e => e.sent = base) (generate arch tok sampling prompt maxTokens true)
      (fun res e => StreamedAs tok base res.1 e) (fun _ _ => True) := by
  refine .bind (keeps_sent (tokenize_sent tok prompt) base) fun ids =>
    .bind (keeps_sent (prefill_sent arch ids) base) fun first => .get fun e he => ?_
  refine .bind ((tokenLoop_sent arch tok (stepNext_sent arch sampling) base _ _ _).pre fun s hs =>
    sent_nil tok rfl rfl (hs ▸ he)) fun g => ?_
  exact .bind (decodeText_streamedAs tok base g) fun text => .pure fun _ h => h

theorem generateSession_sent (tok : Tokenizer) (slot reuse : Nat) (ids : List Nat) (maxTokens : Nat)
    (base : List String) :
    Triple (fun e => e.sent = base)
      (generateSession arch tok sampling slot reuse ids maxTokens true)
      (fun res e => StreamedAs tok base res.1 e) (fun _ _ => True) := by
  refine .ite (fun _ => .throw fun _ _ => trivial) fun _ => ?_
  refine .bind (keeps_sent (prefillSlot_sent arch sampling slot reuse ids _ _) base) fun first => ?_
  refine .bind ((tokenLoop_sent arch tok (stepSlotNext_sent arch sampling slot) base _ _ _).pre
    fun s hs => sent_nil tok rfl rfl hs) fun g => ?_
  exact .bind (decodeText_streamedAs tok base g) fun text => .pure fun _ h => h

end Engine

end Values

end LlmPager.Serve
