import LlmPager.Serve.Handle
import LlmPager.Serve.SessionLru

/-!
# LlmPager.Serve.Lanes

What becomes of a session's context while others are served.

A request for somebody else leaves a session as it is, parks its context, or drops a
context that had to be parked (`Fate`): a turn of another session runs on that session's
own slot, and a generation without a session on slot 0. A batch runs on the first slots
whoever lives there. `reachable_lanes` is about runs without a batch that overruns the
slot of the session.
-/

namespace LlmPager.Serve

open LlmPager.Lib

variable {Cell Logits : Type}

/-- A context that lost its slot and was dropped from host memory. -/
def Session.gone (s : Session Cell) : Session Cell :=
  { s with tokens := [], slot := none, parked := none }

/-- A context that lost its slot to host memory. -/
def Session.moved (s : Session Cell) (blob : Option (Blob Cell)) : Session Cell :=
  { s with slot := none, parked := blob }

/-- What becomes of session `x`. -/
inductive Fate (arch : Arch Cell Logits) (e : Engine Cell Logits) (x : String)
    (e' : Engine Cell Logits) : Prop
  /-- It is the same, and its slot holds the same. -/
  | same : e'.sessions.find x = e.sessions.find x →
      (∀ s slot, e.sessions.find x = some s → s.slot = some slot →
        ∀ p < s.tokens.length, e'.dec.kv slot p = e.dec.kv slot p) → Fate arch e x e'
  | parked {s : Session Cell} {slot : Nat} : e.sessions.find x = some s → s.slot = some slot →
      e'.sessions.find x = some (s.moved (e.dec.context arch slot s.tokens.length)) →
      Fate arch e x e'
  | dropped {s : Session Cell} : e.sessions.find x = some s →
      e'.sessions.find x = some s.gone → Fate arch e x e'

namespace Fate

variable {arch : Arch Cell Logits} {e e' e'' : Engine Cell Logits} {x : String}

theorem refl (e : Engine Cell Logits) (x : String) : Fate arch e x e :=
  .same rfl fun _ _ _ _ _ _ => rfl

theorem trans (h : Fate arch e x e') (h' : Fate arch e' x e'') : Fate arch e x e'' := by
  cases h with
  | same hfind hkv =>
      cases h' with
      | same hfind' hkv' =>
          refine .same (hfind'.trans hfind) fun s slot hs hslot p hp => ?_
          rw [hkv' s slot (hfind.trans hs) hslot p hp, hkv s slot hs hslot p hp]
      | @parked s slot hs hslot hmoved =>
          have hs' : e.sessions.find x = some s := hfind.symm.trans hs
          have hcontext : e'.dec.context arch slot s.tokens.length =
              e.dec.context arch slot s.tokens.length := by
            unfold Decoder.context
            rw [Decoder.read_congr (hkv s slot hs' hslot)]
          exact .parked hs' hslot (hcontext ▸ hmoved)
      | dropped hs hgone => exact .dropped (hfind.symm.trans hs) hgone
  | parked hs hslot hmoved =>
      cases h' with
      | same hfind' _ => exact .parked hs hslot (hfind'.trans hmoved)
      | parked hs' hslot' _ =>
          -- a parked session has no slot to lose
          cases hmoved.symm.trans hs'
          cases hslot'
      | dropped hs' hgone =>
          cases hmoved.symm.trans hs'
          exact .dropped hs hgone
  | dropped hs hgone =>
      cases h' with
      | same hfind' _ => exact .dropped hs (hfind'.trans hgone)
      | parked hs' hslot' _ =>
          cases hgone.symm.trans hs'
          cases hslot'
      | dropped hs' hgone' =>
          cases hgone.symm.trans hs'
          exact .dropped hs hgone'

/-- A write to the store that is not about `x`. -/
theorem of_find (hfind : e'.sessions.find x = e.sessions.find x) (hdec : e'.dec.kv = e.dec.kv) :
    Fate arch e x e' :=
  .same hfind fun _ _ _ _ _ _ => by rw [hdec]

/-- Decoder calls that stay away from the slot of `x`. -/
theorem of_changesOnly {touched : Nat → Nat → Prop} (h : Engine.ChangesOnly touched e e')
    (haway : ∀ s slot, e.sessions.find x = some s → s.slot = some slot →
      ∀ p < s.tokens.length, ¬touched slot p) : Fate arch e x e' :=
  .same (by rw [h.sessions]) fun s slot hs hslot p hp => h.dec.kv slot p (haway s slot hs hslot p hp)

end Fate

/-! ### The operations of the store -/

namespace Engine

variable {arch : Arch Cell Logits} {e e' : Engine Cell Logits} {id x : String}

/-- A session is parked, and others may be dropped for it. -/
theorem ParkRun.fate (h : ParkRun arch e id e') (hs : e.sessions.LruInv) (x : String) :
    Fate arch e x e' := by
  cases h with
  | absent => exact .refl e x
  | @vacated s slot _ hfind hslot hdec hsessions =>
      have hvacated := @SessionStore.find_vacate _ e.sessions id x slot
        (e.dec.context arch slot s.tokens.length)
      obtain ⟨ids, henforced⟩ := SessionStore.enforceBudget_enforced
        (hs.stamped.vacate id slot (e.dec.context arch slot s.tokens.length))
      rw [← hsessions] at henforced
      by_cases hx : x = id
      · subst hx
        rw [if_pos rfl, hfind, Option.map_some] at hvacated
        by_cases hmem : x ∈ ids
        · obtain ⟨f, hf, -, hdropped⟩ := henforced.parked x hmem
          cases hvacated.symm.trans hf
          exact .dropped hfind hdropped
        · exact .parked hfind hslot ((henforced.untouched x hmem).trans hvacated)
      · rw [if_neg hx] at hvacated
        by_cases hmem : x ∈ ids
        · obtain ⟨f, hf, hsome, hdropped⟩ := henforced.parked x hmem
          have hnone := hs.apart x f (hvacated.symm.trans hf) hsome
          have hgone : f.dropped = f.gone := by
            cases f
            cases hnone
            rfl
          exact .dropped (hvacated.symm.trans hf) (hgone ▸ hdropped)
        · exact .of_find ((henforced.untouched x hmem).trans hvacated) hdec.kv

theorem ParkFailed.fate (h : ParkFailed e id e') (x : String) : Fate arch e x e' :=
  .of_find (by rw [h.sessions]) h.dec.kv

theorem ClaimRun.fate {slot : Nat} (h : ClaimRun arch e id slot e') (hs : e.sessions.LruInv)
    (x : String) : Fate arch e x e' := by
  cases h with
  | free => exact .of_find rfl rfl
  | parked _ _ hpark _ => exact (hpark.fate hs x).trans (.of_find rfl rfl)

theorem ClaimFailed.fate (h : ClaimFailed arch e e') (hs : e.sessions.LruInv) (x : String) :
    Fate arch e x e' := by
  cases h with
  | empty => exact .refl e x
  | park _ _ hpark => exact hpark.fate x
  | full _ _ hpark _ => exact hpark.fate hs x

/-- Nobody lives in a slot that has just been claimed. -/
theorem ClaimRun.empty {slot : Nat} (h : ClaimRun arch e id slot e') (ht : e.table.Tidy)
    (hnone : e.table.slot id = none) {s : Session Cell} (hx : e'.sessions.find x = some s) :
    s.slot ≠ some slot := by
  obtain ⟨⟨i, t, rfl, hsteps, hfree, -, htable⟩, -, -⟩ := h.claimed ht hnone
  intro hslot
  have hat : t.slot x = some (i + 1) := by
    have hleak : e'.table.slot x = t.slot x := by rw [htable]; rfl
    rw [← hleak]
    show (e'.sessions.find x).bind Session.slot = _
    rw [hx, Option.bind_some, hslot]
  obtain ⟨j, hj, howner⟩ := hsteps.tidy ht x (i + 1) hat
  obtain rfl : i = j := Nat.add_right_cancel hj
  rw [hfree] at howner
  cases howner

theorem fate_claiming (hx : x ≠ id) : Fate arch e x (e.claiming id) :=
  .of_find (by rw [find_claiming, if_neg hx]) rfl

theorem fate_settle {slot reuse : Nat} (hx : x ≠ id) : Fate arch e x (e.settle id slot reuse) := by
  refine .of_find ?_ rfl
  show SessionStore.find (SessionStore.update _ _ _) x = _
  rw [SessionStore.find_update, if_neg hx]

/-- A restore writes the slot that was claimed for it. -/
theorem RestoreRun.fate {slot len reuse reuse' : Nat} {parked : Option (Blob Cell)}
    (h : RestoreRun e slot len reuse parked reuse' e')
    (hempty : ∀ s, e.sessions.find x = some s → s.slot ≠ some slot) : Fate arch e x e' := by
  cases h with
  | skipped => exact .refl e x
  | copied _ hsessions hkv _ =>
      refine .same (by rw [hsessions]) fun s k hs hslot p _ => ?_
      rw [hkv]
      refine if_neg fun hat => hempty s hs ?_
      rw [hslot, hat.1]

theorem RestoreFailed.fate {slot len reuse : Nat} {parked : Option (Blob Cell)}
    (h : RestoreFailed e slot len reuse parked e')
    (hempty : ∀ s, e.sessions.find x = some s → s.slot ≠ some slot) : Fate arch e x e' := by
  refine .same (by rw [h.sessions]) fun s k hs hslot p _ => h.kv k p fun hat => hempty s hs ?_
  rw [hslot, hat.1]

theorem AcquireRun.fate {prompt : List Nat} {res : Nat × Nat}
    (h : AcquireRun arch e id prompt res e') (ht : e.table.Tidy) (hs : e.sessions.LruInv)
    (hx : x ≠ id) : Fate arch e x e' := by
  cases h with
  | @resident slot hslot =>
      let e₁ : Engine Cell Logits := { e with sessions := e.sessions.tick.stamp id }
      have hstamp : Fate arch e x e₁ := by
        refine .of_find ?_ rfl
        show SessionStore.find (SessionStore.stamp _ _) x = _
        rw [SessionStore.find_stamp, if_neg hx]
        rfl
      exact hstamp.trans (fate_settle hx)
  | claimed hslot hclaim hrestore =>
      have htable := table_claiming e id
      have hnone : (e.claiming id).table.slot id = none := by
        rw [htable]
        exact entry_slot.symm.trans hslot
      have hempty := fun s => hclaim.empty (x := x) (s := s) (htable ▸ ht) hnone
      exact ((fate_claiming hx).trans (hclaim.fate (lruInv_claiming hs) x)).trans
        ((hrestore.fate hempty).trans (fate_settle hx))

theorem AcquireFailed.fate {prompt : List Nat} (h : AcquireFailed arch e id prompt e')
    (ht : e.table.Tidy) (hs : e.sessions.LruInv) (hx : x ≠ id) : Fate arch e x e' := by
  cases h with
  | noSlots => exact .refl e x
  | claim _ _ hclaim => exact (fate_claiming hx).trans (hclaim.fate (lruInv_claiming hs) x)
  | restore _ hslot hclaim hrestore =>
      have htable := table_claiming e id
      have hnone : (e.claiming id).table.slot id = none := by
        rw [htable]
        exact entry_slot.symm.trans hslot
      have hempty := fun s => hclaim.empty (x := x) (s := s) (htable ▸ ht) hnone
      exact ((fate_claiming hx).trans (hclaim.fate (lruInv_claiming hs) x)).trans
        (hrestore.fate hempty)

/-- Two sessions do not share a slot. -/
theorem slot_ne (ht : e.table.Tidy) {slot : Nat} {s : Session Cell}
    (hid : e.table.slot id = some slot) (hfind : e.sessions.find x = some s) (hx : x ≠ id) :
    s.slot ≠ some slot := by
  intro hslot
  have hat : e.table.slot x = some slot := by
    show (e.sessions.find x).bind Session.slot = some slot
    rw [hfind, Option.bind_some, hslot]
  obtain ⟨i, rfl, howner⟩ := ht id slot hid
  obtain ⟨j, hj, howner'⟩ := ht x (i + 1) hat
  obtain rfl : i = j := Nat.add_right_cancel hj
  rw [howner] at howner'
  exact hx (Option.some.inj (Option.some.inj howner')).symm

end Engine

/-! ### Requests -/

section Requests

variable {arch : Arch Cell Logits} {tok : Tokenizer} {e : Engine Cell Logits} {x : String}

/-- No session lives on slot 0. -/
theorem slot_pos (he : (storeSystem arch).Reachable System.anyStep e) {s : Session Cell} {slot : Nat}
    (hfind : e.sessions.find x = some s) (hslot : s.slot = some slot) : 0 < slot := by
  have hat : e.table.slot x = some slot := by
    show (e.sessions.find x).bind Session.slot = some slot
    rw [hfind, Option.bind_some, hslot]
  obtain ⟨i, rfl, -⟩ := (reachable_slotInv he).1 x slot hat
  exact Nat.succ_pos i

/-- Decoder calls that stay away from the slot of `x`, in the middle of a run. -/
theorem Fate.keeps {α : Type} {touched : Nat → Nat → Prop} {e₁ : Engine Cell Logits}
    {m : EStateM ServeError (Engine Cell Logits) α} (h : Rel (Engine.ChangesOnly touched) m)
    (hfate : Fate arch e x e₁)
    (haway : ∀ s slot, e₁.sessions.find x = some s → s.slot = some slot →
      ∀ p < s.tokens.length, ¬touched slot p) :
    Triple (· = e₁) m (fun _ => Fate arch e x) (fun _ => Fate arch e x) :=
  (h e₁).weaken (fun _ h => h) (fun _ _ h => hfate.trans (.of_changesOnly h haway))
    fun _ _ h => hfate.trans (.of_changesOnly h haway)

/-- An `acquire` for another session, and the slot it gives. -/
theorem acquire_fate {id : String} (hx : x ≠ id) (prompt : List Nat)
    (he : (storeSystem arch).Reachable System.anyStep e) :
    Triple (· = e) (Engine.acquire arch id prompt)
      (fun res e' => Fate arch e x e' ∧ (storeSystem arch).Reachable System.anyStep e' ∧
        e'.table.slot id = some res.1)
      (fun _ e' => Fate arch e x e') := by
  have ht := (reachable_slotInv he).1
  have hs := reachable_lruInv he
  refine ((Engine.acquire_run arch id prompt e).and
    (Engine.acquire_reachable arch id prompt)).weaken (fun _ h => ⟨h, h ▸ he⟩) ?_ ?_
  · intro res e' h
    exact ⟨h.1.fate ht hs hx, h.2, (h.1.evolves ht).2⟩
  · exact fun _ e' h => h.1.fate ht hs hx

/-- A turn of another session. -/
theorem sessionTurn_fate {sid : String} (hx : x ≠ sid) (sampling : Sampling Logits)
    (prompt : String) (maxTokens : Nat) (stream : Bool)
    (he : (storeSystem arch).Reachable System.anyStep e) :
    Triple (· = e) (Engine.sessionTurn arch tok sampling sid prompt maxTokens stream)
      (fun _ => Fate arch e x) (fun _ => Fate arch e x) := by
  have htokenize := @Engine.tokenize_frame Cell Logits (fun _ _ => False) tok prompt
  refine .bind (((Fate.keeps htokenize (.refl e x) fun _ _ _ _ _ _ => id).and
    (Engine.keeps_reachable arch htokenize)).weaken (fun _ h => ⟨h, h ▸ he⟩) (fun _ _ h => h)
    fun _ _ h => h.1) fun ids => ?_
  intro e₁ h₁
  refine Triple.bind (P := (· = e₁)) (Q := fun res e' => Fate arch e x e' ∧
    (storeSystem arch).Reachable System.anyStep e' ∧ e'.table.slot sid = some res.1)
    ((acquire_fate hx ids h₁.2).weaken (fun _ h => h) (fun _ _ h => ⟨h₁.1.trans h.1, h.2⟩)
      fun _ _ h => h₁.1.trans h) (fun res => ?_) e₁ rfl
  intro e₂ h₂
  -- the session that runs has a slot of its own
  have haway : ∀ s slot, e₂.sessions.find x = some s → s.slot = some slot →
      ∀ p < s.tokens.length, ¬(slot = res.1 ∧ res.2 ≤ p) := by
    intro s slot hs hslot p _ hat
    refine Engine.slot_ne (reachable_slotInv h₂.2.1).1 h₂.2.2 hs hx ?_
    rw [hslot, hat.1]
  have hgenerate := Fate.keeps
    (Engine.generateSession_frame arch tok sampling res.1 res.2 ids maxTokens stream) h₂.1 haway
  refine Triple.bind (P := (· = e₂)) hgenerate (fun out => ?_) e₂ rfl
  refine .bind (Q := fun _ => Fate arch e x) (.modify fun e₃ h₃ => h₃.trans (.of_find ?_ rfl))
    fun _ => .pure fun _ h => h
  show SessionStore.find (SessionStore.commit _ _ _) x = _
  rw [SessionStore.find_commit, if_neg hx]

/-- A batch that is accepted has a stream for the slot in which `x` keeps its context. -/
def Request.Overruns (arch : Arch Cell Logits) (tok : Tokenizer) (e : Engine Cell Logits)
    (x : String) (req : Request Logits) : Prop :=
  ∃ prompts s slot, req.batchPrompts = some prompts ∧ req.sessionName = none ∧
    Engine.Accepted arch tok prompts ∧ e.sessions.find x = some s ∧ s.slot = some slot ∧
    s.tokens ≠ [] ∧ slot < prompts.length

/-- A request for somebody else. -/
theorem Request.fate (he : (storeSystem arch).Reachable System.anyStep e) {req : Request Logits}
    (hx : req.sessionName ≠ some x) (hlane : ¬req.Overruns arch tok e x) :
    Fate arch e x (req.run arch tok e) := by
  cases req with
  | forget id =>
      refine .of_find ?_ rfl
      show SessionStore.find (SessionStore.forget _ _).1 x = _
      rw [SessionStore.find_forget, if_neg fun h => hx (congrArg some h.symm)]
  | complete req =>
      have hname : req.sessionName ≠ some x := hx
      refine Engine.of_after (P := Fate arch e x) ?_
      unfold Engine.complete
      cases hbatch : req.batchPrompts with
      | some prompts =>
          cases hnone : req.sessionName with
          | some sid =>
              refine .throw fun e' h => ?_
              subst h
              exact .refl e' x
          | none =>
              refine .bind (Fate.keeps (Engine.generateBatch_frame arch tok req.sampling prompts _)
                (.refl e x) ?_) fun _ => .pure fun _ h => h
              intro s slot hs hslot p hp hat
              refine hlane ⟨prompts, s, slot, hbatch, hnone, hat.1, hs, hslot, ?_, hat.2⟩
              exact List.ne_nil_of_length_pos (Nat.zero_lt_of_lt hp)
      | none =>
          cases req.promptText with
          | error err =>
              refine .throw fun e' h => ?_
              subst h
              exact .refl e' x
          | ok prompt =>
              show Triple _ (Engine.single arch tok req prompt) _ _
              unfold Engine.single
              cases hsid : req.sessionName with
              | some sid =>
                  have hne : x ≠ sid := fun h => hname (hsid.trans (congrArg some h.symm))
                  exact .bind (sessionTurn_fate hne req.sampling prompt _ _ he) fun _ =>
                    .pure fun _ h => h
              | none =>
                  refine .bind (Fate.keeps (Engine.generate_frame arch tok req.sampling prompt _ _)
                    (.refl e x) ?_) fun _ => .pure fun _ h => h
                  intro s slot hs hslot p _ hat
                  exact Nat.ne_of_gt (slot_pos he hs hslot) hat

/-- A run of requests for others, none of which overruns the slot. -/
theorem run_fate {e' : Engine Cell Logits} {reqs : List (Request Logits)}
    (he : (storeSystem arch).Reachable System.anyStep e)
    (hrun : (engineSystem arch tok).Run
      (fun e req => req.sessionName ≠ some x ∧ ¬req.Overruns arch tok e x) e reqs e') :
    Fate arch e x e' ∧ (storeSystem arch).Reachable System.anyStep e' := by
  refine @System.Run.preserves _ _ _ _ (fun e' => Fate arch e x e' ∧
    (storeSystem arch).Reachable System.anyStep e') ?_ _ _ _ hrun ⟨.refl e x, he⟩
  intro e₁ req e₂ h₁ hguard hstep
  obtain rfl : e₂ = req.run arch tok e₁ := hstep
  exact ⟨h₁.1.trans (req.fate h₁.2 hguard.1 hguard.2), Request.reachable_run h₁.2 req⟩

/-- **Session lanes.** From any state in which `x` is resident, through any run of requests
that do not name it, none of them a batch that overruns its slot: `x` is still resident there
with the same tokens, and its positions hold what they held; or it has no slot, and its
context is in host memory, or is dropped with its tokens. -/
theorem reachable_lanes {e' : Engine Cell Logits} {reqs : List (Request Logits)}
    {C : Engine Cell Logits → Request Logits → Prop} {s : Session Cell} {slot : Nat}
    (he : (engineSystem arch tok).Reachable C e) (hfind : e.sessions.find x = some s)
    (hslot : s.slot = some slot)
    (hrun : (engineSystem arch tok).Run
      (fun e req => req.sessionName ≠ some x ∧ ¬req.Overruns arch tok e x) e reqs e') :
    ∃ s', e'.sessions.find x = some s' ∧
      ((s'.slot = some slot ∧ s'.tokens = s.tokens ∧
          ∀ p < s.tokens.length, e'.dec.kv slot p = e.dec.kv slot p) ∨
        (s'.slot = none ∧
          ((s'.tokens = s.tokens ∧ s'.parked = e.dec.context arch slot s.tokens.length) ∨
            (s'.tokens = [] ∧ s'.parked = none)))) := by
  obtain ⟨hfate, -⟩ := run_fate (reachable_store he) hrun
  cases hfate with
  | same hfind' hkv =>
      exact ⟨s, hfind'.trans hfind, .inl ⟨hslot, rfl, hkv s slot hfind hslot⟩⟩
  | parked hs hslot' hmoved =>
      cases hfind.symm.trans hs
      cases hslot.symm.trans hslot'
      exact ⟨_, hmoved, .inr ⟨rfl, .inl ⟨rfl, rfl⟩⟩⟩
  | dropped hs hgone => exact ⟨_, hgone, .inr ⟨rfl, .inr ⟨rfl, rfl⟩⟩⟩

end Requests

/-! ### Two sessions -/

/-- A position holds its token, and behind a token comes the next one. -/
def tokenArch (batch : Nat) : Arch Nat Nat where
  batch := batch
  maxSeq := 8
  kvBytesPerToken := 1
  eos := []
  cell _ token := token
  logits _ token := token + 1
  argmax := id
  fails _ := none
  junk _ _ _ := 0

/-- A completion of one token. -/
def completion (session : Option String) (prompt : PromptField) : Request Nat :=
  .complete
    { chat := false, stream := false, maxTokens := some 1, session, sessionId := none, prompt,
      n := none, messages := none, sampling := greedy }

/-- An engine with two session slots. -/
def noSessions : Engine Nat Nat where
  dec := { kv := fun _ _ => 0, lastLogits := 0, logitsMulti := [], calls := 0, copies := [] }
  sessions := .new 3 64
  sent := []

/-- ... after one turn of `a` and one of `b`. -/
def twoSessions : Engine Nat Nat :=
  (completion "b" (.text "xy")).run (tokenArch 3) charTokenizer
    ((completion "a" (.text "ab")).run (tokenArch 3) charTokenizer noSessions)

/-- A batch of two prompts. -/
def batchOfTwo : Request Nat := completion none (.array ["c", "d"])

theorem twoSessions_reachable :
    (engineSystem (tokenArch 3) charTokenizer).Reachable System.anyStep twoSessions := by
  have h₀ : (engineSystem (tokenArch 3) charTokenizer).Reachable System.anyStep noSessions :=
    .init ⟨⟨64, rfl⟩, rfl⟩
  have h₁ := h₀.step (a := completion "a" (.text "ab")) trivial rfl
  exact h₁.step (a := completion "b" (.text "xy")) trivial rfl

/-- A batch of two prompts has no stream for slot 2, where `b` is. -/
theorem reachable_lanes_spared :
    ∃ s', (batchOfTwo.run (tokenArch 3) charTokenizer twoSessions).sessions.find "b" = some s' ∧
      ((s'.slot = some 2 ∧ s'.tokens = [120, 121, 122] ∧
          ∀ p < 3, (batchOfTwo.run (tokenArch 3) charTokenizer twoSessions).dec.kv 2 p =
            twoSessions.dec.kv 2 p) ∨
        (s'.slot = none ∧
          ((s'.tokens = [120, 121, 122] ∧
              s'.parked = twoSessions.dec.context (tokenArch 3) 2 3) ∨
            (s'.tokens = [] ∧ s'.parked = none)))) := by
  refine @reachable_lanes _ _ _ _ _ _ _ _ _ ⟨[120, 121, 122], some 2, none, 4, 1⟩ _
    twoSessions_reachable rfl rfl
    (.snoc (a := batchOfTwo) (.nil _) ⟨by decide, ?_⟩ rfl)
  rintro ⟨prompts, s, slot, hprompts, -, -, hfind, hslot, -, hlt⟩
  cases hprompts
  cases hfind
  cases hslot
  exact absurd hlt (by decide)

/-- **A batch overruns a session.** Session `a` is resident in slot 1 with three tokens. A
batch of two prompts that names no session writes its second prompt over them, and the
store still says that the slot holds them. -/
theorem lane_overrun :
    (engineSystem (tokenArch 3) charTokenizer).Reachable System.anyStep twoSessions ∧
      batchOfTwo.sessionName = none ∧
      ∃ s e', e' = batchOfTwo.run (tokenArch 3) charTokenizer twoSessions ∧
        twoSessions.sessions.find "a" = some s ∧ s.slot = some 1 ∧ s.tokens = [97, 98, 99] ∧
        e'.sessions.find "a" = some s ∧ twoSessions.dec.kv 1 0 = 97 ∧ e'.dec.kv 1 0 = 100 :=
  ⟨twoSessions_reachable, rfl, _, _, rfl, rfl, rfl, rfl, rfl, rfl, rfl⟩

end LlmPager.Serve
