import LlmPager.Serve.Lanes

/-!
# LlmPager.Serve.Reuse

Why a session may skip what it has already run.

A session's token list describes what its slot or its parked blob holds
(`Engine.Sound`). Requests without a batch keep that: others' contexts move or stay
(`Fate`), `acquire` cuts the list back to what the turn will not overwrite before
anything is written, and `commit` records what `generate_session` has left in the slot.
-/

namespace LlmPager.Serve

open LlmPager.Lib

variable {Cell Logits : Type}

/-! ### Prefixes -/

theorem length_commonPrefix (a b : List Nat) :
    commonPrefix a b ≤ a.length ∧ commonPrefix a b ≤ b.length := by
  have hle : commonPrefix a b ≤ (a.zip b).length := (List.takeWhile_sublist _).length_le
  rw [List.length_zip] at hle
  omega

/-- Up to their common prefix two lists are the same. -/
theorem take_commonPrefix {a b : List Nat} {n : Nat} (h : n ≤ commonPrefix a b) :
    a.take n = b.take n := by
  induction a generalizing b n with
  | nil =>
      have hn := (length_commonPrefix [] b).1
      rw [Nat.le_zero.mp (h.trans hn)]
      rfl
  | cons x a ih =>
      cases b with
      | nil =>
          have hn := (length_commonPrefix (x :: a) []).2
          rw [Nat.le_zero.mp (h.trans hn)]
          rfl
      | cons y b =>
          cases n with
          | zero => rfl
          | succ n =>
              by_cases hxy : x = y
              · subst hxy
                have hcons : commonPrefix (x :: a) (x :: b) = commonPrefix a b + 1 := by
                  simp [commonPrefix]
                rw [List.take_succ_cons, List.take_succ_cons, ih (show n ≤ commonPrefix a b by omega)]
              · have hzero : commonPrefix (x :: a) (y :: b) = 0 := by simp [commonPrefix, hxy]
                omega

namespace Engine

variable {arch : Arch Cell Logits} {tok : Tokenizer} {e e' : Engine Cell Logits} {id x : String}

theorem reusable_lt (session : Session Cell) (prompt : List Nat) :
    reusable session prompt < max 1 prompt.length := by
  unfold reusable
  omega

theorem take_reusable (session : Session Cell) (prompt : List Nat) :
    session.tokens.take (reusable session prompt) = prompt.take (reusable session prompt) :=
  take_commonPrefix (Nat.min_le_left _ _)

/-! ### What a token list describes -/

/-- The tokens of a session are those of the context in its slot, and of its parked
context. -/
structure Describes (arch : Arch Cell Logits) (d : Decoder Cell Logits) (s : Session Cell) :
    Prop where
  resident : ∀ slot, s.slot = some slot → d.Holds arch slot s.tokens
  parked : ∀ blob, s.parked = some blob → blob.cells = arch.kvOf s.tokens

def Sound (arch : Arch Cell Logits) (e : Engine Cell Logits) : Prop :=
  ∀ x s, e.sessions.find x = some s → Describes arch e.dec s

/-- A session without a context. -/
theorem describes_idle {d : Decoder Cell Logits} {s : Session Cell} (hslot : s.slot = none)
    (hparked : s.parked = none) : Describes arch d s := by
  constructor
  · intro slot h
    rw [hslot] at h
    cases h
  · intro blob h
    rw [hparked] at h
    cases h

end Engine

open Engine

/-- Whatever becomes of a session, its tokens go with its context. -/
theorem Fate.describes {arch : Arch Cell Logits} {e e' : Engine Cell Logits} {x : String}
    (h : Fate arch e x e') (hx : ∀ s, e.sessions.find x = some s → Describes arch e.dec s)
    {s' : Session Cell} (hs' : e'.sessions.find x = some s') : Describes arch e'.dec s' := by
  cases h with
  | same hfind hkv =>
      have hs := hfind.symm.trans hs'
      refine ⟨fun slot hslot => ?_, (hx s' hs).parked⟩
      exact ((hx s' hs).resident slot hslot).congr (hkv s' slot hs hslot)
  | @parked s slot hs hslot hmoved =>
      cases hmoved.symm.trans hs'
      refine ⟨nofun, fun blob hblob => ?_⟩
      -- what was copied is what the slot held
      have hholds : e.dec.read slot s.tokens.length = arch.kvOf s.tokens :=
        (hx s hs).resident slot hslot
      have hcontext : e.dec.context arch slot s.tokens.length = some blob := hblob
      unfold Decoder.context at hcontext
      split at hcontext
      · cases hcontext
        exact hholds
      · cases hcontext
  | dropped hs hgone =>
      cases hgone.symm.trans hs'
      exact describes_idle rfl rfl

namespace Engine

variable {arch : Arch Cell Logits} {tok : Tokenizer} {e e' : Engine Cell Logits} {id x : String}

theorem Sound.of_fate (hs : e.Sound arch) (h : ∀ x, Fate arch e x e') : e'.Sound arch :=
  fun x _ hfind => (h x).describes (hs x) hfind

/-! ### `acquire` -/

/-- What `acquire` gives: a slot that holds the prefix it reports, and the session
cut back to it. -/
structure Acquired (arch : Arch Cell Logits) (id : String) (prompt : List Nat) (res : Nat × Nat)
    (e' : Engine Cell Logits) : Prop where
  slot : 1 ≤ res.1
  reuse : res.2 < max 1 prompt.length
  holds : e'.dec.Holds arch res.1 (prompt.take res.2)
  session : ∃ s, e'.sessions.find id = some s ∧ s.slot = some res.1 ∧
    s.tokens = prompt.take res.2 ∧ s.parked = none

theorem Acquired.describes {prompt : List Nat} {res : Nat × Nat}
    (h : Acquired arch id prompt res e') {s : Session Cell}
    (hfind : e'.sessions.find id = some s) : Describes arch e'.dec s := by
  obtain ⟨s', hs', hslot, htokens, hparked⟩ := h.session
  cases hs'.symm.trans hfind
  refine ⟨fun slot hat => ?_, fun blob hblob => ?_⟩
  · cases hslot.symm.trans hat
    rw [htokens]
    exact h.holds
  · rw [hparked] at hblob
    cases hblob

/-- The entry of a session has its context. -/
theorem describes_entry (hs : e.Sound arch) : Describes arch e.dec (e.sessions.tick.entry id) := by
  unfold SessionStore.entry
  rw [SessionStore.find_tick]
  cases hfind : e.sessions.find id with
  | none => exact describes_idle rfl rfl
  | some s => exact ⟨(hs id s hfind).resident, (hs id s hfind).parked⟩

theorem find_settle {slot reuse : Nat} {s : Session Cell} (hfind : e.sessions.find id = some s) :
    (e.settle id slot reuse).sessions.find id =
      some { s with slot := some slot, tokens := s.tokens.take reuse } := by
  show SessionStore.find (SessionStore.update _ _ _) id = _
  rw [SessionStore.find_update, if_pos rfl, hfind]
  rfl

theorem AcquireRun.acquired {prompt : List Nat} {res : Nat × Nat}
    (h : AcquireRun arch e id prompt res e') (ht : e.table.Tidy) (hlru : e.sessions.LruInv)
    (hs : e.Sound arch) : Acquired arch id prompt res e' := by
  have hpos : 1 ≤ res.1 := by
    obtain ⟨i, hi, -⟩ := (h.evolves ht).1.elim fun copies hevolves =>
      (hevolves.2.elim fun leaked hsteps => hsteps.1.tidy ht) id res.1 (h.evolves ht).2
    omega
  have hentry := @describes_entry _ _ arch e id hs
  cases h with
  | @resident slot hslot =>
      let e₁ : Engine Cell Logits := { e with sessions := e.sessions.tick.stamp id }
      have hfind : e₁.sessions.find id = some (e.sessions.tick.entry id) := by
        show SessionStore.find (SessionStore.stamp _ _) id = _
        rw [SessionStore.find_stamp, if_pos rfl]
      have hparked : (e.sessions.tick.entry id).parked = none := by
        by_contra hsome
        have hstamp : e₁.sessions.LruInv := hlru.stamp
        have hnone := hstamp.apart id _ hfind (Option.isSome_iff_ne_none.mpr hsome)
        rw [hnone] at hslot
        cases hslot
      refine ⟨hpos, reusable_lt _ _, ?_, _, find_settle (e := e₁) hfind, rfl, take_reusable _ _,
        hparked⟩
      have hholds := (hentry.resident slot hslot).take
        (reusable (e.sessions.tick.entry id) prompt)
      rwa [take_reusable] at hholds
  | @claimed slot reuse e₁ e₂ hslot hclaim hrestore =>
      have hfind : (e.claiming id).sessions.find id =
          some { e.sessions.tick.entry id with parked := none } := by
        rw [find_claiming, if_pos rfl]
      have hidle := hclaim.find_idle (lruInv_claiming hlru) hfind hslot rfl
      rw [← hrestore.sessions] at hidle
      generalize hparked : (e.sessions.tick.entry id).parked = parked at hrestore
      cases hrestore with
      | skipped =>
          refine ⟨hpos, by omega, Decoder.holds_nil, _, find_settle hidle, rfl, ?_, rfl⟩
          simp
      | copied _ _ hkv _ =>
          refine ⟨hpos, reusable_lt _ _, ?_, _, find_settle hidle, rfl, take_reusable _ _, rfl⟩
          -- the blob holds the tokens it was parked with
          have hholds := (@Decoder.restored_holds _ _ arch e₁.dec slot _ _
            (hentry.parked _ hparked)).congr fun p _ => congrFun (congrFun hkv slot) p
          have hprefix := hholds.take (reusable (e.sessions.tick.entry id) prompt)
          rwa [take_reusable] at hprefix

theorem ClaimFailed.find_idle {session : Session Cell} (h : ClaimFailed arch e e')
    (hlru : e.sessions.LruInv) (hx : e.sessions.find x = some session) (hslot : session.slot = none)
    (hparked : session.parked = none) : e'.sessions.find x = some session := by
  cases h with
  | empty => exact hx
  | park _ _ hpark => rw [hpark.sessions, hx]
  | full _ _ hpark _ => exact hpark.find_idle hlru hx hslot hparked

/-- An `acquire` that fails leaves its session without a context, if it got so far. -/
theorem AcquireFailed.describes {prompt : List Nat} (h : AcquireFailed arch e id prompt e')
    (hlru : e.sessions.LruInv) (hs : e.Sound arch) {s : Session Cell}
    (hfind : e'.sessions.find id = some s) : Describes arch e'.dec s := by
  have hclaiming : (e.claiming id).sessions.find id =
      some { e.sessions.tick.entry id with parked := none } := by
    rw [find_claiming, if_pos rfl]
  cases h with
  | noSlots => exact hs id s hfind
  | claim _ hslot hclaim =>
      have hidle := hclaim.find_idle (lruInv_claiming hlru) hclaiming hslot rfl
      cases hidle.symm.trans hfind
      exact describes_idle hslot rfl
  | restore _ hslot hclaim hrestore =>
      have hidle := hclaim.find_idle (lruInv_claiming hlru) hclaiming hslot rfl
      rw [hrestore.sessions] at hfind
      cases hidle.symm.trans hfind
      exact describes_idle hslot rfl

theorem acquire_sound (id : String) (prompt : List Nat)
    (he : (storeSystem arch).Reachable System.anyStep e) (hs : e.Sound arch) :
    Triple (· = e) (acquire arch id prompt)
      (fun res e' => Acquired arch id prompt res e' ∧ e'.Sound arch ∧
        (storeSystem arch).Reachable System.anyStep e')
      (fun _ e' => e'.Sound arch) := by
  have ht := (reachable_slotInv he).1
  have hlru := reachable_lruInv he
  refine ((acquire_run arch id prompt e).and (acquire_reachable arch id prompt)).weaken
    (fun _ h => ⟨h, h ▸ he⟩) ?_ ?_
  · intro res e' h
    have hacquired := h.1.acquired ht hlru hs
    refine ⟨hacquired, fun x s hfind => ?_, h.2⟩
    by_cases hx : x = id
    · subst hx
      exact hacquired.describes hfind
    · exact (h.1.fate ht hlru hx).describes (hs x) hfind
  · intro _ e' h x s hfind
    by_cases hx : x = id
    · subst hx
      exact h.1.describes hlru hs hfind
    · exact (h.1.fate ht hlru hx).describes (hs x) hfind

/-! ### Turns -/

/-- Sound, in a state that the store reaches. -/
def SoundState (arch : Arch Cell Logits) (e : Engine Cell Logits) : Prop :=
  e.Sound arch ∧ (storeSystem arch).Reachable System.anyStep e

/-- Decoder calls that stay away from all contexts. -/
theorem SoundState.keeps {α : Type} {touched : Nat → Nat → Prop}
    {m : EStateM ServeError (Engine Cell Logits) α} (h : Rel (ChangesOnly touched) m)
    (he : e.SoundState arch)
    (haway : ∀ x s slot, e.sessions.find x = some s → s.slot = some slot →
      ∀ p < s.tokens.length, ¬touched slot p) :
    Triple (· = e) m (fun _ => SoundState arch) (fun _ => SoundState arch) := by
  refine ((h e).and (keeps_reachable arch h)).weaken (fun _ h => ⟨h, h ▸ he.2⟩) ?_ ?_
  · exact fun _ _ h => ⟨he.1.of_fate fun x => .of_changesOnly h.1 (haway x), h.2⟩
  · exact fun _ _ h => ⟨he.1.of_fate fun x => .of_changesOnly h.1 (haway x), h.2⟩

/-- The turn of a session writes behind the prefix it reuses. -/
theorem Acquired.away {prompt : List Nat} {res : Nat × Nat} (h : Acquired arch id prompt res e)
    (ht : e.table.Tidy) {s : Session Cell} {slot : Nat} (hfind : e.sessions.find x = some s)
    (hslot : s.slot = some slot) : ∀ p < s.tokens.length, ¬(slot = res.1 ∧ res.2 ≤ p) := by
  obtain ⟨s', hs', hslot', htokens, -⟩ := h.session
  intro p hp hat
  by_cases hx : x = id
  · subst hx
    cases hs'.symm.trans hfind
    rw [htokens, List.length_take] at hp
    omega
  · have hid : e.table.slot id = some res.1 := by
      show (e.sessions.find id).bind Session.slot = _
      rw [hs', Option.bind_some, hslot']
    exact slot_ne ht hid hfind hx (hslot.trans (congrArg some hat.1))

/-- What a turn leaves in the store is what its generation leaves in the slot. -/
theorem sound_commit {context : List Nat} (hs : e.Sound arch)
    (hid : ∀ s, e.sessions.find id = some s → s.parked = none ∧
      ∀ slot, s.slot = some slot → e.dec.Holds arch slot context) :
    Sound arch { e with sessions := e.sessions.commit id context } := by
  intro x s hfind
  replace hfind : (e.sessions.commit id context).find x = some s := hfind
  rw [SessionStore.find_commit] at hfind
  by_cases hx : x = id
  · rw [if_pos hx] at hfind
    obtain ⟨s', hs', rfl⟩ := Option.map_eq_some_iff.mp hfind
    refine ⟨(hid s' hs').2, fun blob hblob => ?_⟩
    rw [show (Session.mk context s'.slot s'.parked _ _).parked = s'.parked from rfl,
      (hid s' hs').1] at hblob
    cases hblob
  · rw [if_neg hx] at hfind
    exact ⟨(hs x s hfind).resident, (hs x s hfind).parked⟩

theorem sessionTurn_sound (sampling : Sampling Logits) (sid prompt : String) (maxTokens : Nat)
    (stream : Bool) :
    Triple (SoundState arch) (sessionTurn arch tok sampling sid prompt maxTokens stream)
      (fun _ => Sound arch) (fun _ => Sound arch) := by
  have htokenize := @tokenize_frame Cell Logits (fun _ _ => False) tok prompt
  refine .bind (Q := fun _ => SoundState arch) (fun e he => ?_) fun ids e₁ he₁ => ?_
  · exact (SoundState.keeps htokenize he fun _ _ _ _ _ _ _ => id).weaken (fun _ h => h)
      (fun _ _ h => h) (fun _ _ h => h.1) e rfl
  refine Triple.bind (P := (· = e₁)) (acquire_sound sid ids he₁.2 he₁.1) (fun res e₂ he₂ => ?_)
    e₁ rfl
  obtain ⟨hacquired, hsound, hreach⟩ := he₂
  have hframe := generateSession_frame arch tok sampling res.1 res.2 ids maxTokens stream
  have hkeeps := SoundState.keeps (e := e₂) hframe ⟨hsound, hreach⟩ fun x s slot hfind hslot =>
    hacquired.away (reachable_slotInv hreach).1 hfind hslot
  have hspec := @generateSession_spec _ _ arch sampling tok res.1 res.2 ids hacquired.reuse
    maxTokens stream
  refine Triple.bind (P := (· = e₂)) (((hkeeps.and hspec).and (hframe e₂)).weaken
    (fun e h => ⟨⟨h, h ▸ hacquired.holds⟩, h⟩) (fun _ _ h => h) fun _ _ h => h.1.1.1) (fun out => ?_)
    e₂ rfl
  refine .bind (Q := fun _ => Sound arch) (.modify fun e₃ he₃ => ?_) fun _ => .pure fun _ h => h
  obtain ⟨⟨⟨hsound₃, -⟩, hholds, -⟩, hchanges⟩ := he₃
  obtain ⟨s, hfind, hslot, -, hparked⟩ := hacquired.session
  refine sound_commit hsound₃ fun s' hfind' => ?_
  rw [hchanges.sessions] at hfind'
  cases hfind.symm.trans hfind'
  refine ⟨hparked, fun slot hat => ?_⟩
  cases hslot.symm.trans hat
  exact hholds

/-! ### Requests -/

theorem run_sound (he : e.SoundState arch) {req : Request Logits} (hbatch : req.batchPrompts = none) :
    (req.run arch tok e).SoundState arch := by
  refine ⟨?_, req.reachable_run he.2⟩
  cases req with
  | forget id =>
      intro x s hfind
      replace hfind : (e.sessions.forget id).1.find x = some s := hfind
      rw [SessionStore.find_forget] at hfind
      split at hfind
      · cases hfind
      · exact he.1 x s hfind
  | complete req =>
      refine Engine.of_after (P := Sound arch) ?_
      have hnone : req.batchPrompts = none := hbatch
      unfold complete
      rw [hnone]
      cases req.promptText with
      | error err =>
          refine .throw fun e' h => ?_
          subst h
          exact he.1
      | ok prompt =>
          show Triple _ (single arch tok req prompt) _ _
          unfold single
          cases req.sessionName with
          | some sid =>
              exact .bind ((sessionTurn_sound req.sampling sid prompt _ _).pre fun _ h => h ▸ he)
                fun _ => .pure fun _ h => h
          | none =>
              have hgenerate := SoundState.keeps
                (generate_frame arch tok req.sampling prompt req.tokenLimit req.stream) he
                fun x s slot hfind hslot p _ hat => Nat.ne_of_gt (slot_pos he.2 hfind hslot) hat
              exact .bind (hgenerate.weaken (fun _ h => h) (fun _ _ h => h.1) fun _ _ h => h.1)
                fun _ => .pure fun _ h => h

theorem reachable_sound
    (h : (engineSystem arch tok).Reachable (fun _ req => req.batchPrompts = none) e) :
    e.SoundState arch := by
  refine h.invariant ?_ ?_
  · intro e ⟨⟨ramBudget, hsessions⟩, hcopies⟩
    refine ⟨fun x s hfind => ?_, .init ⟨⟨ramBudget, hsessions⟩, hcopies⟩⟩
    rw [hsessions] at hfind
    cases hfind
  · intro e req e' he hbatch hstep
    obtain rfl : e' = req.run arch tok e := hstep
    exact run_sound he hbatch

end Engine

/-- **Reuse is sound.** In every state between requests that are no batches, whatever fails:
the tokens of a session are those of the context in its slot and of its parked context. And
whatever `acquire` is asked for there, the slot it gives is no slot 0, the prefix it reports
leaves a token to run, and each of its positions holds what the prompt up to it gives; the
context that `generate_session` then returns is what the slot holds. -/
theorem reachable_reuse {arch : Arch Cell Logits} {tok : Tokenizer} {e : Engine Cell Logits}
    (h : (engineSystem arch tok).Reachable (fun _ req => req.batchPrompts = none) e) :
    (∀ x s, e.sessions.find x = some s →
        (∀ slot, s.slot = some slot → e.dec.Holds arch slot s.tokens) ∧
          ∀ blob, s.parked = some blob → blob.cells = arch.kvOf s.tokens) ∧
      ∀ id prompt slot reuse e₁, Engine.acquire arch id prompt e = .ok (slot, reuse) e₁ →
        1 ≤ slot ∧ reuse < max 1 prompt.length ∧
        (∀ i < reuse, (arch.kvOf (prompt.take (i + 1)))[i]? = some (e₁.dec.kv slot i)) ∧
        ∀ sampling maxTokens stream text context prefilled generated e₂,
          Engine.generateSession arch tok sampling slot reuse prompt maxTokens stream e₁ =
            .ok (text, context, prefilled, generated) e₂ →
          e₂.dec.Holds arch slot context ∧ ∃ g : Generation,
            context = prompt ++ g.outIds.take g.kvTokens ∧ tok.decode g.outIds = .ok text ∧
              Engine.Counted arch prompt.length g := by
  obtain ⟨hsound, hreach⟩ := reachable_sound h
  refine ⟨fun x s hfind => ⟨(hsound x s hfind).resident, (hsound x s hfind).parked⟩, ?_⟩
  intro id prompt slot reuse e₁ hrun
  obtain ⟨hacquired, -, -⟩ := (Engine.acquire_sound id prompt hreach hsound).ok rfl hrun
  refine ⟨hacquired.slot, hacquired.reuse, fun i hi => ?_, ?_⟩
  · have hprefix := hacquired.holds.take (i + 1)
    have hmin : min (i + 1) reuse = i + 1 := by omega
    rw [List.take_take, hmin] at hprefix
    have hlen : i < (prompt.take (i + 1)).length := by
      have hreuse : reuse < max 1 prompt.length := hacquired.reuse
      rw [List.length_take]
      omega
    rw [← show e₁.dec.read slot (prompt.take (i + 1)).length = _ from hprefix,
      Decoder.getElem?_read, if_pos hlen]
  · intro sampling maxTokens stream text context prefilled generated e₂ hgenerate
    obtain ⟨hholds, g, hres, htext, hcounted⟩ := (Engine.generateSession_spec arch sampling tok
      hacquired.reuse maxTokens stream).ok hacquired.holds hgenerate
    exact ⟨hholds, g, congrArg Prod.fst hres, htext, hcounted⟩

/-- An engine with one session slot, in which `b` has taken the place of `a`. -/
def oneSlot : Engine Nat Nat :=
  (completion "b" (.text "xy")).run (tokenArch 2) charTokenizer
    ((completion "a" (.text "ab")).run (tokenArch 2) charTokenizer
      { noSessions with sessions := .new 2 64 })

/-- What a call returns, if it does not fail. -/
def Engine.returned {α : Type} (m : EStateM ServeError (Engine Cell Logits) α)
    (e : Engine Cell Logits) : Option α :=
  match m e with
  | .ok a _ => some a
  | .error _ _ => none

theorem Engine.ok_of_returned {α : Type} {m : EStateM ServeError (Engine Cell Logits) α}
    {e : Engine Cell Logits} {a : α} (h : returned m e = some a) : m e = .ok a (after m e) := by
  unfold returned at h
  unfold after
  cases hm : m e with
  | ok b e' =>
      rw [hm] at h
      cases h
      rfl
  | error err e' =>
      rw [hm] at h
      cases h

/-- The context of `a` comes back from host memory, and all of it is reused. -/
theorem reachable_reuse_restored :
    ∃ e₁, Engine.acquire (tokenArch 2) "a" [97, 98, 99, 100] oneSlot = .ok (1, 3) e₁ ∧
      ∀ i < 3, ((tokenArch 2).kvOf ([97, 98, 99, 100].take (i + 1)))[i]? =
        some (e₁.dec.kv 1 i) := by
  have h₀ : (engineSystem (tokenArch 2) charTokenizer).Reachable
      (fun _ req => req.batchPrompts = none) { noSessions with sessions := .new 2 64 } :=
    .init ⟨⟨64, rfl⟩, rfl⟩
  have h₁ := h₀.step (a := completion "a" (.text "ab")) rfl rfl
  have h₂ : (engineSystem (tokenArch 2) charTokenizer).Reachable
      (fun _ req => req.batchPrompts = none) oneSlot :=
    h₁.step (a := completion "b" (.text "xy")) rfl rfl
  have hrun := Engine.ok_of_returned
    (show Engine.returned (Engine.acquire (tokenArch 2) "a" [97, 98, 99, 100]) oneSlot =
      some (1, 3) by decide +kernel)
  exact ⟨_, hrun, ((reachable_reuse h₂).2 "a" _ 1 3 _ hrun).2.2.1⟩

end LlmPager.Serve
