import LlmPager.Serve.Session

/-!
# LlmPager.Serve.Acquire

What the fallible operations of the session store can do, each inverted once.

`park`, `claim_slot`, `restore` and `acquire` are read into relations between the
engine before and the engine after: one constructor for each way through the
source. A copy on the way leaves the sessions alone, so a relation names the
writes to the store exactly; of the decoder it says what happened to its slots and
which copies were made.
-/

namespace LlmPager.Serve

open LlmPager.Lib

variable {Cell Logits : Type}

/-- Some `kv_import` failed. -/
def ImportFailed (copies : List KvCopy) : Prop := ∃ c ∈ copies, c.kind = .kvImport ∧ c.ok = false

/-- Some copy failed. -/
def CopyFailed (copies : List KvCopy) : Prop := ∃ c ∈ copies, c.ok = false

/-- The slot of a session, if there is such a session and it has one. -/
def SessionStore.slotOf (s : SessionStore Cell) (id : String) : Option Nat :=
  (s.find id).bind Session.slot

/-- An export, or none: no slot changes, and `failed` says how it ended. -/
structure Decoder.Exported (d : Decoder Cell Logits) (failed : Bool) (d' : Decoder Cell Logits) :
    Prop where
  kv : d'.kv = d.kv
  copies : ∃ copies, d'.copies = d.copies ++ copies ∧ ¬ImportFailed copies ∧
    (failed = true → CopyFailed copies)

theorem Decoder.Exported.refl (d : Decoder Cell Logits) : d.Exported false d :=
  ⟨rfl, [], by simp, by simp [ImportFailed], by simp⟩

/-- The parked form of what a slot holds. -/
def Decoder.context (arch : Arch Cell Logits) (d : Decoder Cell Logits) (slot len : Nat) :
    Option (Blob Cell) :=
  if 0 < len then some ⟨d.read slot len, arch.kvBytesPerToken * len⟩ else none

namespace Engine

variable (arch : Arch Cell Logits)

/-- An export gives what the slot holds, or fails. -/
theorem exportContext_run (slot len : Nat) (e : Engine Cell Logits) :
    Triple (· = e) (exportContext arch slot len)
      (fun blob e' => e'.sessions = e.sessions ∧ e.dec.Exported false e'.dec ∧
        blob = e.dec.context arch slot len)
      (fun _ e' => e'.sessions = e.sessions ∧ e.dec.Exported true e'.dec ∧ 0 < len) := by
  unfold exportContext
  refine .ite (fun hlen => ?_) fun hlen => .pure fun _ hs => ?_
  · refine .bind ?_ fun blob => .pure fun _ h => h
    refine .zoom fun t ht => ?_
    subst ht
    refine (Decoder.kvExport_spec arch slot len t.dec).weaken (fun _ h => h) ?_ ?_
    · intro blob d ⟨hblob, hkv, hcopies⟩
      refine ⟨rfl, ⟨hkv, _, hcopies, by simp [ImportFailed], by simp⟩, ?_⟩
      rw [Decoder.context, if_pos hlen, hblob]
    · intro err d ⟨hkv, hcopies⟩
      exact ⟨rfl, ⟨hkv, _, hcopies, by simp [ImportFailed], by simp [CopyFailed]⟩, hlen⟩
  · subst hs
    exact ⟨rfl, .refl _, by rw [Decoder.context, if_neg hlen]⟩

/-- A `park` that ends well. -/
inductive ParkRun (e : Engine Cell Logits) (id : String) : Engine Cell Logits → Prop
  /-- Nothing to do: there is no such session, or it has no slot. -/
  | absent : e.sessions.slotOf id = none → ParkRun e id e
  | vacated {s : Session Cell} {slot : Nat} {e' : Engine Cell Logits} :
      e.sessions.find id = some s → s.slot = some slot → e.dec.Exported false e'.dec →
      e'.sessions = (e.sessions.vacate id slot
        (e.dec.context arch slot s.tokens.length)).enforceBudget → ParkRun e id e'

/-- A `park` whose export fails leaves the store alone. -/
structure ParkFailed (e : Engine Cell Logits) (id : String) (e' : Engine Cell Logits) : Prop where
  resident : e.sessions.slotOf id ≠ none
  sessions : e'.sessions = e.sessions
  dec : e.dec.Exported true e'.dec

theorem park_run (id : String) (e : Engine Cell Logits) :
    Triple (· = e) (park arch id) (fun _ e' => ParkRun arch e id e')
      (fun _ e' => ParkFailed e id e') := by
  unfold park
  refine .get fun e hs => ?_
  subst hs
  cases hfind : e.sessions.find id with
  | none =>
      refine .pure ?_
      rintro _ rfl
      exact .absent (by simp [SessionStore.slotOf, hfind])
  | some s =>
      cases hslot : s.slot with
      | none =>
          simp only [hslot]
          refine .pure ?_
          rintro _ rfl
          exact .absent (by simp [SessionStore.slotOf, hfind, hslot])
      | some slot =>
          simp only [hslot]
          refine .bind ((exportContext_run arch slot s.tokens.length e).weaken (fun _ h => h)
            (fun _ _ h => h) ?_) fun blob => .modify ?_
          · rintro err e' ⟨hsessions, hdec, -⟩
            exact ⟨by simp [SessionStore.slotOf, hfind, hslot], hsessions, hdec⟩
          · rintro e' ⟨hsessions, hdec, rfl⟩
            exact .vacated hfind hslot hdec (by rw [← hsessions])

/-- Write `id` into the owner table. -/
def setOwner (e : Engine Cell Logits) (i : Nat) (id : String) : Engine Cell Logits :=
  { e with sessions := e.sessions.setOwner i id }

/-- A `claim_slot` that ends well, and the slot it gives. -/
inductive ClaimRun (e : Engine Cell Logits) (id : String) : Nat → Engine Cell Logits → Prop
  | free {i : Nat} : e.sessions.freeSlot = some i → ClaimRun e id (i + 1) (e.setOwner i id)
  | parked {v : String} {i : Nat} {e' : Engine Cell Logits} :
      e.sessions.freeSlot = none → e.sessions.victim = some v → ParkRun arch e v e' →
      e'.sessions.freeSlot = some i → ClaimRun e id (i + 1) (e'.setOwner i id)

/-- A `claim_slot` that fails. -/
inductive ClaimFailed (e : Engine Cell Logits) : Engine Cell Logits → Prop
  | empty : e.sessions.freeSlot = none → e.sessions.victim = none → ClaimFailed e e
  | park {v : String} {e' : Engine Cell Logits} :
      e.sessions.freeSlot = none → e.sessions.victim = some v → ParkFailed e v e' →
      ClaimFailed e e'
  | full {v : String} {e' : Engine Cell Logits} :
      e.sessions.freeSlot = none → e.sessions.victim = some v → ParkRun arch e v e' →
      e'.sessions.freeSlot = none → ClaimFailed e e'

theorem claimSlot_run (id : String) (e : Engine Cell Logits) :
    Triple (· = e) (claimSlot arch id) (fun slot e' => ClaimRun arch e id slot e')
      (fun _ e' => ClaimFailed arch e e') := by
  have hgrant : ∀ (e : Engine Cell Logits) i,
      Triple (· = e) (do onSessions fun st => st.setOwner i id; pure (i + 1))
        (fun slot e' => slot = i + 1 ∧ e' = e.setOwner i id)
        (fun (_ : ServeError) _ => False) := by
    intro e i
    refine .bind (Q := fun _ e' => e' = e.setOwner i id) (.modify fun _ hs => hs ▸ rfl) fun _ => ?_
    exact .pure fun _ hs => ⟨rfl, hs⟩
  unfold claimSlot
  refine .get fun e hs => ?_
  subst hs
  cases hfree : e.sessions.freeSlot with
  | some i =>
      simp only [hfree]
      refine (hgrant e i).weaken (fun _ h => h) ?_ fun _ _ h => h.elim
      rintro _ _ ⟨rfl, rfl⟩
      exact .free hfree
  | none =>
      simp only [hfree]
      cases hvictim : e.sessions.victim with
      | none =>
          refine .throw ?_
          rintro _ rfl
          exact .empty hfree hvictim
      | some v =>
          refine .bind ((park_run arch v e).weaken (fun _ h => h) (fun _ _ h => h)
            fun _ _ h => .park hfree hvictim h) fun _ => .get fun e' hparked => ?_
          cases hfree' : e'.sessions.freeSlot with
          | some i =>
              refine (hgrant e' i).weaken (fun _ h => h) ?_ fun _ _ h => h.elim
              rintro _ _ ⟨rfl, rfl⟩
              exact .parked hfree hvictim hparked hfree'
          | none => exact .throw fun _ hs => hs ▸ .full hfree hvictim hparked hfree'

/-- A restore that ends well, and the prefix that is in the slot then. -/
inductive RestoreRun (e : Engine Cell Logits) (slot len reuse : Nat) :
    Option (Blob Cell) → Nat → Engine Cell Logits → Prop
  /-- Nothing to restore, or nothing of it to reuse. -/
  | skipped {parked : Option (Blob Cell)} :
      (parked = none ∨ reuse = 0) → RestoreRun e slot len reuse parked 0 e
  | copied {blob : Blob Cell} {e' : Engine Cell Logits} :
      0 < reuse → e'.sessions = e.sessions → e'.dec.kv = (e.dec.restored slot len blob).kv →
      e'.dec.copies = e.dec.copies ++ [⟨.kvImport, slot, len, true⟩] →
      RestoreRun e slot len reuse (some blob) reuse e'

/-- A restore whose import fails: only the positions it was writing change. -/
structure RestoreFailed (e : Engine Cell Logits) (slot len reuse : Nat)
    (parked : Option (Blob Cell)) (e' : Engine Cell Logits) : Prop where
  parked : parked.isSome
  reuse : 0 < reuse
  sessions : e'.sessions = e.sessions
  kv : ∀ s p, ¬(s = slot ∧ p < len) → e'.dec.kv s p = e.dec.kv s p
  copies : e'.dec.copies = e.dec.copies ++ [⟨.kvImport, slot, len, false⟩]

theorem restore_run (slot len reuse : Nat) (parked : Option (Blob Cell))
    (e : Engine Cell Logits) :
    Triple (· = e) (restore arch slot len reuse parked)
      (fun reuse' e' => RestoreRun e slot len reuse parked reuse' e')
      (fun _ e' => RestoreFailed e slot len reuse parked e') := by
  cases parked with
  | none => exact .pure fun _ hs => hs ▸ .skipped (.inl rfl)
  | some blob =>
      refine .ite (fun hreuse => ?_) fun hreuse => .pure fun _ hs => hs ▸ .skipped (.inr (by omega))
      refine .bind (Q := fun _ e' => RestoreRun e slot len reuse (some blob) reuse e') ?_ fun _ =>
        .pure fun _ h => h
      refine .zoom fun t ht => ?_
      subst ht
      refine (Decoder.kvImport_spec arch slot len blob t.dec).weaken (fun _ h => h) ?_ ?_
      · intro _ d ⟨hkv, hcopies⟩
        exact .copied hreuse rfl hkv hcopies
      · intro err d ⟨hkv, hcopies⟩
        exact ⟨rfl, hreuse, rfl, hkv, hcopies⟩

/-- The prefix of `prompt` that the context of a session covers, one token left to
run. -/
def reusable (session : Session Cell) (prompt : List Nat) : Nat :=
  min (commonPrefix session.tokens prompt) (prompt.length - 1)

/-- The engine in which `acquire` asks for a slot: `id` is stamped, and its parked
blob is out of the map. -/
def claiming (e : Engine Cell Logits) (id : String) : Engine Cell Logits :=
  { e with sessions := (e.sessions.tick.stamp id).update id fun s => { s with parked := none } }

theorem find_claiming (e : Engine Cell Logits) (id x : String) :
    (e.claiming id).sessions.find x =
      if x = id then some { e.sessions.tick.entry id with parked := none }
      else e.sessions.find x := by
  show SessionStore.find (SessionStore.update _ _ _) x = _
  rw [SessionStore.find_update, SessionStore.find_stamp, SessionStore.find_stamp, if_pos rfl]
  by_cases hx : x = id
  · rw [if_pos hx, if_pos hx]
    rfl
  · rw [if_neg hx, if_neg hx, if_neg hx]
    rfl

/-- The last writes of `acquire`. -/
def settle (e : Engine Cell Logits) (id : String) (slot reuse : Nat) : Engine Cell Logits :=
  { e with sessions := e.sessions.settle id slot reuse }

/-- An `acquire` that ends well. -/
inductive AcquireRun (e : Engine Cell Logits) (id : String) (prompt : List Nat) :
    Nat × Nat → Engine Cell Logits → Prop
  | resident {slot : Nat} :
      (e.sessions.tick.entry id).slot = some slot →
      AcquireRun e id prompt (slot, reusable (e.sessions.tick.entry id) prompt)
        ({ e with sessions := e.sessions.tick.stamp id }.settle id slot
          (reusable (e.sessions.tick.entry id) prompt))
  | claimed {slot reuse : Nat} {e₁ e₂ : Engine Cell Logits} :
      (e.sessions.tick.entry id).slot = none → ClaimRun arch (e.claiming id) id slot e₁ →
      RestoreRun e₁ slot (e.sessions.tick.entry id).tokens.length
        (reusable (e.sessions.tick.entry id) prompt) (e.sessions.tick.entry id).parked reuse e₂ →
      AcquireRun e id prompt (slot, reuse) (e₂.settle id slot reuse)

/-- An `acquire` that fails. -/
inductive AcquireFailed (e : Engine Cell Logits) (id : String) (prompt : List Nat) :
    Engine Cell Logits → Prop
  | noSlots : e.sessions.owner = [] → AcquireFailed e id prompt e
  | claim {e' : Engine Cell Logits} :
      e.sessions.owner ≠ [] → (e.sessions.tick.entry id).slot = none →
      ClaimFailed arch (e.claiming id) e' → AcquireFailed e id prompt e'
  | restore {slot : Nat} {e₁ e₂ : Engine Cell Logits} :
      e.sessions.owner ≠ [] → (e.sessions.tick.entry id).slot = none →
      ClaimRun arch (e.claiming id) id slot e₁ →
      RestoreFailed e₁ slot (e.sessions.tick.entry id).tokens.length
        (reusable (e.sessions.tick.entry id) prompt) (e.sessions.tick.entry id).parked e₂ →
      AcquireFailed e id prompt e₂

theorem acquire_run (id : String) (prompt : List Nat) (e : Engine Cell Logits) :
    Triple (· = e) (acquire arch id prompt) (fun res e' => AcquireRun arch e id prompt res e')
      (fun _ e' => AcquireFailed arch e id prompt e') := by
  unfold acquire
  refine .get fun e hs => ?_
  subst hs
  refine .ite (fun hnil => .throw ?_) fun hne => ?_
  · rintro _ rfl
    exact .noSlots hnil
  refine .get fun e hs => ?_
  subst hs
  refine .bind (Q := fun _ e' => e' = { e with sessions := e.sessions.tick.stamp id })
    (.modify fun _ hs => hs ▸ rfl) fun _ => ?_
  cases hslot : (e.sessions.tick.entry id).slot with
  | some slot =>
      simp only
      refine .bind (Q := fun _ e' => e' = { e with sessions := e.sessions.tick.stamp id }.settle id
        slot (reusable (e.sessions.tick.entry id) prompt)) (.modify fun _ hs => hs ▸ rfl) fun _ => ?_
      exact .pure fun _ hs => hs ▸ .resident hslot
  | none =>
      simp only
      refine .bind (Q := fun _ e' => e' = e.claiming id) (.modify fun _ hs => hs ▸ rfl) fun _ => ?_
      refine .bind ((claimSlot_run arch id (e.claiming id)).weaken (fun _ h => h) (fun _ _ h => h)
        fun _ _ h => .claim hne hslot h) fun slot e₁ hclaim => ?_
      refine Triple.bind (P := (· = e₁)) ((restore_run arch slot _ _ _ e₁).weaken (fun _ h => h)
        (fun _ _ h => h) fun _ _ h => .restore hne hslot hclaim h) (fun reuse => ?_) e₁ rfl
      refine .bind (Q := fun _ e' => AcquireRun arch e id prompt (slot, reuse) e') (.modify ?_)
        fun _ => .pure fun _ h => h
      exact fun e₂ hrestore => .claimed hslot hclaim hrestore

end Engine

end LlmPager.Serve
