import LlmPager.Serve.SlotTable

/-!
# LlmPager.Serve.FailedAcquire

What is left of the store when `acquire` returns an error.

`acquire` takes the parked blob out of the map before it makes the copies that can
fail, and nothing puts it back. So a failed call keeps every context exactly when
there was no blob to take. When the import is what failed, the slot it had claimed
stays taken as well.
-/

namespace LlmPager.Serve

open LlmPager.Lib

variable {Cell Logits : Type}

namespace SessionStore

/-- The parked blob of a session, if there is such a session and it has one. -/
def blobOf (s : SessionStore Cell) (id : String) : Option (Blob Cell) :=
  (s.find id).bind Session.parked

/-- The slots of sessions are indices of the owner table. (`park` and `forget` index the
table by them.) -/
def SlotsInTable (s : SessionStore Cell) : Prop :=
  ∀ x k, s.slotOf x = some k → 0 < k ∧ k ≤ s.owner.length

/-- The context of a session: all but its stamp. -/
structure SameContext (e e' : Session Cell) : Prop where
  tokens : e'.tokens = e.tokens
  slot : e'.slot = e.slot
  parked : e'.parked = e.parked
  turns : e'.turns = e.turns

/-- What `or_insert_with` inserts. -/
structure EmptySession (e : Session Cell) : Prop where
  tokens : e.tokens = []
  slot : e.slot = none
  parked : e.parked = none
  turns : e.turns = 0

/-- `t` is `s` but for the clock, the stamp of `id`, and an empty session for `id` where
there was none. -/
structure Kept (s : SessionStore Cell) (id : String) (t : SessionStore Cell) : Prop where
  owner : t.owner = s.owner
  ramBudget : t.ramBudget = s.ramBudget
  others : ∀ x ≠ id, t.find x = s.find x
  stays : ∀ e, s.find id = some e → ∃ e', t.find id = some e' ∧ SameContext e e'
  fresh : s.find id = none → ∀ e', t.find id = some e' → EmptySession e'

theorem Kept.refl (s : SessionStore Cell) (id : String) : s.Kept id s where
  owner := rfl
  ramBudget := rfl
  others _ _ := rfl
  stays e h := ⟨e, h, rfl, rfl, rfl, rfl⟩
  fresh h e' h' := by
    rw [h] at h'
    cases h'

/-- A blob that is kept is still there. -/
theorem Kept.blobOf {s t : SessionStore Cell} {id : String} (h : s.Kept id t) :
    t.blobOf id = none → s.blobOf id = none := by
  intro hnone
  cases hfind : s.find id with
  | none => simp [SessionStore.blobOf, hfind]
  | some e =>
      obtain ⟨e', hfind', hsame⟩ := h.stays e hfind
      rw [SessionStore.blobOf, hfind', Option.bind_some, hsame.parked] at hnone
      rw [SessionStore.blobOf, hfind, Option.bind_some, hnone]

theorem Drops.blobOf {s t : SessionStore Cell} {ids : List String} {x : String}
    (h : Drops s ids t) (hs : s.blobOf x = none) : t.blobOf x = none := by
  induction h with
  | met => exact hs
  | @drop s t id ids _ _ _ ih =>
      refine ih ?_
      rw [SessionStore.blobOf, find_dropParked]
      by_cases hx : x = id
      · rw [if_pos hx]
        cases s.find id <;> rfl
      · rw [if_neg hx]
        exact hs

end SessionStore

namespace Engine

variable {arch : Arch Cell Logits} {e e' : Engine Cell Logits} {id : String}

theorem blobOf_claiming : (e.claiming id).sessions.blobOf id = none := by
  have hfind : (e.claiming id).sessions.find id =
      some { e.sessions.tick.entry id with parked := none } := by
    rw [find_claiming, if_pos rfl]
  rw [SessionStore.blobOf, hfind]
  rfl

/-- Taking the blob of a session that has none changes nothing but its stamp. -/
theorem kept_claiming (h : e.sessions.blobOf id = none) :
    e.sessions.Kept id (e.claiming id).sessions where
  owner := by
    show (SessionStore.update _ _ _).owner = _
    rw [SessionStore.owner_update]
    rfl
  ramBudget := by
    show (SessionStore.update _ _ _).ramBudget = _
    rw [SessionStore.ramBudget_update]
    rfl
  others x hx := by rw [find_claiming, if_neg hx]
  stays s hfind := by
    refine ⟨_, by rw [find_claiming, if_pos rfl], ?_⟩
    have hparked : s.parked = none := by
      rwa [SessionStore.blobOf, hfind, Option.bind_some] at h
    simp only [SessionStore.entry, SessionStore.find_tick, hfind, Option.getD_some]
    exact ⟨rfl, rfl, hparked.symm, rfl⟩
  fresh hfind s hs := by
    rw [find_claiming, if_pos rfl] at hs
    cases hs
    simp only [SessionStore.entry, SessionStore.find_tick, hfind, Option.getD_none]
    exact ⟨rfl, rfl, rfl, rfl⟩

theorem slotOf_claiming (x : String) :
    (e.claiming id).sessions.slotOf x = e.sessions.slotOf x :=
  congrFun (congrArg SlotTable.slot (table_claiming e id)) x

theorem owner_claiming : (e.claiming id).sessions.owner = e.sessions.owner :=
  congrArg SlotTable.owner (table_claiming e id)

/-- A `claim_slot` that fails, with slots that are in the table, leaves the store as it
found it. -/
theorem ClaimFailed.sessions (h : ClaimFailed arch e e') (hslots : e.sessions.SlotsInTable) :
    e'.sessions = e.sessions := by
  cases h with
  | empty => rfl
  | park _ _ hpark => exact hpark.sessions
  | @full v _ hfull hvictim hpark hfull' =>
      cases hpark with
      | absent => rfl
      | @vacated s slot _ hfind hslot _ hsessions =>
          -- the slot the victim gave back is free
          have hat : e.sessions.slotOf v = some slot := by
            rw [SessionStore.slotOf, hfind, Option.bind_some, hslot]
          obtain ⟨hpos, hle⟩ := hslots v slot hat
          obtain ⟨i, rfl⟩ : ∃ i, slot = i + 1 := ⟨slot - 1, by omega⟩
          refine absurd ?_ (freeSlot_eq_none hfull' i)
          have htable := congrArg SessionStore.table hsessions
          rw [SessionStore.table_enforceBudget, SessionStore.table_vacate] at htable
          have howner : e'.sessions.owner = e.sessions.owner.set i none :=
            congrArg SlotTable.owner htable
          rw [howner, List.getElem?_set_self (by omega)]

/-- No session gets a parked blob by losing none. -/
theorem ClaimRun.blobOf {slot : Nat} (h : ClaimRun arch e id slot e')
    (hnone : e.sessions.slotOf id = none) (hblob : e.sessions.blobOf id = none) :
    e'.sessions.blobOf id = none := by
  cases h with
  | free => exact hblob
  | @parked v i u _ _ hpark _ =>
      show u.sessions.blobOf id = none
      cases hpark with
      | absent => exact hblob
      | @vacated s slot _ hfind hslot _ hsessions =>
          have hid : id ≠ v := by
            rintro rfl
            rw [SessionStore.slotOf, hfind, Option.bind_some, hslot] at hnone
            cases hnone
          have hvacated : (e.sessions.vacate v slot
              (e.dec.context arch slot s.tokens.length)).blobOf id = none := by
            rw [SessionStore.blobOf, SessionStore.find_vacate, if_neg hid]
            exact hblob
          obtain ⟨ids, hdrops⟩ := @SessionStore.drops_enforceBudget Cell (e.sessions.vacate v slot
            (e.dec.context arch slot s.tokens.length))
          rw [hsessions]
          exact hdrops.blobOf hvacated

end Engine

/-- **Failed acquire.** A failed `acquire` leaves the store as it was, but for the clock
and the stamp of its session, exactly when the model has no session slots at all or the
session had no parked blob. -/
theorem failed_acquire_iff {arch : Arch Cell Logits} {e e' : Engine Cell Logits} {id : String}
    {prompt : List Nat} {err : ServeError} (hslots : e.sessions.SlotsInTable)
    (h : Engine.acquire arch id prompt e = .error err e') :
    e.sessions.Kept id e'.sessions ↔ e.sessions.owner = [] ∨ e.sessions.blobOf id = none := by
  have hclaiming : (e.claiming id).sessions.SlotsInTable := by
    intro x k hx
    rw [Engine.slotOf_claiming] at hx
    rw [Engine.owner_claiming]
    exact hslots x k hx
  cases (Engine.acquire_run arch id prompt e).error rfl h with
  | noSlots hnil =>
      constructor
      · exact fun _ => .inl hnil
      · exact fun _ => .refl _ _
  | claim hne _ hclaim =>
      rw [hclaim.sessions hclaiming]
      constructor
      · exact fun hkept => .inr (hkept.blobOf Engine.blobOf_claiming)
      · rintro (hnil | hblob)
        · exact absurd hnil hne
        · exact Engine.kept_claiming hblob
  | restore hne hslot hclaim hrestore =>
      have hblob : e.sessions.blobOf id ≠ none := by
        intro hnone
        have hparked := hrestore.parked
        simp only [SessionStore.entry, SessionStore.find_tick] at hparked
        cases hfind : e.sessions.find id with
        | none => simp [hfind] at hparked
        | some s =>
            rw [SessionStore.blobOf, hfind, Option.bind_some] at hnone
            simp [hfind, hnone] at hparked
      have hnone : (e.claiming id).sessions.slotOf id = none := by
        rw [SessionStore.slotOf, Engine.find_claiming, if_pos rfl]
        exact hslot
      constructor
      · intro hkept
        rw [hrestore.sessions] at hkept
        exact absurd (hkept.blobOf (hclaim.blobOf hnone Engine.blobOf_claiming)) hblob
      · rintro (hnil | hnone)
        · exact absurd hnil hne
        · exact absurd hnone hblob

/-- The slots of sessions are in the table in every reachable state. -/
theorem reachable_slotsInTable {arch : Arch Cell Logits} {e : Engine Cell Logits}
    (h : (storeSystem arch).Reachable System.anyStep e) : e.sessions.SlotsInTable := by
  intro x k hx
  obtain ⟨i, rfl, howner⟩ := (reachable_slotInv h).1 x k hx
  have hlt := (List.getElem?_eq_some_iff.mp howner).1
  exact ⟨Nat.succ_pos i, hlt⟩

/-- After the one slot has leaked, `c` cannot have it, and loses nothing. -/
theorem failed_acquire_leaked :
    ∃ e e' : Engine Unit Unit,
      Engine.acquire secondCallFails "c" [4] e = .error .parkFreedNoSlot e' ∧
        e.sessions.Kept "c" e'.sessions :=
  ⟨@runOps _ _ secondCallFails freshStore leakOps, _, rfl,
    (@failed_acquire_iff _ _ secondCallFails _ _ "c" [4] _
      (reachable_slotsInTable (reachable_runOps (reachable_freshStore rfl) leakOps)) rfl).mpr (.inr rfl)⟩

/-- `a` is parked for `b`, which stays. -/
def parkedOps : List StoreOp := [.acquire "a" [1, 2], .commit "a" [1, 2], .acquire "b" [3],
  .commit "b" [3]]

/-- The export of `b` fails, and the context of `a` is gone from host memory. -/
theorem parked_context_lost :
    ∃ e, (storeSystem secondCallFails).Reachable System.anyStep e ∧
      ∃ e', Engine.acquire secondCallFails "a" [1, 2] e = .error (.device "out of memory") e' ∧
        ¬e.sessions.Kept "a" e'.sessions := by
  refine ⟨@runOps _ _ secondCallFails freshStore parkedOps,
    reachable_runOps (reachable_freshStore rfl) parkedOps, _, rfl, fun hkept => ?_⟩
  cases hkept.blobOf rfl

end LlmPager.Serve
