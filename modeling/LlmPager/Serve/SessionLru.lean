import LlmPager.Serve.SlotTable

/-!
# LlmPager.Serve.SessionLru

The two tiers of the session store share one clock: the owner of a sequence slot
and the parked context that were used least recently are the next to go.

Every operation keeps `LruInv`: stamps are distinct, a parked session has no slot,
and the parked contexts fit the host budget. What an operation does then depends on
the map only through `find` (`Agree`): two stores that differ in the order of their
maps come to the same results, and again differ in that order only.
-/

namespace LlmPager.Serve

open LlmPager.Lib

variable {Cell Logits : Type}

namespace SessionStore

variable {s t : SessionStore Cell} {id x : String} {e : Session Cell}

/-! ### The invariant -/

structure LruInv (s : SessionStore Cell) : Prop where
  stamped : s.Stamped
  apart : ∀ x e, s.find x = some e → e.parked.isSome → e.slot = none
  budget : s.parkedBytes ≤ s.ramBudget

theorem parkedBytes_update_le {f : Session Cell → Session Cell}
    (hf : ∀ e, (f e).parkedBytes ≤ e.parkedBytes) : (s.update id f).parkedBytes ≤ s.parkedBytes := by
  cases h : s.find id with
  | none => simp [update, h]
  | some e =>
      have hbytes := parkedBytes_update f h
      have := hf e
      omega

theorem parkedBytes_stamp : (s.stamp id).parkedBytes = s.parkedBytes := by
  cases h : s.find id with
  | some e =>
      have hsame : s.stamp id = s.update id fun _ => s.entry id := by simp [stamp, update, h]
      have hbytes := parkedBytes_update (fun _ => s.entry id) h
      have hentry : (s.entry id).parkedBytes = e.parkedBytes := by
        simp [entry, h, Session.parkedBytes]
      rw [hsame]
      omega
  | none =>
      have hnotin : id ∉ s.map := AList.lookup_eq_none.mp h
      rw [parkedBytes_eq_sum, parkedBytes_eq_sum, stamp, AList.entries_insert_of_notMem hnotin]
      simp [entry, h, Session.parkedBytes]

theorem parkedBytes_forget_le : (s.forget id).1.parkedBytes ≤ s.parkedBytes := by
  unfold forget
  cases h : s.find id with
  | none => exact Nat.le_refl _
  | some e =>
      have herase : ∀ owner, ({ s with map := s.map.erase id, owner } : SessionStore Cell).parkedBytes
          ≤ s.parkedBytes := by
        intro owner
        rw [parkedBytes_eq_sum, parkedBytes_eq_sum, ((entries_perm h).map _).sum_nat,
          List.map_cons, List.sum_cons]
        exact Nat.le_add_left _ _
      cases hslot : e.slot with
      | none =>
          simp only [hslot]
          exact herase s.owner
      | some slot =>
          simp only [hslot]
          exact herase _

/-- Writes to a session that leave the stamp alone, move nothing to host memory, and
keep a parked session out of the slots. -/
theorem LruInv.update (hs : s.LruInv) {f : Session Cell → Session Cell}
    (hlast : ∀ e, (f e).lastUsed = e.lastUsed) (hbytes : ∀ e, (f e).parkedBytes ≤ e.parkedBytes)
    (hapart : ∀ e, s.find id = some e → (f e).parked.isSome → (f e).slot = none) :
    (s.update id f).LruInv where
  stamped := hs.stamped.update hlast
  apart := by
    intro x e hx hparked
    rw [find_update] at hx
    by_cases hxid : x = id
    · rw [if_pos hxid] at hx
      obtain ⟨e', hfind, rfl⟩ := Option.map_eq_some_iff.mp hx
      exact hapart e' hfind hparked
    · rw [if_neg hxid] at hx
      exact hs.apart x e hx hparked
  budget := by
    have hle : (s.update id f).parkedBytes ≤ s.parkedBytes := parkedBytes_update_le hbytes
    rw [ramBudget_update]
    exact hle.trans hs.budget

theorem LruInv.stamp (hs : s.LruInv) : (s.tick.stamp id).LruInv where
  stamped := by
    refine hs.stamped.touch id rfl (fun e h => ?_) fun x hx => ?_
    · rw [find_stamp, if_pos rfl] at h
      cases h
      rfl
    · rw [find_stamp, if_neg hx, find_tick]
  apart := by
    intro x e hx hparked
    rw [find_stamp] at hx
    by_cases hxid : x = id
    · rw [if_pos hxid] at hx
      cases hx
      unfold entry at hparked ⊢
      rw [find_tick] at hparked ⊢
      cases h : s.find id with
      | none => rfl
      | some e' =>
          rw [h] at hparked
          exact hs.apart id e' h hparked
    · rw [if_neg hxid] at hx
      exact hs.apart x e hx hparked
  budget := by
    rw [parkedBytes_stamp]
    exact hs.budget

theorem find_commit {tokens : List Nat} : (s.commit id tokens).find x =
    if x = id then
      (s.find id).map fun e => { e with tokens, turns := e.turns + 1, lastUsed := s.clock + 1 }
    else s.find x :=
  find_update _

theorem clock_commit {tokens : List Nat} : (s.commit id tokens).clock = s.clock + 1 :=
  clock_update _

theorem LruInv.commit (hs : s.LruInv) {tokens : List Nat} : (s.commit id tokens).LruInv where
  stamped := by
    refine hs.stamped.touch id clock_commit (fun e h => ?_) fun x hx => ?_
    · rw [find_commit, if_pos rfl] at h
      obtain ⟨e', -, rfl⟩ := Option.map_eq_some_iff.mp h
      exact clock_commit.symm
    · rw [find_commit, if_neg hx]
  apart := by
    intro x e hx hparked
    rw [find_commit] at hx
    by_cases hxid : x = id
    · rw [if_pos hxid] at hx
      obtain ⟨e', he', rfl⟩ := Option.map_eq_some_iff.mp hx
      exact hs.apart id e' he' hparked
    · rw [if_neg hxid] at hx
      exact hs.apart x e hx hparked
  budget := by
    have hle : (s.commit id tokens).parkedBytes ≤ s.tick.parkedBytes :=
      parkedBytes_update_le fun _ => Nat.le_refl _
    have hbudget : (s.commit id tokens).ramBudget = s.ramBudget := ramBudget_update _
    rw [hbudget]
    exact hle.trans hs.budget

theorem clock_forget : (s.forget id).1.clock = s.clock := by
  unfold forget
  cases s.find id with
  | none => rfl
  | some e => cases hslot : e.slot <;> simp [hslot]

theorem ramBudget_forget : (s.forget id).1.ramBudget = s.ramBudget := by
  unfold forget
  cases s.find id with
  | none => rfl
  | some e => cases hslot : e.slot <;> simp [hslot]

theorem LruInv.forget (hs : s.LruInv) : (s.forget id).1.LruInv := by
  have hback : ∀ x e, (s.forget id).1.find x = some e → s.find x = some e := by
    intro x e hx
    rw [find_forget] at hx
    by_cases hxid : x = id
    · rw [if_pos hxid] at hx
      cases hx
    · rwa [if_neg hxid] at hx
  constructor
  · exact hs.stamped.mono clock_forget.ge fun x e hx => ⟨e, hback x e hx, rfl⟩
  · exact fun x e hx => hs.apart x e (hback x e hx)
  · rw [ramBudget_forget]
    exact parkedBytes_forget_le.trans hs.budget

theorem Stamped.vacate (hs : s.Stamped) (id : String) (slot : Nat) (blob : Option (Blob Cell)) :
    (s.vacate id slot blob).Stamped := by
  have hupdate : (s.update id fun e => { e with parked := blob, slot := none }).Stamped :=
    hs.update fun _ => rfl
  exact hupdate.mono (Nat.le_refl _) fun x e hx => ⟨e, hx, rfl⟩

/-- Parking may exceed the budget, and enforces it again. -/
theorem LruInv.vacate (hs : s.LruInv) {slot : Nat} {blob : Option (Blob Cell)} :
    (s.vacate id slot blob).enforceBudget.LruInv := by
  have hvacated : (s.vacate id slot blob).Stamped := hs.stamped.vacate id slot blob
  obtain ⟨ids, hdrops⟩ := @drops_enforceBudget Cell (s.vacate id slot blob)
  have henforced := hdrops.enforced hvacated
  refine ⟨hdrops.stamped hvacated, fun x e hx hparked => ?_, henforced.met⟩
  have hfind : (s.vacate id slot blob).find x = some e := by
    by_cases hmem : x ∈ ids
    · obtain ⟨f, -, -, hf⟩ := henforced.parked x hmem
      cases hx.symm.trans hf
      simp [Session.dropped] at hparked
    · rw [← henforced.untouched x hmem, hx]
  rw [find_vacate] at hfind
  by_cases hxid : x = id
  · rw [if_pos hxid] at hfind
    obtain ⟨e', -, rfl⟩ := Option.map_eq_some_iff.mp hfind
    rfl
  · rw [if_neg hxid] at hfind
    exact hs.apart x e hfind hparked

theorem lruInv_new {batchCap ramBudget : Nat} :
    (new batchCap ramBudget : SessionStore Cell).LruInv := by
  have hempty : ∀ x, (new batchCap ramBudget : SessionStore Cell).find x = none := fun _ => rfl
  constructor
  · constructor
    · intro x e hx
      rw [hempty] at hx
      cases hx
    · intro x y e f hx
      rw [hempty] at hx
      cases hx
  · intro x e hx
    rw [hempty] at hx
    cases hx
  · exact Nat.zero_le _

end SessionStore

/-! ### The operations keep it -/

namespace Engine

variable {arch : Arch Cell Logits} {e e' : Engine Cell Logits} {id x : String}

theorem ParkRun.lruInv (h : ParkRun arch e id e') (hs : e.sessions.LruInv) :
    e'.sessions.LruInv := by
  cases h with
  | absent => exact hs
  | vacated _ _ _ hsessions =>
      rw [hsessions]
      exact hs.vacate

/-- A session without slot and blob is not what `park` and its drops are about. -/
theorem ParkRun.find_idle {session : Session Cell} (h : ParkRun arch e id e')
    (hs : e.sessions.LruInv) (hx : e.sessions.find x = some session) (hslot : session.slot = none)
    (hparked : session.parked = none) : e'.sessions.find x = some session := by
  cases h with
  | absent => exact hx
  | @vacated s slot _ hfind hresident _ hsessions =>
      have hxid : x ≠ id := by
        rintro rfl
        rw [hx] at hfind
        cases hfind
        rw [hslot] at hresident
        cases hresident
      have hvacated : (e.sessions.vacate id slot
          (e.dec.context arch slot s.tokens.length)).find x = some session := by
        rw [SessionStore.find_vacate, if_neg hxid, hx]
      obtain ⟨ids, henforced⟩ := SessionStore.enforceBudget_enforced
        (hs.stamped.vacate id slot (e.dec.context arch slot s.tokens.length))
      rw [hsessions, henforced.untouched x, hvacated]
      intro hmem
      obtain ⟨f, hf, hsome, -⟩ := henforced.parked x hmem
      cases hvacated.symm.trans hf
      simp [hparked] at hsome

theorem lruInv_setOwner {i : Nat} (hs : e.sessions.LruInv) : (e.setOwner i id).sessions.LruInv :=
  ⟨hs.stamped.mono (Nat.le_refl _) fun _ f hx => ⟨f, hx, rfl⟩, hs.apart, hs.budget⟩

theorem ClaimRun.lruInv {slot : Nat} (h : ClaimRun arch e id slot e')
    (hs : e.sessions.LruInv) : e'.sessions.LruInv := by
  cases h with
  | free => exact lruInv_setOwner hs
  | parked _ _ hpark _ => exact lruInv_setOwner (hpark.lruInv hs)

theorem ClaimRun.find_idle {slot : Nat} {session : Session Cell} (h : ClaimRun arch e id slot e')
    (hs : e.sessions.LruInv) (hx : e.sessions.find x = some session) (hslot : session.slot = none)
    (hparked : session.parked = none) : e'.sessions.find x = some session := by
  cases h with
  | free => exact hx
  | parked _ _ hpark _ => exact hpark.find_idle hs hx hslot hparked

theorem ClaimFailed.lruInv (h : ClaimFailed arch e e') (hs : e.sessions.LruInv) :
    e'.sessions.LruInv := by
  cases h with
  | empty => exact hs
  | park _ _ hpark => rw [hpark.sessions]; exact hs
  | full _ _ hpark _ => exact hpark.lruInv hs

theorem RestoreRun.sessions {slot len reuse reuse' : Nat} {parked : Option (Blob Cell)}
    (h : RestoreRun e slot len reuse parked reuse' e') : e'.sessions = e.sessions := by
  cases h with
  | skipped => rfl
  | copied _ hsessions _ _ => exact hsessions

theorem lruInv_claiming (hs : e.sessions.LruInv) : (e.claiming id).sessions.LruInv := by
  have hstamp : (e.sessions.tick.stamp id).LruInv := hs.stamp
  refine hstamp.update (fun _ => rfl) (fun _ => Nat.zero_le _) ?_
  intro s _ h
  cases h

theorem AcquireRun.lruInv {prompt : List Nat} {res : Nat × Nat}
    (h : AcquireRun arch e id prompt res e') (hs : e.sessions.LruInv) : e'.sessions.LruInv := by
  -- the session that gets a slot has no blob
  have hsettle : ∀ {s : SessionStore Cell} {slot reuse : Nat}, s.LruInv →
      (∀ session, s.find id = some session → session.parked = none) →
      (s.settle id slot reuse).LruInv := by
    intro s slot reuse hs hparked
    refine hs.update (fun _ => rfl) (fun _ => Nat.le_refl _) fun session hfind hsome => ?_
    rw [hparked session hfind] at hsome
    cases hsome
  cases h with
  | resident hslot =>
      have hstamp : (e.sessions.tick.stamp id).LruInv := hs.stamp
      refine hsettle hstamp fun session hfind => ?_
      by_contra hsome
      have hnone := hstamp.apart id session hfind (Option.isSome_iff_ne_none.mpr hsome)
      rw [SessionStore.find_stamp, if_pos rfl] at hfind
      cases hfind
      rw [hnone] at hslot
      cases hslot
  | @claimed slot reuse e₁ e₂ hslot hclaim hrestore =>
      have hclaiming : (e.claiming id).sessions.LruInv := lruInv_claiming hs
      have hfind : (e.claiming id).sessions.find id =
          some { e.sessions.tick.entry id with parked := none } := by
        rw [find_claiming, if_pos rfl]
      have hidle := hclaim.find_idle hclaiming hfind hslot rfl
      show (e₂.sessions.settle id slot reuse).LruInv
      rw [hrestore.sessions]
      refine hsettle (hclaim.lruInv hclaiming) fun session hsession => ?_
      cases hidle.symm.trans hsession
      rfl

theorem AcquireFailed.lruInv {prompt : List Nat} (h : AcquireFailed arch e id prompt e')
    (hs : e.sessions.LruInv) : e'.sessions.LruInv := by
  cases h with
  | noSlots => exact hs
  | claim _ _ hclaim => exact hclaim.lruInv (lruInv_claiming hs)
  | restore _ _ hclaim hrestore =>
      rw [hrestore.sessions]
      exact hclaim.lruInv (lruInv_claiming hs)

end Engine

theorem StoreOp.lruInv {arch : Arch Cell Logits} {e : Engine Cell Logits} (op : StoreOp)
    (hs : e.sessions.LruInv) : (op.run arch e).sessions.LruInv := by
  cases op with
  | acquire id prompt =>
      refine Engine.of_after (P := fun e' => e'.sessions.LruInv)
        ((Engine.acquire_run arch id prompt e).weaken (fun _ h => h) ?_ ?_)
      · exact fun _ _ h => h.lruInv hs
      · exact fun _ _ h => h.lruInv hs
  | park id =>
      refine Engine.of_after (P := fun e' => e'.sessions.LruInv)
        ((Engine.park_run arch id e).weaken (fun _ h => h) ?_ ?_)
      · exact fun _ _ h => h.lruInv hs
      · intro _ e' h
        rw [h.sessions]
        exact hs
  | commit id tokens => exact hs.commit
  | forget id => exact hs.forget

theorem reachable_lruInv {arch : Arch Cell Logits} {e : Engine Cell Logits}
    (h : (storeSystem arch).Reachable System.anyStep e) : e.sessions.LruInv := by
  refine @System.Reachable.invariant _ _ _ _ (fun e => e.sessions.LruInv) ?_ ?_ e h
  · rintro e ⟨⟨ramBudget, hsessions⟩, -⟩
    rw [hsessions]
    exact SessionStore.lruInv_new
  · intro e op e' hinv _ hstep
    cases op with
    | some op =>
        obtain rfl : e' = op.run arch e := hstep
        exact op.lruInv hinv
    | none =>
        obtain ⟨hsessions, -⟩ := hstep
        rw [hsessions]
        exact hinv

/-! ### Who is parked -/

namespace SessionStore

/-- `x` has a slot, and was used before every other session with a slot. -/
def LeastRecent (s : SessionStore Cell) (x : String) : Prop :=
  ∃ e, s.find x = some e ∧ e.slot.isSome ∧
    ∀ y f, s.find y = some f → f.slot.isSome → e.lastUsed ≤ f.lastUsed

/-- `x` had a slot and has none any more. -/
def LosesSlot (s t : SessionStore Cell) (x : String) : Prop :=
  (s.slotOf x).isSome ∧ t.slotOf x = none

/-- When every session's slot is in the owner table, the victim is the least recent of
them, if it has a slot. -/
theorem leastRecent_victim {s : SessionStore Cell} {v : String} (ht : s.table.Tidy)
    (h : s.victim = some v) (hv : (s.slotOf v).isSome) : s.LeastRecent v := by
  obtain ⟨k, hk⟩ := Option.isSome_iff_exists.mp hv
  obtain ⟨e, hfind, hslot⟩ := Option.bind_eq_some_iff.mp hk
  refine ⟨e, hfind, by simp [hslot], fun y f hy hf => ?_⟩
  obtain ⟨k', hk'⟩ := Option.isSome_iff_exists.mp hf
  have hat : s.table.slot y = some k' := by
    show (s.find y).bind Session.slot = some k'
    rw [hy, Option.bind_some, hk']
  obtain ⟨i, -, howner⟩ := ht y k' hat
  have hmem : y ∈ s.owner.reduceOption :=
    List.reduceOption_mem_iff.mpr (List.mem_of_getElem? howner)
  have hle := List.le_of_mem_argmin hmem (Option.mem_def.mpr h)
  simpa [hfind, hy] using hle

end SessionStore

namespace Engine

variable {arch : Arch Cell Logits} {e e' : Engine Cell Logits} {id x : String}

/-- Who loses a slot when a session is parked: that session, if it has one. -/
theorem ParkRun.losesSlot_iff (h : ParkRun arch e id e') (ht : e.table.Tidy) :
    e.sessions.LosesSlot e'.sessions x ↔ x = id ∧ (e.sessions.slotOf x).isSome := by
  have hslot : ∀ (t : SlotTable) x, e'.table = t → e'.sessions.slotOf x = t.slot x :=
    fun t x ht => by rw [← ht]; rfl
  obtain ⟨hnone, hsame⟩ | ⟨i, hat, hreleased⟩ := h.parked ht
  · rw [SessionStore.LosesSlot, hslot _ x hsame]
    show (e.table.slot x).isSome ∧ e.table.slot x = none ↔ x = id ∧ (e.table.slot x).isSome
    constructor
    · intro ⟨hsome, hx⟩
      rw [hx] at hsome
      cases hsome
    · rintro ⟨rfl, hsome⟩
      rw [hnone] at hsome
      cases hsome
  · rw [SessionStore.LosesSlot, hslot _ x hreleased]
    show (e.table.slot x).isSome ∧ (if x = id then none else e.table.slot x) = none ↔
      x = id ∧ (e.table.slot x).isSome
    by_cases hx : x = id
    · simp [hx]
    · simp only [hx, if_false, false_and, iff_false]
      intro ⟨hsome, hnone⟩
      rw [hnone] at hsome
      cases hsome

/-- A `claim_slot` takes a slot from a session only when none is free, and from the
least recent one. -/
theorem claimSlot_losesSlot (ht : e.table.Tidy)
    (h : e.sessions.LosesSlot (after (claimSlot arch id) e).sessions x) :
    e.sessions.freeSlot = none ∧ e.sessions.LeastRecent x := by
  have hself : ¬e.sessions.LosesSlot e.sessions x := by
    intro ⟨hsome, hnone⟩
    rw [hnone] at hsome
    cases hsome
  have hpark : ∀ {v : String} {e' : Engine Cell Logits} {s : SessionStore Cell},
      e.sessions.freeSlot = none → e.sessions.victim = some v → ParkRun arch e v e' →
      s.slotOf x = e'.sessions.slotOf x → e.sessions.LosesSlot s x →
      e.sessions.freeSlot = none ∧ e.sessions.LeastRecent x := by
    intro v e' s hfull hvictim hpark hsame hloses
    rw [SessionStore.LosesSlot, hsame] at hloses
    obtain ⟨rfl, hsome⟩ := (hpark.losesSlot_iff ht).mp hloses
    exact ⟨hfull, SessionStore.leastRecent_victim ht hvictim hsome⟩
  refine Engine.of_after (P := fun e' => e.sessions.LosesSlot e'.sessions x →
    e.sessions.freeSlot = none ∧ e.sessions.LeastRecent x)
    ((claimSlot_run arch id e).weaken (fun _ h => h) (fun slot e' hclaim => ?_)
      fun _ e' hclaim => ?_) h
  · cases hclaim with
    | free => exact fun h => absurd h hself
    | parked hfull hvictim hrun _ => exact hpark hfull hvictim hrun rfl
  · cases hclaim with
    | empty => exact fun h => absurd h hself
    | park _ _ hfailed =>
        rw [hfailed.sessions]
        exact fun h => absurd h hself
    | full hfull hvictim hrun _ => exact hpark hfull hvictim hrun rfl

/-- With every slot taken by a session that lives there, `claim_slot` makes one of them
leave. -/
theorem ClaimRun.exists_losesSlot {slot : Nat} (h : ClaimRun arch e id slot e')
    (ht : e.table.Tidy) (hok : ¬e.table.Orphaned) (hfull : e.sessions.freeSlot = none) :
    ∃ x, e.sessions.LosesSlot e'.sessions x := by
  cases h with
  | free hfree =>
      rw [hfull] at hfree
      cases hfree
  | @parked v i u _ hvictim hrun _ =>
      have hmem : v ∈ e.sessions.owner.reduceOption := List.argmin_mem hvictim
      obtain ⟨j, hj⟩ := List.getElem?_of_mem (List.reduceOption_mem_iff.mp hmem)
      have hat : e.table.slot v = some (j + 1) := by
        by_contra hne
        exact hok ⟨j, v, hj, hne⟩
      refine ⟨v, (hrun.losesSlot_iff ht).mpr ⟨rfl, ?_⟩⟩
      show (e.table.slot v).isSome
      rw [hat]
      rfl

end Engine

/-! ### The order of the map -/

/-- The same store, its map in any order. -/
structure SessionStore.Agree (s t : SessionStore Cell) : Prop where
  entries : s.map.entries.Perm t.map.entries
  owner : s.owner = t.owner
  ramBudget : s.ramBudget = t.ramBudget
  clock : s.clock = t.clock

namespace SessionStore.Agree

variable {s t : SessionStore Cell} {id : String}

theorem find (h : s.Agree t) (x : String) : s.find x = t.find x :=
  AList.perm_lookup h.entries

theorem insert (h : s.Agree t) (e : Session Cell) :
    SessionStore.Agree { s with map := s.map.insert id e } { t with map := t.map.insert id e } :=
  ⟨AList.perm_insert h.entries, h.owner, h.ramBudget, h.clock⟩

theorem update (h : s.Agree t) (f : Session Cell → Session Cell) :
    (s.update id f).Agree (t.update id f) := by
  unfold SessionStore.update
  rw [h.find id]
  cases t.find id with
  | none => exact h
  | some e => exact h.insert (f e)

theorem tick (h : s.Agree t) : s.tick.Agree t.tick :=
  ⟨h.entries, h.owner, h.ramBudget, by rw [SessionStore.tick, SessionStore.tick, h.clock]⟩

theorem entry (h : s.Agree t) : s.entry id = t.entry id := by
  unfold SessionStore.entry
  rw [h.find id, h.clock]

theorem stamp (h : s.Agree t) : (s.stamp id).Agree (t.stamp id) := by
  unfold SessionStore.stamp
  rw [h.entry]
  exact h.insert _

theorem setOwner (h : s.Agree t) (i : Nat) : (s.setOwner i id).Agree (t.setOwner i id) :=
  ⟨h.entries, by rw [SessionStore.setOwner, SessionStore.setOwner, h.owner], h.ramBudget, h.clock⟩

theorem parkedBytes (h : s.Agree t) : s.parkedBytes = t.parkedBytes := by
  rw [parkedBytes_eq_sum, parkedBytes_eq_sum]
  exact (h.entries.map _).sum_nat

theorem oldestParked (h : s.Agree t) (hs : s.Stamped) : s.oldestParked = t.oldestParked := by
  have hiff : ∀ x, s.OldestParked x ↔ t.OldestParked x := by
    intro x
    unfold OldestParked
    simp only [h.find]
  cases hold : s.oldestParked with
  | none =>
      cases hold' : t.oldestParked with
      | none => rfl
      | some y =>
          have hsome := isSome_oldestParked.mpr ⟨y, (hiff y).mpr (oldestParked_some hold')⟩
          rw [hold] at hsome
          cases hsome
  | some x =>
      have hx := oldestParked_some hold
      obtain ⟨y, hy⟩ := Option.isSome_iff_exists.mp
        (isSome_oldestParked.mpr ⟨x, (hiff x).mp hx⟩)
      rw [hy, hx.unique hs ((hiff y).mpr (oldestParked_some hy))]

theorem enforceBudget (h : s.Agree t) (hs : s.Stamped) : s.enforceBudget.Agree t.enforceBudget := by
  unfold SessionStore.enforceBudget
  rw [h.entries.length_eq]
  generalize t.map.entries.length = fuel
  induction fuel generalizing s t with
  | zero => exact h
  | succ fuel ih =>
      unfold enforceBudgetAux
      rw [h.parkedBytes, h.ramBudget, h.oldestParked hs]
      by_cases hover : t.ramBudget < t.parkedBytes
      · rw [if_pos hover, if_pos hover]
        cases t.oldestParked with
        | none => exact h
        | some id => exact ih (h.update _) hs.dropParked
      · rw [if_neg hover, if_neg hover]
        exact h

theorem vacate (h : s.Agree t) {slot : Nat} {blob : Option (Blob Cell)} :
    (s.vacate id slot blob).Agree (t.vacate id slot blob) := by
  have hupdate : (s.update id fun e => { e with parked := blob, slot := none }).Agree
    (t.update id fun e => { e with parked := blob, slot := none }) := h.update _
  exact ⟨hupdate.entries, congrArg (List.set · (slot - 1) none) hupdate.owner, hupdate.ramBudget,
    hupdate.clock⟩

theorem commit (h : s.Agree t) {tokens : List Nat} :
    (s.commit id tokens).Agree (t.commit id tokens) := by
  have hcommit : t.commit id tokens = t.tick.update id fun e : Session Cell =>
      { e with tokens, turns := e.turns + 1, lastUsed := s.tick.clock } := by
    rw [h.tick.clock]
    rfl
  rw [hcommit]
  exact h.tick.update _

theorem forget (h : s.Agree t) : (s.forget id).1.Agree (t.forget id).1 := by
  unfold SessionStore.forget
  rw [h.find id]
  have herase : (s.map.erase id).entries.Perm (t.map.erase id).entries := AList.perm_erase h.entries
  cases t.find id with
  | none => exact h
  | some e =>
      cases hslot : e.slot with
      | none =>
          simp only [hslot]
          exact ⟨herase, h.owner, h.ramBudget, h.clock⟩
      | some slot =>
          simp only [hslot]
          exact ⟨herase, by rw [h.owner], h.ramBudget, h.clock⟩

end SessionStore.Agree

namespace Engine

/-- The same engine, the map of its sessions in any order. -/
structure Agree (e e' : Engine Cell Logits) : Prop where
  dec : e.dec = e'.dec
  sent : e.sent = e'.sent
  sessions : e.sessions.Agree e'.sessions

/-- What two runs keep: they differ in the order of the map, and the stamps tell the
sessions apart. -/
structure Twin (e e' : Engine Cell Logits) : Prop where
  agree : e.Agree e'
  stamped : e.sessions.Stamped

variable (arch : Arch Cell Logits)

theorem twin_onDecoder {α : Type} (m : EStateM ServeError (Decoder Cell Logits) α) :
    Related Twin (onDecoder m) (onDecoder m) :=
  .zoom (fun _ _ h => h.agree.dec) fun _ _ _ h =>
    ⟨⟨rfl, h.agree.sent, h.agree.sessions⟩, h.stamped⟩

theorem twin_onSessions {f f' : SessionStore Cell → SessionStore Cell}
    (h : ∀ s t : SessionStore Cell, s.Agree t → s.Stamped → (f s).Agree (f' t) ∧ (f s).Stamped) :
    Related Twin (onSessions f : EStateM ServeError (Engine Cell Logits) Unit) (onSessions f') := by
  refine .modify fun e e' htwin => ?_
  obtain ⟨hagree, hstamped⟩ := h _ _ htwin.agree.sessions htwin.stamped
  exact ⟨⟨htwin.agree.dec, htwin.agree.sent, hagree⟩, hstamped⟩

theorem twin_exportContext (slot len : Nat) :
    Related Twin (exportContext arch slot len) (exportContext arch slot len) :=
  .ite (.bind (twin_onDecoder _) fun _ => .pure _) (.pure _)

theorem twin_park (id : String) : Related Twin (park arch id) (park arch id) := by
  unfold park
  refine .get fun e e' htwin => ?_
  rw [htwin.agree.sessions.find id]
  cases e'.sessions.find id with
  | none => exact .pure _
  | some s =>
      cases hslot : s.slot with
      | none =>
          simp only [hslot]
          exact .pure _
      | some slot =>
          simp only [hslot]
          refine .bind (twin_exportContext arch slot _) fun blob => twin_onSessions ?_
          intro s t hagree hstamped
          have hvacated := hstamped.vacate id slot blob
          obtain ⟨ids, hdrops⟩ := @SessionStore.drops_enforceBudget Cell (s.vacate id slot blob)
          exact ⟨hagree.vacate.enforceBudget hvacated, hdrops.stamped hvacated⟩

theorem twin_setOwner (i : Nat) (id : String) :
    Related Twin (onSessions fun st => st.setOwner i id :
      EStateM ServeError (Engine Cell Logits) Unit) (onSessions fun st => st.setOwner i id) :=
  twin_onSessions fun _ _ hagree hstamped =>
    ⟨hagree.setOwner i, hstamped.mono (Nat.le_refl _) fun _ e h => ⟨e, h, rfl⟩⟩

theorem twin_claimSlot (id : String) : Related Twin (claimSlot arch id) (claimSlot arch id) := by
  unfold claimSlot
  refine .get fun e e' htwin => ?_
  have hagree := htwin.agree.sessions
  have hfree : e.sessions.freeSlot = e'.sessions.freeSlot := by
    rw [SessionStore.freeSlot, SessionStore.freeSlot, hagree.owner]
  have hvictim : e.sessions.victim = e'.sessions.victim := by
    unfold SessionStore.victim
    simp only [hagree.find, hagree.owner]
  simp only [hfree, hvictim]
  cases e'.sessions.freeSlot with
  | some i => exact .bind (twin_setOwner i id) fun _ => .pure _
  | none =>
      cases e'.sessions.victim with
      | none => exact .throw _
      | some v =>
          refine .bind (twin_park arch v) fun _ => .get fun u u' htwin' => ?_
          have hfree' : u.sessions.freeSlot = u'.sessions.freeSlot := by
            rw [SessionStore.freeSlot, SessionStore.freeSlot, htwin'.agree.sessions.owner]
          rw [hfree']
          cases u'.sessions.freeSlot with
          | some i => exact .bind (twin_setOwner i id) fun _ => .pure _
          | none => exact .throw _

theorem twin_restore (slot len reuse : Nat) (parked : Option (Blob Cell)) :
    Related Twin (restore arch slot len reuse parked) (restore arch slot len reuse parked) := by
  cases parked with
  | none => exact .pure _
  | some blob => exact .ite (.bind (twin_onDecoder _) fun _ => .pure _) (.pure _)

theorem twin_acquire (id : String) (prompt : List Nat) :
    Related Twin (acquire arch id prompt) (acquire arch id prompt) := by
  have hsettle : ∀ slot reuse : Nat, Related Twin
      (onSessions fun st => st.settle id slot reuse : EStateM ServeError (Engine Cell Logits) Unit)
      (onSessions fun st => st.settle id slot reuse) := fun slot reuse =>
    twin_onSessions fun _ _ hagree hstamped => ⟨hagree.update _, hstamped.update fun _ => rfl⟩
  unfold acquire
  refine .get fun e e' htwin => ?_
  rw [htwin.agree.sessions.owner]
  refine .ite (.throw _) (.get fun e e' htwin => ?_)
  rw [htwin.agree.sessions.tick.entry]
  refine .bind (twin_onSessions fun s t hagree hstamped => ?_) fun _ => ?_
  · refine ⟨hagree.tick.stamp, hstamped.touch id rfl (fun e h => ?_) fun x hx => ?_⟩
    · rw [SessionStore.find_stamp, if_pos rfl] at h
      cases h
      rfl
    · rw [SessionStore.find_stamp, if_neg hx, SessionStore.find_tick]
  generalize e'.sessions.tick.entry id = session
  cases hslot : session.slot with
  | some slot => exact .bind (hsettle _ _) fun _ => .pure _
  | none =>
      refine .bind (twin_onSessions fun s t hagree hstamped => ?_) fun _ => ?_
      · exact ⟨hagree.update _, hstamped.update fun _ => rfl⟩
      refine .bind (twin_claimSlot arch id) fun slot => ?_
      refine .bind (twin_restore arch _ _ _ _) fun reuse => ?_
      exact .bind (hsettle _ _) fun _ => .pure _

end Engine

theorem Engine.agree_after {α : Type} {m : EStateM ServeError (Engine Cell Logits) α}
    {e e' : Engine Cell Logits} (h : SameResult Engine.Agree (m e) (m e')) :
    (Engine.after m e).Agree (Engine.after m e') := by
  unfold Engine.after
  generalize m e = x at h
  generalize m e' = y at h
  cases h with
  | ok h => exact h
  | error h => exact h

theorem StoreOp.agree {arch : Arch Cell Logits} {e e' : Engine Cell Logits} (op : StoreOp)
    (h : e.Twin e') : (op.run arch e).Agree (op.run arch e') := by
  cases op with
  | acquire id prompt =>
      exact Engine.agree_after ((Engine.twin_acquire arch id prompt e e' h).mono
        fun _ _ h => h.agree)
  | park id =>
      exact Engine.agree_after ((Engine.twin_park arch id e e' h).mono fun _ _ h => h.agree)
  | commit id tokens => exact ⟨h.agree.dec, h.agree.sent, h.agree.sessions.commit⟩
  | forget id => exact ⟨h.agree.dec, h.agree.sent, h.agree.sessions.forget⟩

/-! ### The claim over runs -/

/-- **Session LRU.** In every reachable state, whichever copies fail:
stamps tell the sessions apart and are at most the clock; a parked session has no
slot; and the parked contexts fit the budget. The order of the map is of no
consequence. `claim_slot` takes a slot from a session only when none is free, and then
from the least recent one (which does leave, unless a slot was lost before to a failed
import). And wherever `enforce_budget` is called, it drops parked contexts oldest first,
as long as the budget is exceeded and no longer, and then stops by itself. -/
theorem reachable_sessionLru {arch : Arch Cell Logits} {e : Engine Cell Logits}
    (h : (storeSystem arch).Reachable System.anyStep e) :
    e.sessions.Stamped ∧
    (∀ x s, e.sessions.find x = some s → s.parked.isSome → s.slot = none) ∧
    e.sessions.parkedBytes ≤ e.sessions.ramBudget ∧
    (∀ e', e.Agree e' →
      (∀ id prompt, SameResult Engine.Agree (Engine.acquire arch id prompt e)
        (Engine.acquire arch id prompt e')) ∧
      ∀ op : StoreOp, (op.run arch e).Agree (op.run arch e')) ∧
    (∀ id, e.sessions.slotOf id = none →
      (∀ x, (e.claiming id).sessions.LosesSlot
          (Engine.after (Engine.claimSlot arch id) (e.claiming id)).sessions x →
        (e.claiming id).sessions.freeSlot = none ∧ (e.claiming id).sessions.LeastRecent x) ∧
      (¬ImportFailed e.dec.copies → (e.claiming id).sessions.freeSlot = none →
        ∀ slot e', Engine.claimSlot arch id (e.claiming id) = .ok slot e' →
          ∃ x, (e.claiming id).sessions.LosesSlot e'.sessions x)) ∧
    ∀ s : SessionStore Cell, (s = e.sessions ∨ ∃ id, s = (e.claiming id).sessions) →
      ∀ x slot blob,
        (∃ ids, SessionStore.Enforced (s.vacate x slot blob) ids
          (s.vacate x slot blob).enforceBudget) ∧
        ∀ fuel, (s.vacate x slot blob).parkedCount ≤ fuel →
          SessionStore.enforceBudgetAux fuel (s.vacate x slot blob) =
            (s.vacate x slot blob).enforceBudget := by
  have hinv := reachable_lruInv h
  have hslots := reachable_slotInv h
  refine ⟨hinv.stamped, hinv.apart, hinv.budget, fun e' hagree => ⟨fun id prompt => ?_, fun op => ?_⟩,
    fun id hnone => ⟨fun x hloses => ?_, fun hok hfull slot e' hrun => ?_⟩, fun s hs x slot blob => ?_⟩
  · have hsame := Engine.twin_acquire arch id prompt e e' ⟨hagree, hinv.stamped⟩
    exact hsame.mono fun _ _ h => h.agree
  · exact op.agree ⟨hagree, hinv.stamped⟩
  · refine Engine.claimSlot_losesSlot ?_ hloses
    rw [Engine.table_claiming]
    exact hslots.1
  · have htable := Engine.table_claiming e id
    refine ((Engine.claimSlot_run arch id _).ok rfl hrun).exists_losesSlot ?_ ?_ hfull
    · rw [htable]
      exact hslots.1
    · rw [htable]
      exact fun horphaned => hok (hslots.2.mp horphaned)
  · have hstamped : s.Stamped := by
      rcases hs with rfl | ⟨id, rfl⟩
      · exact hinv.stamped
      · exact (Engine.lruInv_claiming hinv).stamped
    have hvacated := hstamped.vacate x slot blob
    exact ⟨SessionStore.enforceBudget_enforced hvacated,
      fun fuel hfuel => SessionStore.enforceBudgetAux_eq hvacated hfuel⟩

/-- Every session takes the one slot from the session before it. -/
def evictOps : List StoreOp :=
  [.acquire "a" [1, 2, 3], .commit "a" [1, 2, 3], .acquire "b" [4, 5, 6], .commit "b" [4, 5, 6],
    .acquire "c" [7, 8, 9], .commit "c" [7, 8, 9], .acquire "d" [1]]

/-- Three contexts of 3 bytes have been parked under a budget of 8: the oldest is
gone, the other two fit. -/
theorem reachable_sessionLru_evicted :
    ∃ e, (storeSystem steadyDevice).Reachable System.anyStep e ∧
      (e.sessions.find "a").map (fun s => (s.tokens, s.parked.isSome)) = some ([], false) ∧
      (e.sessions.find "b").map (fun s => (s.tokens, s.parked.isSome)) = some ([4, 5, 6], true) ∧
      (e.sessions.find "c").map (fun s => (s.tokens, s.parked.isSome)) = some ([7, 8, 9], true) ∧
      e.sessions.parkedBytes = 6 ∧ e.sessions.parkedBytes ≤ e.sessions.ramBudget := by
  have hfresh := @reachable_freshStore steadyDevice rfl
  have hreach := reachable_runOps hfresh evictOps
  exact ⟨_, hreach, rfl, rfl, rfl, rfl, (reachable_sessionLru hreach).2.2.1⟩

end LlmPager.Serve
