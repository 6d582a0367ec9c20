import LlmPager.Lib.Transition
import LlmPager.Serve.Acquire
import LlmPager.Serve.Budget

/-!
# LlmPager.Serve.SlotTable

The two views of who lives in which sequence slot: `owner`, by slot, and the
`slot` of each session, by name. Every operation of the session store moves them
by three elementary steps: a session gives its slot back, a session gets a free
slot, or a free slot gets an owner that never learns of it. The last one happens
exactly when a `kv_import` fails, between `claim_slot` and the last writes of
`acquire`; nothing undoes it.
-/

namespace LlmPager.Serve

open LlmPager.Lib

variable {Cell Logits : Type}

/-! ### Tables and their steps -/

/-- Owners by slot index, and slots (index plus one) by session. -/
structure SlotTable where
  owner : List (Option String)
  slot : String → Option Nat

namespace SlotTable

/-- Every session's slot has that session as its owner. -/
def Tidy (t : SlotTable) : Prop :=
  ∀ id k, t.slot id = some k → ∃ i, k = i + 1 ∧ t.owner[i]? = some (some id)

/-- Some slot's owner does not live there. -/
def Orphaned (t : SlotTable) : Prop :=
  ∃ (i : Nat) (id : String), t.owner[i]? = some (some id) ∧ t.slot id ≠ some (i + 1)

/-- Both views say the same. -/
def Consistent (t : SlotTable) : Prop :=
  ∀ (i : Nat) (id : String), t.owner[i]? = some (some id) ↔ t.slot id = some (i + 1)

def release (t : SlotTable) (id : String) (i : Nat) : SlotTable where
  owner := t.owner.set i none
  slot x := if x = id then none else t.slot x

def grant (t : SlotTable) (id : String) (i : Nat) : SlotTable where
  owner := t.owner.set i (some id)
  slot x := if x = id then some (i + 1) else t.slot x

def leak (t : SlotTable) (id : String) (i : Nat) : SlotTable :=
  { t with owner := t.owner.set i (some id) }

/-- The elementary steps, and whether a slot is leaked. -/
inductive Step (t : SlotTable) : SlotTable → Bool → Prop
  | release {id i} : t.slot id = some (i + 1) → Step t (t.release id i) false
  | grant {id i} : t.owner[i]? = some none → t.slot id = none → Step t (t.grant id i) false
  | leak {id i} : t.owner[i]? = some none → t.slot id = none → Step t (t.leak id i) true

inductive Steps (t : SlotTable) : SlotTable → Bool → Prop
  | refl : Steps t t false
  | snoc {u v b c} : Steps t u b → Step u v c → Steps t v (b || c)

theorem Steps.trans {t u v : SlotTable} {b c : Bool} (h : Steps t u b) (h' : Steps u v c) :
    Steps t v (b || c) := by
  induction h' with
  | refl => simpa using h
  | snoc _ hstep ih =>
      rw [← Bool.or_assoc]
      exact ih.snoc hstep

theorem consistent_iff {t : SlotTable} (h : t.Tidy) : t.Consistent ↔ ¬t.Orphaned := by
  constructor
  · intro hc ⟨i, id, howner, hslot⟩
    exact hslot ((hc i id).mp howner)
  · intro ho i id
    constructor
    · intro howner
      by_contra hslot
      exact ho ⟨i, id, howner, hslot⟩
    · intro hslot
      obtain ⟨j, hj, howner⟩ := h id (i + 1) hslot
      cases hj
      exact howner

theorem getElem?_set_owner {t : SlotTable} {i j : Nat} {o o' : Option String}
    (h : t.owner[i]? = some o') :
    (t.owner.set i o)[j]? = if j = i then some o else t.owner[j]? := by
  have hi := (List.getElem?_eq_some_iff.mp h).1
  rw [List.getElem?_set]
  by_cases hj : j = i
  · subst hj
    simp [hi]
  · simp [hj, Ne.symm hj]

theorem Step.tidy {t u : SlotTable} {b : Bool} (h : Step t u b) (ht : t.Tidy) : u.Tidy := by
  cases h with
  | @release id i hslot =>
      obtain ⟨_, ⟨⟩, howner⟩ := ht id (i + 1) hslot
      intro x k hx
      by_cases hxid : x = id
      · simp [SlotTable.release, hxid] at hx
      · simp only [SlotTable.release, hxid, if_false] at hx
        obtain ⟨j, rfl, hj⟩ := ht x k hx
        refine ⟨j, rfl, ?_⟩
        rw [SlotTable.release, getElem?_set_owner howner, if_neg]
        · exact hj
        · rintro rfl
          rw [howner, Option.some.injEq, Option.some.injEq] at hj
          exact hxid hj.symm
  | @grant id i hfree hnone =>
      intro x k hx
      by_cases hxid : x = id
      · subst hxid
        simp only [SlotTable.grant, if_true, Option.some.injEq] at hx
        refine ⟨i, hx.symm, ?_⟩
        rw [SlotTable.grant, getElem?_set_owner hfree, if_pos rfl]
      · simp only [SlotTable.grant, hxid, if_false] at hx
        obtain ⟨j, rfl, hj⟩ := ht x k hx
        refine ⟨j, rfl, ?_⟩
        rw [SlotTable.grant, getElem?_set_owner hfree, if_neg]
        · exact hj
        · rintro rfl
          rw [hfree] at hj
          cases hj
  | @leak id i hfree hnone =>
      intro x k hx
      obtain ⟨j, rfl, hj⟩ := ht x k hx
      refine ⟨j, rfl, ?_⟩
      rw [SlotTable.leak, getElem?_set_owner hfree, if_neg]
      · exact hj
      · rintro rfl
        rw [hfree] at hj
        cases hj

/-- Slot `i` belongs to `id`, who does not live there. -/
def OrphanAt (t : SlotTable) (i : Nat) (id : String) : Prop :=
  t.owner[i]? = some (some id) ∧ t.slot id ≠ some (i + 1)

theorem orphanAt_release {t : SlotTable} {id x : String} {i j : Nat} (ht : t.Tidy)
    (hslot : t.slot id = some (i + 1)) : (t.release id i).OrphanAt j x ↔ t.OrphanAt j x := by
  obtain ⟨_, ⟨⟩, howner⟩ := ht id (i + 1) hslot
  have hset := getElem?_set_owner (j := j) (o := none) howner
  unfold OrphanAt SlotTable.release
  rw [hset]
  by_cases hj : j = i
  · subst hj
    simp only [if_true, howner, Option.some.injEq]
    constructor
    · rintro ⟨⟨⟩, _⟩
    · rintro ⟨rfl, h⟩
      exact absurd hslot h
  · by_cases hx : x = id
    · subst hx
      simp [hj, hslot, Ne.symm hj]
    · simp [hj, hx]

theorem orphanAt_grant {t : SlotTable} {id x : String} {i j : Nat}
    (hfree : t.owner[i]? = some none) (hnone : t.slot id = none) :
    (t.grant id i).OrphanAt j x ↔ t.OrphanAt j x := by
  have hset := getElem?_set_owner (j := j) (o := some id) hfree
  unfold OrphanAt SlotTable.grant
  rw [hset]
  by_cases hj : j = i
  · subst hj
    simp only [if_true, hfree, Option.some.injEq]
    constructor
    · rintro ⟨rfl, h⟩
      simp at h
    · rintro ⟨⟨⟩, _⟩
  · by_cases hx : x = id
    · subst hx
      simp [hj, hnone, Ne.symm hj]
    · simp [hj, hx]

theorem orphanAt_leak {t : SlotTable} {id x : String} {i j : Nat}
    (hfree : t.owner[i]? = some none) (hnone : t.slot id = none) :
    (t.leak id i).OrphanAt j x ↔ t.OrphanAt j x ∨ (j = i ∧ x = id) := by
  have hset := getElem?_set_owner (j := j) (o := some id) hfree
  unfold OrphanAt SlotTable.leak
  rw [hset]
  by_cases hj : j = i
  · subst hj
    simp only [if_true, hfree, Option.some.injEq, true_and]
    constructor
    · rintro ⟨rfl, _⟩
      exact .inr rfl
    · rintro (⟨⟨⟩, _⟩ | rfl)
      exact ⟨rfl, by simp [hnone]⟩
  · simp [hj]

/-- Slots are orphaned by leaks only, and stay so. -/
theorem Step.orphaned {t u : SlotTable} {b : Bool} (h : Step t u b) (ht : t.Tidy) :
    u.Orphaned ↔ t.Orphaned ∨ b = true := by
  have hunfold : ∀ t : SlotTable, t.Orphaned ↔ ∃ i id, t.OrphanAt i id := fun _ => Iff.rfl
  rw [hunfold, hunfold]
  cases h with
  | release hslot => simp [orphanAt_release ht hslot]
  | grant hfree hnone => simp [orphanAt_grant hfree hnone]
  | leak hfree hnone => simp [orphanAt_leak hfree hnone, exists_or]

theorem Steps.tidy {t u : SlotTable} {b : Bool} (h : Steps t u b) (ht : t.Tidy) : u.Tidy := by
  induction h with
  | refl => exact ht
  | snoc _ hstep ih => exact hstep.tidy ih

theorem Steps.orphaned {t u : SlotTable} {b : Bool} (h : Steps t u b) (ht : t.Tidy) :
    u.Orphaned ↔ t.Orphaned ∨ b = true := by
  induction h with
  | refl => simp
  | snoc hsteps hstep ih =>
      rw [hstep.orphaned (hsteps.tidy ht), ih, Bool.or_eq_true, or_assoc]

end SlotTable

/-! ### The store's table -/

def SessionStore.table (s : SessionStore Cell) : SlotTable := ⟨s.owner, s.slotOf⟩

namespace SessionStore

variable {s : SessionStore Cell} {id x : String}

/-- Writes that leave the slot of a session alone. -/
theorem table_update {f : Session Cell → Session Cell} (hf : ∀ e, (f e).slot = e.slot) :
    (s.update id f).table = s.table := by
  have hslot : (s.update id f).slotOf = s.slotOf := by
    funext x
    rw [slotOf, slotOf, find_update]
    by_cases hx : x = id
    · subst hx
      cases s.find x <;> simp [hf]
    · rw [if_neg hx]
  rw [table, table, hslot, owner_update]

@[simp] theorem table_tick : s.tick.table = s.table := rfl

theorem table_stamp : (s.stamp id).table = s.table := by
  have hslot : (s.stamp id).slotOf = s.slotOf := by
    funext x
    rw [slotOf, slotOf, find_stamp]
    by_cases hx : x = id
    · subst hx
      cases h : s.find x <;> simp [h, entry]
    · rw [if_neg hx]
  rw [table, table, hslot]
  rfl

theorem Drops.table {t : SessionStore Cell} {ids : List String} (h : Drops s ids t) :
    t.table = s.table := by
  induction h with
  | met => rfl
  | drop _ _ _ ih => exact ih.trans (table_update fun _ => rfl)

theorem table_enforceBudget : s.enforceBudget.table = s.table := by
  obtain ⟨ids, hdrops⟩ := @drops_enforceBudget Cell s
  exact hdrops.table

theorem table_commit {tokens : List Nat} : (s.commit id tokens).table = s.table := by
  show (s.tick.update id fun e =>
    { e with tokens, turns := e.turns + 1, lastUsed := s.tick.clock }).table = s.table
  refine (table_update ?_).trans table_tick
  exact fun _ => rfl

/-- Writes to sessions forget none of them. -/
theorem isSome_find_update {f : Session Cell → Session Cell} :
    ((s.update id f).find x).isSome = (s.find x).isSome := by
  rw [find_update]
  by_cases hx : x = id
  · subst hx
    simp
  · rw [if_neg hx]

theorem isSome_find_enforceBudget : (s.enforceBudget.find x).isSome = (s.find x).isSome := by
  obtain ⟨ids, hdrops⟩ := @drops_enforceBudget Cell s
  generalize s.enforceBudget = t at hdrops
  induction hdrops with
  | met => rfl
  | drop _ _ _ ih => exact ih.trans isSome_find_update

/-- Parking a resident session releases its slot. -/
theorem table_vacate {i : Nat} {blob : Option (Blob Cell)} :
    (s.vacate id (i + 1) blob).table = s.table.release id i := by
  have hslot : (s.vacate id (i + 1) blob).slotOf = (s.table.release id i).slot := by
    funext x
    show ((s.vacate id (i + 1) blob).find x).bind _ = if x = id then none else s.slotOf x
    rw [find_vacate]
    by_cases hx : x = id
    · cases h : s.find id <;> simp [hx]
    · simp [hx, slotOf]
  rw [table, hslot]
  simp [vacate, SlotTable.release, table]

theorem table_settle {slot reuse : Nat} (h : (s.find id).isSome) :
    (s.settle id slot reuse).table =
      { s.table with slot := fun x => if x = id then some slot else s.table.slot x } := by
  obtain ⟨e, he⟩ := Option.isSome_iff_exists.mp h
  have hslot : (s.settle id slot reuse).slotOf =
      fun x => if x = id then some slot else s.slotOf x := by
    funext x
    rw [slotOf, settle, find_update]
    by_cases hx : x = id
    · simp [hx, he]
    · simp [hx, slotOf]
  rw [table, hslot, settle, owner_update]
  rfl

/-- A session that gets the slot it is the owner of. -/
theorem table_settle_grant {t : SlotTable} {i reuse : Nat} (h : (s.find id).isSome)
    (hs : s.table = t.leak id i) : (s.settle id (i + 1) reuse).table = t.grant id i := by
  rw [table_settle h, hs]
  rfl

/-- A session that keeps its slot. -/
theorem table_settle_resident {slot reuse : Nat} (h : s.slotOf id = some slot) :
    (s.settle id slot reuse).table = s.table := by
  have hfind : (s.find id).isSome := by
    unfold slotOf at h
    cases hf : s.find id with
    | none => simp [hf] at h
    | some e => rfl
  rw [table_settle hfind]
  have hslot : (fun x => if x = id then some slot else s.table.slot x) = s.table.slot := by
    funext x
    by_cases hx : x = id
    · subst hx
      rw [if_pos rfl]
      exact h.symm
    · simp [hx]
  rw [hslot]

/-- Forgetting a session releases its slot. -/
theorem table_forget : (s.forget id).1.table =
    match s.slotOf id with
    | some k => s.table.release id (k - 1)
    | none => s.table := by
  have hslot : (s.forget id).1.slotOf = fun x => if x = id then none else s.slotOf x := by
    funext x
    rw [slotOf, find_forget]
    by_cases hx : x = id <;> simp [hx, slotOf]
  rw [table, hslot, owner_forget, show (s.find id).bind Session.slot = s.slotOf id from rfl]
  cases h : s.slotOf id with
  | some k => rfl
  | none =>
      have hsame : (fun x => if x = id then none else s.slotOf x) = s.slotOf := by
        funext x
        by_cases hx : x = id
        · subst hx
          simp [h]
        · simp [hx]
      rw [hsame]
      rfl

end SessionStore

/-! ### What the operations do to the table -/

namespace Engine

def table (e : Engine Cell Logits) : SlotTable := e.sessions.table

/-- The table moves by elementary steps, which leak a slot exactly when one of the
copies made on the way is an import that failed. -/
def Evolves (e : Engine Cell Logits) (copies : List KvCopy) (e' : Engine Cell Logits) : Prop :=
  e'.dec.copies = e.dec.copies ++ copies ∧
    ∃ leaked, SlotTable.Steps e.table e'.table leaked ∧ (leaked = true ↔ ImportFailed copies)

theorem Evolves.refl (e : Engine Cell Logits) : Evolves e [] e :=
  ⟨by simp, false, .refl, by simp [ImportFailed]⟩

theorem Evolves.trans {e e' e'' : Engine Cell Logits} {copies copies' : List KvCopy}
    (h : Evolves e copies e') (h' : Evolves e' copies' e'') :
    Evolves e (copies ++ copies') e'' := by
  obtain ⟨hcopies, b, hsteps, hleak⟩ := h
  obtain ⟨hcopies', c, hsteps', hleak'⟩ := h'
  refine ⟨by rw [hcopies', hcopies, List.append_assoc], b || c, hsteps.trans hsteps', ?_⟩
  rw [Bool.or_eq_true, hleak, hleak']
  simp only [ImportFailed, List.mem_append, or_and_right, exists_or]

/-- A step of the table on which no import failed. -/
theorem Evolves.of_step {e e' : Engine Cell Logits} {copies : List KvCopy}
    (hcopies : e'.dec.copies = e.dec.copies ++ copies) (hok : ¬ImportFailed copies)
    (h : SlotTable.Step e.table e'.table false) : Evolves e copies e' :=
  ⟨hcopies, false, .snoc .refl h, by simp [hok]⟩

theorem Evolves.of_table {e e' : Engine Cell Logits} {copies : List KvCopy}
    (hcopies : e'.dec.copies = e.dec.copies ++ copies) (hok : ¬ImportFailed copies)
    (h : e'.table = e.table) : Evolves e copies e' :=
  ⟨hcopies, false, h ▸ .refl, by simp [hok]⟩

/-- The table after a session was parked. -/
def Parked (t : SlotTable) (id : String) (t' : SlotTable) : Prop :=
  (t.slot id = none ∧ t' = t) ∨ ∃ i, t.slot id = some (i + 1) ∧ t' = t.release id i

theorem Parked.steps {t t' : SlotTable} {id : String} (h : Parked t id t') :
    SlotTable.Steps t t' false := by
  obtain ⟨-, rfl⟩ | ⟨i, hslot, rfl⟩ := h
  · exact .refl
  · exact .snoc .refl (.release hslot)

theorem Parked.slot_none {t t' : SlotTable} {id x : String} (h : Parked t id t')
    (hx : t.slot x = none) : t'.slot x = none := by
  obtain ⟨-, rfl⟩ | ⟨i, -, rfl⟩ := h
  · exact hx
  · simp [SlotTable.release, hx]

/-- Copies made on the way from `e` to `e'`, none of them an import that failed. -/
def Copied (e : Engine Cell Logits) (copies : List KvCopy) (e' : Engine Cell Logits) : Prop :=
  e'.dec.copies = e.dec.copies ++ copies ∧ ¬ImportFailed copies

theorem Copied.refl (e : Engine Cell Logits) : Copied e [] e := by simp [Copied, ImportFailed]

variable {arch : Arch Cell Logits} {e e' : Engine Cell Logits} {id : String}

theorem ParkRun.copied (h : ParkRun arch e id e') : ∃ copies, Copied e copies e' := by
  cases h with
  | absent => exact ⟨[], .refl e⟩
  | vacated _ _ hdec _ =>
      obtain ⟨copies, hcopies, hok, -⟩ := hdec.copies
      exact ⟨copies, hcopies, hok⟩

/-- Parking releases the slot of a resident session. -/
theorem ParkRun.parked (h : ParkRun arch e id e') (ht : e.table.Tidy) :
    Parked e.table id e'.table := by
  cases h with
  | absent hnone => exact .inl ⟨hnone, rfl⟩
  | @vacated s slot _ hfind hslot _ hsessions =>
      have hat : e.table.slot id = some slot := by
        show (e.sessions.find id).bind Session.slot = some slot
        rw [hfind, Option.bind_some, hslot]
      obtain ⟨i, rfl, -⟩ := ht id slot hat
      refine .inr ⟨i, hat, ?_⟩
      show e'.sessions.table = e.sessions.table.release id i
      rw [hsessions, SessionStore.table_enforceBudget, SessionStore.table_vacate]

theorem ParkRun.isSome_find {x : String} (h : ParkRun arch e id e') :
    (e'.sessions.find x).isSome = (e.sessions.find x).isSome := by
  cases h with
  | absent => rfl
  | vacated _ _ _ hsessions =>
      rw [hsessions, SessionStore.isSome_find_enforceBudget]
      exact SessionStore.isSome_find_update

theorem ParkFailed.copied (h : ParkFailed e id e') :
    e'.table = e.table ∧ ∃ copies, Copied e copies e' ∧ CopyFailed copies := by
  obtain ⟨copies, hcopies, hok, hfailed⟩ := h.dec.copies
  exact ⟨by rw [table, h.sessions]; rfl, copies, ⟨hcopies, hok⟩, hfailed rfl⟩

theorem freeSlot_eq_some {s : SessionStore Cell} {i : Nat} (h : s.freeSlot = some i) :
    s.owner[i]? = some none := by
  obtain ⟨hi, hfree, -⟩ := List.findIdx?_eq_some_iff_getElem.mp h
  rw [List.getElem?_eq_getElem hi, Option.isNone_iff_eq_none.mp hfree]

theorem freeSlot_eq_none {s : SessionStore Cell} (h : s.freeSlot = none) (i : Nat) :
    s.owner[i]? ≠ some none := by
  intro hget
  have := List.findIdx?_eq_none_iff.mp h none (List.mem_of_getElem? hget)
  simp at this

/-- A full table has a session to park. -/
theorem victim_of_full {s : SessionStore Cell} (hne : s.owner ≠ []) (hfull : s.freeSlot = none) :
    ∃ v, s.victim = some v ∧ ∃ j : Nat, s.owner[j]? = some (some v) := by
  cases hvictim : s.victim with
  | none =>
      have hnil : s.owner.reduceOption = [] := List.argmin_eq_none.mp hvictim
      obtain ⟨o, rest, howner⟩ := List.exists_cons_of_ne_nil hne
      cases o with
      | none => exact absurd (by rw [howner]; rfl) (freeSlot_eq_none hfull 0)
      | some v =>
          have hmem : v ∈ s.owner.reduceOption := List.reduceOption_mem_iff.mpr (by simp [howner])
          rw [hnil] at hmem
          cases hmem
  | some v =>
      have hmem : v ∈ s.owner.reduceOption := List.argmin_mem hvictim
      exact ⟨v, rfl, List.getElem?_of_mem (List.reduceOption_mem_iff.mp hmem)⟩

/-- What `claim_slot` leaves: `id` owns slot `slot`, free before, and does not live
there yet. -/
def Claimed (e : Engine Cell Logits) (id : String) (slot : Nat) (e' : Engine Cell Logits) : Prop :=
  ∃ i t, slot = i + 1 ∧ SlotTable.Steps e.table t false ∧ t.owner[i]? = some none ∧
    t.slot id = none ∧ e'.table = t.leak id i

theorem ClaimRun.claimed {slot : Nat} (h : ClaimRun arch e id slot e') (ht : e.table.Tidy)
    (hnone : e.table.slot id = none) :
    Claimed e id slot e' ∧ (∃ copies, Copied e copies e') ∧
      ∀ x, (e'.sessions.find x).isSome = (e.sessions.find x).isSome := by
  cases h with
  | @free i hfree =>
      exact ⟨⟨i, e.table, rfl, .refl, freeSlot_eq_some hfree, hnone, rfl⟩, ⟨[], .refl e⟩,
        fun _ => rfl⟩
  | @parked v i u _ _ hpark hfree =>
      have hparked := hpark.parked ht
      exact ⟨⟨i, u.table, rfl, hparked.steps, freeSlot_eq_some hfree, hparked.slot_none hnone, rfl⟩,
        hpark.copied, fun _ => hpark.isSome_find⟩

/-- A `claim_slot` that fails leaks nothing: a copy failed, or a slot was leaked
before. -/
theorem ClaimFailed.steps (h : ClaimFailed arch e e') (ht : e.table.Tidy)
    (hne : e.sessions.owner ≠ []) :
    SlotTable.Steps e.table e'.table false ∧
      ∃ copies, Copied e copies e' ∧ (CopyFailed copies ∨ e.table.Orphaned) := by
  cases h with
  | empty hfull hvictim =>
      obtain ⟨v, hv, -⟩ := victim_of_full hne hfull
      rw [hvictim] at hv
      cases hv
  | park _ _ hpark =>
      obtain ⟨htable, copies, hcopied, hfailed⟩ := hpark.copied
      exact ⟨htable ▸ .refl, copies, hcopied, .inl hfailed⟩
  | @full v _ hfull hvictim hpark hfull' =>
      obtain ⟨w, hw, j, hj⟩ := victim_of_full hne hfull
      obtain rfl : w = v := Option.some.inj (hw.symm.trans hvictim)
      obtain ⟨copies, hcopied⟩ := hpark.copied
      have hparked := hpark.parked ht
      refine ⟨hparked.steps, copies, hcopied, .inr ⟨j, w, hj, fun hat => ?_⟩⟩
      -- a victim that lives in its slot gives it back
      obtain ⟨hv, -⟩ | ⟨k, hv, hreleased⟩ := hparked
      · rw [hv] at hat
        cases hat
      · rw [hv, Option.some.injEq, Nat.add_right_cancel_iff] at hat
        subst hat
        refine freeSlot_eq_none hfull' k ?_
        have howner : e'.sessions.owner = e.table.owner.set k none :=
          congrArg SlotTable.owner hreleased
        rw [howner, SlotTable.getElem?_set_owner hj, if_pos rfl]

theorem RestoreRun.harmless {slot len reuse reuse' : Nat} {parked : Option (Blob Cell)}
    (h : RestoreRun e slot len reuse parked reuse' e') :
    e'.sessions = e.sessions ∧ ∃ copies, Copied e copies e' := by
  cases h with
  | skipped => exact ⟨rfl, [], .refl e⟩
  | copied _ hsessions _ hcopies => exact ⟨hsessions, _, hcopies, by simp [ImportFailed]⟩

theorem entry_slot {s : SessionStore Cell} {id : String} : (s.tick.entry id).slot = s.slotOf id := by
  unfold SessionStore.entry SessionStore.slotOf
  rw [SessionStore.find_tick]
  cases s.find id <;> rfl

theorem table_claiming (e : Engine Cell Logits) (id : String) : (e.claiming id).table = e.table :=
  (SessionStore.table_update (f := fun s : Session Cell => { s with parked := none })
    fun _ => rfl).trans (SessionStore.table_stamp.trans SessionStore.table_tick)

theorem isSome_find_claiming (e : Engine Cell Logits) (id : String) :
    ((e.claiming id).sessions.find id).isSome := by
  refine SessionStore.isSome_find_update.trans ?_
  rw [SessionStore.find_stamp, if_pos rfl]
  rfl

theorem AcquireRun.evolves {prompt : List Nat} {res : Nat × Nat}
    (h : AcquireRun arch e id prompt res e') (ht : e.table.Tidy) :
    (∃ copies, Evolves e copies e') ∧ e'.table.slot id = some res.1 := by
  cases h with
  | @resident slot hslot =>
      have hat : (e.sessions.tick.stamp id).slotOf id = some slot := by
        unfold SessionStore.slotOf
        rw [SessionStore.find_stamp, if_pos rfl]
        exact hslot
      have htable : ((e.sessions.tick.stamp id).settle id slot
          (reusable (e.sessions.tick.entry id) prompt)).table = e.sessions.table :=
        (SessionStore.table_settle_resident hat).trans
          (SessionStore.table_stamp.trans SessionStore.table_tick)
      refine ⟨⟨[], .of_table (by simp [settle]) (by simp [ImportFailed]) htable⟩, ?_⟩
      exact (congrFun (congrArg SlotTable.slot htable) id).trans (entry_slot.symm.trans hslot)
  | @claimed slot reuse e₁ e₂ hslot hclaim hrestore =>
      have htable := table_claiming e id
      have hnone : (e.claiming id).table.slot id = none := by
        rw [htable]
        exact entry_slot.symm.trans hslot
      obtain ⟨⟨i, t, rfl, hsteps, hfree, hnone', htable₁⟩, ⟨copies, hcopies, hok⟩, hfind⟩ :=
        hclaim.claimed (htable ▸ ht) hnone
      obtain ⟨hsessions, copies', hcopies', hok'⟩ := hrestore.harmless
      have htable₂ : (e₂.settle id (i + 1) reuse).table = t.grant id i := by
        refine SessionStore.table_settle_grant ?_ ?_
        · rw [hsessions, hfind]
          exact isSome_find_claiming e id
        · rw [hsessions]
          exact htable₁
      refine ⟨⟨copies ++ copies', ?_, false, ?_, ?_⟩, ?_⟩
      · show e₂.dec.copies = _
        rw [hcopies', hcopies, List.append_assoc]
        rfl
      · rw [htable₂, ← htable]
        exact .snoc hsteps (.grant hfree hnone')
      · have hall : ¬ImportFailed (copies ++ copies') := by
          intro hfailed
          obtain ⟨c, hc, h⟩ := hfailed
          rcases List.mem_append.mp hc with hc | hc
          · exact hok ⟨c, hc, h⟩
          · exact hok' ⟨c, hc, h⟩
        simp [hall]
      · simp [htable₂, SlotTable.grant]

/-- An `acquire` that fails with a session slot there makes a copy that fails, or
finds a slot leaked before. -/
theorem AcquireFailed.evolves {prompt : List Nat} (h : AcquireFailed arch e id prompt e')
    (ht : e.table.Tidy) :
    ∃ copies, Evolves e copies e' ∧
      (e.sessions.owner = [] ∨ CopyFailed copies ∨ e.table.Orphaned) := by
  have htable := table_claiming e id
  have howner : (e.claiming id).sessions.owner = e.sessions.owner := congrArg SlotTable.owner htable
  cases h with
  | noSlots hnil => exact ⟨[], .refl _, .inl hnil⟩
  | claim hne hslot hclaim =>
      obtain ⟨hsteps, copies, hcopied, hwhy⟩ := hclaim.steps (htable ▸ ht) (howner ▸ hne)
      rw [htable] at hsteps hwhy
      exact ⟨copies, ⟨hcopied.1, false, hsteps, by simp [hcopied.2]⟩, .inr hwhy⟩
  | @restore slot e₁ _ hne hslot hclaim hrestore =>
      have hnone : (e.claiming id).table.slot id = none := by
        rw [htable]
        exact entry_slot.symm.trans hslot
      obtain ⟨⟨i, t, rfl, hsteps, hfree, hnone', htable₁⟩, ⟨copies, hcopies, hok⟩, -⟩ :=
        hclaim.claimed (htable ▸ ht) hnone
      -- the import failed: the slot has an owner that never lived there
      have htable₂ : e'.table = t.leak id i := by
        rw [← htable₁, table, hrestore.sessions]
        rfl
      have hfailed : ImportFailed (copies ++ [⟨.kvImport, i + 1, (e.sessions.tick.entry
          id).tokens.length, false⟩]) := by
        simp [ImportFailed]
      refine ⟨_, ⟨?_, true, ?_, by simpa using hfailed⟩, .inr (.inl ?_)⟩
      · rw [hrestore.copies, hcopies, List.append_assoc]
        rfl
      · rw [htable₂, ← htable]
        exact .snoc hsteps (.leak hfree hnone')
      · obtain ⟨c, hc, -, hcok⟩ := hfailed
        exact ⟨c, hc, hcok⟩

end Engine

/-! ### Runs -/

/-- The operations of the session store. -/
inductive StoreOp
  | acquire (id : String) (prompt : List Nat)
  | park (id : String)
  | commit (id : String) (tokens : List Nat)
  | forget (id : String)

/-- The engine a call leaves, however it ends. -/
def Engine.after {α : Type} (m : EStateM ServeError (Engine Cell Logits) α)
    (e : Engine Cell Logits) : Engine Cell Logits :=
  match m e with
  | .ok _ e' => e'
  | .error _ e' => e'

section Runs

variable (arch : Arch Cell Logits)

def StoreOp.run (e : Engine Cell Logits) : StoreOp → Engine Cell Logits
  | acquire id prompt => Engine.after (Engine.acquire arch id prompt) e
  | park id => Engine.after (Engine.park arch id) e
  | commit id tokens => { e with sessions := e.sessions.commit id tokens }
  | forget id => { e with sessions := (e.sessions.forget id).1 }

/-- The store of an engine: its operations, and between them anything the decoder
does that is no copy. -/
def storeSystem : System (Engine Cell Logits) (Option StoreOp) where
  init e := (∃ ramBudget, e.sessions = .new arch.batchCap ramBudget) ∧ e.dec.copies = []
  step e op e' :=
    match op with
    | some op => e' = op.run arch e
    | none => e'.sessions = e.sessions ∧ e'.dec.copies = e.dec.copies

variable {arch}

/-- What holds however a call ends. -/
theorem Engine.of_after {α : Type} {m : EStateM ServeError (Engine Cell Logits) α}
    {e : Engine Cell Logits} {P : Engine Cell Logits → Prop}
    (h : Triple (· = e) m (fun _ => P) (fun _ => P)) : P (after m e) := by
  unfold Engine.after
  cases hm : m e with
  | ok a e' => exact h.ok rfl hm
  | error err e' => exact h.error rfl hm

theorem forget_evolves (id : String) (e : Engine Cell Logits) (ht : e.table.Tidy) :
    e.Evolves [] { e with sessions := (e.sessions.forget id).1 } := by
  have htable : Engine.table { e with sessions := (e.sessions.forget id).1 } =
      match e.table.slot id with
      | some k => e.table.release id (k - 1)
      | none => e.table := SessionStore.table_forget
  cases hslot : e.table.slot id with
  | none =>
      rw [hslot] at htable
      exact .of_table (by simp) (by simp [ImportFailed]) htable
  | some k =>
      obtain ⟨i, rfl, -⟩ := ht id k hslot
      rw [hslot] at htable
      refine .of_step (by simp) (by simp [ImportFailed]) ?_
      rw [htable]
      exact .release hslot

/-- Every operation moves the table by elementary steps. -/
theorem StoreOp.evolves (op : StoreOp) (e : Engine Cell Logits) (ht : e.table.Tidy) :
    ∃ copies, e.Evolves copies (op.run arch e) := by
  cases op with
  | acquire id prompt =>
      refine Engine.of_after (P := fun e' => ∃ copies, e.Evolves copies e')
        ((Engine.acquire_run arch id prompt e).weaken (fun _ h => h) (fun _ _ h => ?_) fun _ _ h => ?_)
      · exact (h.evolves ht).1
      · obtain ⟨copies, hevolves, -⟩ := h.evolves ht
        exact ⟨copies, hevolves⟩
  | park id =>
      refine Engine.of_after (P := fun e' => ∃ copies, e.Evolves copies e')
        ((Engine.park_run arch id e).weaken (fun _ h => h) (fun _ e' h => ?_) fun _ e' h => ?_)
      · obtain ⟨copies, hcopies, hok⟩ := h.copied
        exact ⟨copies, hcopies, false, (h.parked ht).steps, by simp [hok]⟩
      · obtain ⟨htable, copies, ⟨hcopies, hok⟩, -⟩ := h.copied
        exact ⟨copies, .of_table hcopies hok htable⟩
  | commit id tokens =>
      exact ⟨[], .of_table (by simp [run]) (by simp [ImportFailed]) SessionStore.table_commit⟩
  | forget id => exact ⟨[], forget_evolves id e ht⟩

/-- Sessions own their slots, and a slot is orphaned exactly when an import failed. -/
def Engine.SlotInv (e : Engine Cell Logits) : Prop :=
  e.table.Tidy ∧ (e.table.Orphaned ↔ ImportFailed e.dec.copies)

theorem Engine.Evolves.slotInv {e e' : Engine Cell Logits} {copies : List KvCopy}
    (h : e.Evolves copies e') (hinv : e.SlotInv) : e'.SlotInv := by
  obtain ⟨hcopies, leaked, hsteps, hleak⟩ := h
  refine ⟨hsteps.tidy hinv.1, ?_⟩
  rw [hsteps.orphaned hinv.1, hinv.2, hleak, hcopies]
  simp only [ImportFailed, List.mem_append, or_and_right, exists_or]

theorem reachable_slotInv {e : Engine Cell Logits}
    (h : (storeSystem arch).Reachable System.anyStep e) : e.SlotInv := by
  refine h.invariant ?_ ?_
  · intro e ⟨⟨ramBudget, hsessions⟩, hcopies⟩
    have htable : e.table = ⟨List.replicate (arch.batchCap - 1) none, fun _ => none⟩ := by
      rw [Engine.table, hsessions]
      rfl
    constructor
    · intro id k hk
      simp [htable] at hk
    · simp [htable, hcopies, SlotTable.Orphaned, ImportFailed, List.getElem?_replicate]
  · intro e op e' hinv _ hstep
    cases op with
    | some op =>
        obtain rfl : e' = op.run arch e := hstep
        obtain ⟨copies, hevolves⟩ := op.evolves e hinv.1
        exact hevolves.slotInv hinv
    | none =>
        obtain ⟨hsessions, hcopies⟩ := hstep
        have hevolves : e.Evolves [] e' := .of_table (by simp [hcopies]) (by simp [ImportFailed])
          (by rw [Engine.table, hsessions]; rfl)
        exact hevolves.slotInv hinv

/-- **Slot table.** In every reachable state the two views agree exactly when no
`kv_import` has failed. No session ever has slot 0, and none is handed out. While
no import has failed: no two sessions share a slot, a forgotten session owns no slot,
and an `acquire` with a session slot there fails only when a copy fails in that call. -/
theorem reachable_slots {e : Engine Cell Logits}
    (h : (storeSystem arch).Reachable System.anyStep e) :
    (e.table.Consistent ↔ ¬ImportFailed e.dec.copies) ∧
      (∀ id, e.table.slot id ≠ some 0) ∧
      (∀ id prompt slot reuse e', Engine.acquire arch id prompt e = .ok (slot, reuse) e' →
        slot ≠ 0) ∧
      (¬ImportFailed e.dec.copies →
        (∀ id id' k, e.table.slot id = some k → e.table.slot id' = some k → id = id') ∧
        (∀ id (i : Nat), (e.sessions.forget id).1.owner[i]? ≠ some (some id)) ∧
        (∀ id prompt err e', e.sessions.owner ≠ [] →
          Engine.acquire arch id prompt e = .error err e' →
          ∃ copies, e'.dec.copies = e.dec.copies ++ copies ∧ CopyFailed copies)) := by
  obtain ⟨htidy, horphan⟩ := reachable_slotInv h
  have hzero : ∀ {e : Engine Cell Logits}, e.table.Tidy → ∀ id, e.table.slot id ≠ some 0 := by
    intro e ht id hid
    obtain ⟨i, hi, -⟩ := ht id 0 hid
    cases hi
  refine ⟨by rw [SlotTable.consistent_iff htidy, horphan], hzero htidy, ?_, fun hok => ⟨?_, ?_, ?_⟩⟩
  · rintro id prompt slot reuse e' hrun rfl
    obtain ⟨⟨copies, hevolves⟩, hslot⟩ :=
      ((Engine.acquire_run arch id prompt e).ok rfl hrun).evolves htidy
    exact hzero (hevolves.slotInv ⟨htidy, horphan⟩).1 id hslot
  · intro id id' k hid hid'
    obtain ⟨i, rfl, howner⟩ := htidy id k hid
    obtain ⟨j, hj, howner'⟩ := htidy id' (i + 1) hid'
    cases hj
    rw [howner] at howner'
    cases howner'
    rfl
  · intro id i howner
    have hinv := (forget_evolves id e htidy).slotInv ⟨htidy, horphan⟩
    have hconsistent := (SlotTable.consistent_iff hinv.1).mpr (hinv.2.not.mpr hok)
    have hslot := (hconsistent i id).mp howner
    have hnone : (Engine.table { e with sessions := (e.sessions.forget id).1 }).slot id = none := by
      show ((e.sessions.forget id).1.find id).bind _ = none
      rw [SessionStore.find_forget, if_pos rfl]
      rfl
    rw [hnone] at hslot
    cases hslot
  · intro id prompt err e' hne hrun
    obtain ⟨copies, hevolves, hwhy⟩ :=
      ((Engine.acquire_run arch id prompt e).error rfl hrun).evolves htidy
    rcases hwhy with hnil | hfailed | horphaned
    · exact absurd hnil hne
    · exact ⟨copies, hevolves.1, hfailed⟩
    · exact absurd (horphan.mp horphaned) hok

/-- A store of one session slot, on a device whose second call fails. -/
def secondCallFails : Arch Unit Unit where
  batch := 2
  maxSeq := 4
  kvBytesPerToken := 1
  eos := []
  cell _ _ := ()
  logits _ _ := ()
  argmax _ := 0
  fails n := if n = 1 then some "out of memory" else none
  junk _ _ _ := ()

def freshStore : Engine Unit Unit where
  dec := { kv := fun _ _ => (), lastLogits := (), logitsMulti := [], calls := 0, copies := [] }
  sessions := .new 2 8
  sent := []

def runOps {arch : Arch Cell Logits} (e : Engine Cell Logits) (ops : List StoreOp) :
    Engine Cell Logits :=
  ops.foldl (StoreOp.run arch) e

theorem reachable_runOps {e : Engine Cell Logits}
    (h : (storeSystem arch).Reachable System.anyStep e) (ops : List StoreOp) :
    (storeSystem arch).Reachable System.anyStep (@runOps _ _ arch e ops) := by
  induction ops generalizing e with
  | nil => exact h
  | cons op ops ih =>
      refine ih (.step (a := some op) h ?_ ?_)
      · trivial
      · rfl

theorem reachable_freshStore {arch : Arch Unit Unit} (h : arch.batchCap = 2) :
    (storeSystem arch).Reachable System.anyStep freshStore :=
  .init ⟨⟨8, by simp [freshStore, h]⟩, rfl⟩

/-- The same store on a device without failures. -/
def steadyDevice : Arch Unit Unit := { secondCallFails with fails := fun _ => none }

/-- `a` is parked for `b`, and comes back in the place of `b`. -/
def restoreOps : List StoreOp :=
  [.acquire "a" [1, 2], .commit "a" [1, 2], .acquire "b" [3], .commit "b" [3],
    .acquire "a" [1, 2]]

/-- Two contexts were exported and one was imported, and the two views agree. -/
theorem reachable_slots_restored :
    ∃ e, (storeSystem steadyDevice).Reachable System.anyStep e ∧
      e.dec.copies = [⟨.kvExport, 1, 2, true⟩, ⟨.kvExport, 1, 1, true⟩, ⟨.kvImport, 1, 2, true⟩] ∧
      e.table.slot "a" = some 1 ∧ e.table.slot "b" = none ∧ e.table.Consistent := by
  have hfresh := @reachable_freshStore steadyDevice rfl
  have hreach := reachable_runOps hfresh restoreOps
  have hcopies : (@runOps _ _ steadyDevice freshStore restoreOps).dec.copies =
      [⟨.kvExport, 1, 2, true⟩, ⟨.kvExport, 1, 1, true⟩, ⟨.kvImport, 1, 2, true⟩] := rfl
  refine ⟨_, hreach, hcopies, rfl, rfl, (reachable_slots hreach).1.mpr ?_⟩
  simp [ImportFailed, hcopies]

/-- `a` is parked for `b`, `b` is forgotten, and the restore of `a` fails. -/
def leakOps : List StoreOp :=
  [.acquire "a" [1, 2], .commit "a" [1, 2], .acquire "b" [3], .forget "b", .acquire "a" [1, 2]]

/-- The one session slot is lost: nobody lives there, and `c` cannot have it. -/
theorem slot_leaked :
    ∃ e, (storeSystem secondCallFails).Reachable System.anyStep e ∧ ¬e.table.Consistent ∧
      ∃ e', Engine.acquire secondCallFails "c" [4] e = .error .parkFreedNoSlot e' ∧
        e'.dec.copies = e.dec.copies := by
  refine ⟨@runOps _ _ secondCallFails freshStore leakOps,
    reachable_runOps (reachable_freshStore rfl) leakOps, ?_, _, rfl, rfl⟩
  intro h
  have hslot := (h 0 "a").mp rfl
  cases hslot

end Runs

end LlmPager.Serve
