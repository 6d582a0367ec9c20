import LlmPager.Serve.DecoderSpec

/-!
# LlmPager.Serve.Session

The per-model session store (`SessionStore` in `llmpager-serve/src/main.rs`):
named contexts on sequence slots `1 ..`, parked in host memory when they lose
their slot.

A `HashMap` is an `AList`. Where the source asks a hash map for a minimum
(`min_by_key`), the model takes the first in its own order; the keys are
`last_used` stamps of distinct sessions, which are distinct. The `u64` clock does
not overflow. `owner[slot - 1]` is written with `List.set`: the slots of sessions
are between 1 and the length of the table (`SessionStore.Tidy`), so the index
never underflows or panics.
-/

namespace LlmPager.Serve

open LlmPager.Lib

variable {Cell Logits : Type}

/-- One named context: the tokens whose KV we hold, and where that KV lives. -/
structure Session (Cell : Type) where
  tokens : List Nat
  /-- Resident sequence slot, if any. -/
  slot : Option Nat
  /-- Host-parked KV covering `tokens`. -/
  parked : Option (Blob Cell)
  lastUsed : Nat
  turns : Nat

structure SessionStore (Cell : Type) where
  map : AList (fun _ : String => Session Cell)
  /-- `owner[i]` holds the session using sequence slot `i + 1`. -/
  owner : List (Option String)
  ramBudget : Nat
  clock : Nat

/-- A warm model: its decoder, its sessions, and the text fragments handed to
`on_delta` by the request it serves. -/
structure Engine (Cell Logits : Type) where
  dec : Decoder Cell Logits
  sessions : SessionStore Cell
  sent : List String

/-- `common_prefix`. -/
def commonPrefix (a b : List Nat) : Nat := ((a.zip b).takeWhile fun x => x.1 = x.2).length

namespace SessionStore

/-- `SessionStore::new`. -/
def new (batchCap ramBudget : Nat) : SessionStore Cell :=
  { map := ∅, owner := List.replicate (batchCap - 1) none, ramBudget, clock := 0 }

variable (s : SessionStore Cell)

def find (id : String) : Option (Session Cell) := s.map.lookup id

/-- Write through `map.get_mut(id)`. -/
def update (id : String) (f : Session Cell → Session Cell) : SessionStore Cell :=
  match s.find id with
  | some e => { s with map := s.map.insert id (f e) }
  | none => s

def tick : SessionStore Cell := { s with clock := s.clock + 1 }

/-- The session `map.entry(id).or_insert_with(..)` gives, with
`last_used = now`. -/
def entry (id : String) : Session Cell :=
  let fresh := { tokens := [], slot := none, parked := none, lastUsed := s.clock, turns := 0 }
  { (s.find id).getD fresh with lastUsed := s.clock }

/-- The map with that entry in it. -/
def stamp (id : String) : SessionStore Cell := { s with map := s.map.insert id (s.entry id) }

def parkedBytes : Nat :=
  (s.map.entries.filterMap fun e => e.2.parked.map Blob.nbytes).sum

/-- The parked session that was used least recently. -/
def oldestParked : Option String :=
  ((s.map.entries.filter (·.2.parked.isSome)).argmin (·.2.lastUsed)).map (·.1)

/-- A dropped context loses its KV, so its token list goes too. -/
def dropParked (id : String) : SessionStore Cell :=
  s.update id fun e => { e with parked := none, tokens := [] }

/-- The loop of `enforce_budget`, one drop per unit of fuel. -/
def enforceBudgetAux : Nat → SessionStore Cell → SessionStore Cell
  | 0, s => s
  | fuel + 1, s =>
      if s.ramBudget < s.parkedBytes then
        match s.oldestParked with
        | none => s
        | some id => enforceBudgetAux fuel (s.dropParked id)
      else s

/-- `enforce_budget`: every drop leaves one parked session less. -/
def enforceBudget : SessionStore Cell := enforceBudgetAux s.map.entries.length s

/-- The writes of `park` once the context is exported. -/
def vacate (id : String) (slot : Nat) (blob : Option (Blob Cell)) : SessionStore Cell :=
  let s' := s.update id fun e => { e with parked := blob, slot := none }
  { s' with owner := s'.owner.set (slot - 1) none }

/-- `owner.iter().position(|o| o.is_none())`. -/
def freeSlot : Option Nat := s.owner.findIdx? (·.isNone)

/-- The session `claim_slot` parks when every slot is taken. -/
def victim : Option String :=
  s.owner.reduceOption.argmin fun id => ((s.find id).map Session.lastUsed).getD 0

def setOwner (i : Nat) (id : String) : SessionStore Cell :=
  { s with owner := s.owner.set i (some id) }

/-- The last writes of `acquire`: the session lives in `slot` from now on, and
only the prefix its caller will not overwrite still describes it. -/
def settle (id : String) (slot reuse : Nat) : SessionStore Cell :=
  s.update id fun e => { e with slot := some slot, tokens := e.tokens.take reuse }

/-- `commit`: the context a finished generation leaves in the slot. -/
def commit (id : String) (tokens : List Nat) : SessionStore Cell :=
  let s := s.tick
  s.update id fun e => { e with tokens, turns := e.turns + 1, lastUsed := s.clock }

/-- `forget`, and whether there was such a session. -/
def forget (id : String) : SessionStore Cell × Bool :=
  match s.find id with
  | some e =>
      let s := { s with map := s.map.erase id }
      match e.slot with
      | some slot => ({ s with owner := s.owner.set (slot - 1) none }, true)
      | none => (s, true)
  | none => (s, false)

end SessionStore

namespace Engine

variable (arch : Arch Cell Logits)

/-- A call on the engine's decoder. -/
def onDecoder {α : Type} (m : EStateM ServeError (Decoder Cell Logits) α) :
    EStateM ServeError (Engine Cell Logits) α :=
  zoom Engine.dec (fun d e => { e with dec := d }) m

/-- A write to the engine's session store. -/
def onSessions (f : SessionStore Cell → SessionStore Cell) :
    EStateM ServeError (Engine Cell Logits) Unit :=
  modify fun e => { e with sessions := f e.sessions }

/-- `if len > 0 { Some(dec.kv_export(slot, len)?) } else { None }`. -/
def exportContext (slot len : Nat) :
    EStateM ServeError (Engine Cell Logits) (Option (Blob Cell)) :=
  if 0 < len then do
    let blob ← onDecoder (Decoder.kvExport arch slot len)
    pure (some blob)
  else pure none

/-- `park`: copy a session's KV into host memory and free its slot. -/
def park (id : String) : EStateM ServeError (Engine Cell Logits) Unit := do
  match (← get).sessions.find id with
  | none => pure ()
  | some s =>
      match s.slot with
      | none => pure ()
      | some slot => do
          let blob ← exportContext arch slot s.tokens.length
          onSessions fun st => (st.vacate id slot blob).enforceBudget

/-- `claim_slot`: a free sequence slot, parking the least recently used session
if every slot is taken. -/
def claimSlot (forId : String) : EStateM ServeError (Engine Cell Logits) Nat := do
  let st := (← get).sessions
  match st.freeSlot with
  | some i => do
      onSessions fun st => st.setOwner i forId
      pure (i + 1)
  | none =>
      match st.victim with
      | none => throw .noSessionSlots
      | some victim => do
          park arch victim
          match (← get).sessions.freeSlot with
          | none => throw .parkFreedNoSlot
          | some i => do
              onSessions fun st => st.setOwner i forId
              pure (i + 1)

/-- Restore a parked context into a slot, when any of it can be reused; the
prefix that is in the slot then. -/
def restore (slot storedLen reuse : Nat) (parked : Option (Blob Cell)) :
    EStateM ServeError (Engine Cell Logits) Nat :=
  match parked with
  | some blob =>
      if 0 < reuse then do
        onDecoder (Decoder.kvImport arch slot storedLen blob)
        pure reuse
      else pure 0
  | none => pure 0

/-- `acquire`: give `id` a slot and report `(seq_slot, reusable prefix length)`.
At least one token of the prompt is left to run. -/
def acquire (id : String) (prompt : List Nat) :
    EStateM ServeError (Engine Cell Logits) (Nat × Nat) := do
  if (← get).sessions.owner = [] then throw .needsTwoSlots
  else do
    let e := (← get).sessions.tick.entry id
    onSessions fun st => st.tick.stamp id
    let reuse := min (commonPrefix e.tokens prompt) (prompt.length - 1)
    match e.slot with
    | some slot => do
        onSessions fun st => st.settle id slot reuse
        pure (slot, reuse)
    | none => do
        onSessions fun st => st.update id fun e => { e with parked := none }
        let slot ← claimSlot arch id
        let reuse ← restore arch slot e.tokens.length reuse e.parked
        onSessions fun st => st.settle id slot reuse
        pure (slot, reuse)

end Engine

/-! ### What the writes do to a session -/

namespace SessionStore

variable {s : SessionStore Cell} {id x : String}

theorem find_update (f : Session Cell → Session Cell) :
    (s.update id f).find x = if x = id then (s.find id).map f else s.find x := by
  unfold update
  cases h : s.find id with
  | none =>
      by_cases hx : x = id
      · simp [hx, h]
      · simp [hx]
  | some e =>
      by_cases hx : x = id
      · subst hx
        simp [find, AList.lookup_insert]
      · simp [find, hx, AList.lookup_insert_ne hx]

@[simp] theorem owner_update (f : Session Cell → Session Cell) :
    (s.update id f).owner = s.owner := by
  unfold update
  cases s.find id <;> rfl

@[simp] theorem ramBudget_update (f : Session Cell → Session Cell) :
    (s.update id f).ramBudget = s.ramBudget := by
  unfold update
  cases s.find id <;> rfl

@[simp] theorem find_tick : s.tick.find x = s.find x := rfl

@[simp] theorem find_setOwner {i : Nat} : (s.setOwner i id).find x = s.find x := rfl

theorem find_stamp : (s.stamp id).find x = if x = id then some (s.entry id) else s.find x := by
  by_cases hx : x = id
  · subst hx
    simp [stamp, find, AList.lookup_insert]
  · simp [stamp, find, hx, AList.lookup_insert_ne hx]

theorem find_vacate {slot : Nat} {blob : Option (Blob Cell)} :
    (s.vacate id slot blob).find x =
      if x = id then (s.find id).map fun e => { e with parked := blob, slot := none }
      else s.find x :=
  find_update _

theorem find_forget : (s.forget id).1.find x = if x = id then none else s.find x := by
  have herase : AList.lookup x (s.map.erase id) = if x = id then none else s.find x := by
    by_cases hx : x = id
    · subst hx
      simp
    · simp [find, hx, AList.lookup_erase_ne hx]
  unfold forget
  cases h : s.find id with
  | none =>
      by_cases hx : x = id
      · simp [hx, h]
      · simp [hx]
  | some e =>
      simp only
      cases hslot : e.slot with
      | none => exact herase
      | some slot => exact herase

theorem owner_forget : (s.forget id).1.owner =
    match (s.find id).bind Session.slot with
    | some slot => s.owner.set (slot - 1) none
    | none => s.owner := by
  unfold forget
  cases h : s.find id with
  | none => rfl
  | some e => cases hslot : e.slot <;> simp [hslot]

end SessionStore

end LlmPager.Serve
