import LlmPager.Core.Pack
import LlmPager.Cuda.Slabs

/-!
# LlmPager.Run.Resize

Resizing the expert cache: `Pager::new` with its VRAM reserve, and
`resize_cache` of the two engines (`decode.rs`, `kimi.rs`).

What the pack, the device and its co-tenants answer to one `Pager::new` is a
`BuildEnv`; nothing relates the answers to two of them, as a co-tenant may take
what the old arena gave back. Products of machine integers wrap, as they do in the
release build that is packaged. `none` is a panic: an assertion of the cache.

The old arena is freed before the new one is built. `resize_keeps_pager_iff`
says when the decoder is left with a pager, and that nothing but the two builds
decides it.
-/

namespace LlmPager

/-- What a pack's meta and index tell `Pager::new`. -/
structure PackShape where
  numLayers : Nat
  expertsPerLayer : Nat
  maxBlobBytes : Nat
  deriving Repr, DecidableEq

/-- What one `Pager::new` meets; `none` and `false` are errors. -/
structure BuildEnv where
  /-- `open_reader`. -/
  pack : Option PackShape
  /-- `mem_info`: free and total bytes of the card. -/
  memInfo : Option (Nat × Nat)
  /-- `alloc_device` for a layer's arena of some bytes. -/
  alloc : Nat → Nat → Bool
  /-- `event` for a slot. -/
  event : Nat → Bool

/-- `PagerConfig`, with the settings that `Pager::new` takes from the
environment. -/
structure ArenaConfig where
  slotsPerLayer : Nat
  ioThreads : Nat
  decayInterval : Nat
  ramBytes : Nat
  reserveBytes : Nat
  globalPool : Bool
  decayTokens : Nat

inductive ArenaError
  | pack
  | memInfo
  | reserve (reserveBytes free total perSlot : Nat)
  | alloc
  | event
  deriving Repr, DecidableEq

/-- The text of the error that `Pager::new` words itself. -/
def ArenaError.message : ArenaError → Option String
  | reserve reserveBytes free total perSlot =>
      some s!"cannot honour a {reserveBytes / 1000000} MB VRAM reserve: {free / 1000000} MB free of {total / 1000000} MB, and one slot per layer needs {perSlot / 1000000} MB"
  | _ => none

/-- A built pager with what `Shared` records of its arena. -/
structure Arena where
  pager : Pager
  slotsPerLayer : Nat
  span : Nat
  ram : Option RamTier

/-- The slots per layer that leave the reserve free. -/
def clampSlots (memInfo : Option (Nat × Nat)) (layers span slots reserveBytes : Nat) :
    Except ArenaError Nat :=
  if 0 < reserveBytes then
    match memInfo with
    | none => .error .memInfo
    | some (free, total) =>
        let perSlot := layers * span % 2 ^ 64
        let spare := free - reserveBytes
        let fits := spare / max perSlot 1 % 2 ^ 32
        if fits < slots then
          if fits = 0 then .error (.reserve reserveBytes free total perSlot) else .ok fits
        else .ok slots
  else .ok slots

namespace Arena

/-- What is left of `Pager::new` when the device has given all it was asked. -/
def assemble (shape : PackShape) (span : Nat) (cfg : ArenaConfig) : Option Arena := do
  let pager ← Pager.new
    { numLayers := shape.numLayers, expertsPerLayer := shape.expertsPerLayer,
      slotsPerLayer := cfg.slotsPerLayer, decayInterval := cfg.decayInterval,
      ioThreads := cfg.ioThreads, globalPool := cfg.globalPool, decayTokens := cfg.decayTokens }
  let ram ← RamTier.new cfg.ramBytes span shape.numLayers shape.expertsPerLayer
  some { pager, slotsPerLayer := cfg.slotsPerLayer, span, ram }

/-- `Pager::new`: one arena per layer, then one event per slot. -/
def new (env : BuildEnv) (cfg : ArenaConfig) : Option (Except ArenaError Arena) :=
  match env.pack with
  | none => some (.error .pack)
  | some shape =>
      let span := alignUp shape.maxBlobBytes
      match clampSlots env.memInfo shape.numLayers span cfg.slotsPerLayer cfg.reserveBytes with
      | .error err => some (.error err)
      | .ok slots =>
          if ((List.range shape.numLayers).all fun layer => env.alloc layer (slots * span)) = false
          then some (.error .alloc)
          else if ((List.range (shape.numLayers * slots)).all env.event) = false
          then some (.error .event)
          else (assemble shape span { cfg with slotsPerLayer := slots }).map .ok

end Arena

/-- What `resize_cache` touches of a decoder. -/
structure CacheOwner where
  pager : Option Arena
  /-- Handles whose release waits for an event. -/
  pendingRelease : List (Nat × List ExpertHandle)
  ioThreads : Nat
  ramBytes : Nat
  reserveBytes : Nat
  globalPool : Bool
  decayTokens : Nat

inductive ResizeError
  /-- The device could not be synchronised. -/
  | sync
  /-- The new size could not be built; the previous one was restored. -/
  | kept (cause : ArenaError) (slots previous : Nat)
  /-- Neither could be built. -/
  | lost (cause : ArenaError)
  deriving Repr, DecidableEq

/-- The context that `resize_cache` puts before the cause. -/
def ResizeError.message : ResizeError → Option String
  | sync => none
  | kept _ slots previous => some s!"cache resize to {slots} slots failed; kept {previous}"
  | lost _ => some "cache resize failed and the previous size could not be restored"

namespace CacheOwner

def slotsPerLayer (d : CacheOwner) : Nat := (d.pager.map Arena.slotsPerLayer).getD 0

/-- The closure `build` of `resize_cache`. -/
def build (d : CacheOwner) (env : BuildEnv) (slots reserveBytes : Nat) :
    Option (Except ArenaError Arena) :=
  Arena.new env
    { slotsPerLayer := slots, ioThreads := d.ioThreads,
      decayInterval := max 64 (slots * 4 % 2 ^ 32), ramBytes := d.ramBytes,
      reserveBytes := reserveBytes, globalPool := d.globalPool, decayTokens := d.decayTokens }

/-- `resize_cache`; `first` and `fallback` are what its two builds meet. -/
def resizeCache (sync : Bool) (first fallback : BuildEnv) (slots : Nat) (d : CacheOwner) :
    Option (Except ResizeError Unit × CacheOwner) :=
  if sync = false then some (.error .sync, d)
  else
    let d := { d with pendingRelease := [] }
    let previous := d.slotsPerLayer
    let d := { d with pager := none }
    match d.build first slots d.reserveBytes with
    | none => none
    | some (.ok p) => some (.ok (), { d with pager := some p })
    | some (.error err) =>
        -- restored at the previous size, ignoring the reserve
        match d.build fallback previous 0 with
        | none => none
        | some (.error err') => some (.error (.lost err'), d)
        | some (.ok p) => some (.error (.kept err slots previous), { d with pager := some p })

end CacheOwner

/-- `Decoder::resize_cache`. -/
def Qwen.resizeCache := CacheOwner.resizeCache

/-- `KimiDecoder::resize_cache`. -/
def Kimi.resizeCache := CacheOwner.resizeCache

/-- The two engines. -/
inductive AnyDecoder
  | qwen (d : CacheOwner)
  | kimi (d : CacheOwner)

namespace CacheOwner

/-- `set_reserve_bytes`: applied by the next `resize_cache`. -/
def setReserveBytes (bytes : Nat) (d : CacheOwner) : CacheOwner := { d with reserveBytes := bytes }

end CacheOwner

namespace AnyDecoder

def owner : AnyDecoder → CacheOwner
  | qwen d | kimi d => d

/-- `AnyDecoder::set_reserve_bytes`. -/
def setReserveBytes (bytes : Nat) : AnyDecoder → AnyDecoder
  | qwen d => qwen (d.setReserveBytes bytes)
  | kimi d => kimi (d.setReserveBytes bytes)

def slotsPerLayer (d : AnyDecoder) : Nat := d.owner.slotsPerLayer

/-- `AnyDecoder::resize_cache`. -/
def resizeCache (sync : Bool) (first fallback : BuildEnv) (slots : Nat) :
    AnyDecoder → Option (Except ResizeError Unit × AnyDecoder)
  | qwen d => (Qwen.resizeCache sync first fallback slots d).map fun (r, d) => (r, qwen d)
  | kimi d => (Kimi.resizeCache sync first fallback slots d).map fun (r, d) => (r, kimi d)

end AnyDecoder

/-! ### When a build fails -/

/-- The pack, the device or the reserve refuses `slots` per layer. -/
def BuildEnv.Refuses (env : BuildEnv) (slots reserveBytes : Nat) : Prop :=
  match env.pack with
  | none => True
  | some shape =>
      match clampSlots env.memInfo shape.numLayers (alignUp shape.maxBlobBytes) slots
        reserveBytes with
      | .error _ => True
      | .ok n =>
          (∃ layer < shape.numLayers, env.alloc layer (n * alignUp shape.maxBlobBytes) = false) ∨
            ∃ slot < shape.numLayers * n, env.event slot = false

/-- The slots per layer that the pack and the reserve leave of what is asked for. -/
def BuildEnv.fitted (env : BuildEnv) (slots reserveBytes : Nat) : Option Nat :=
  env.pack.bind fun shape =>
    (clampSlots env.memInfo shape.numLayers (alignUp shape.maxBlobBytes) slots
      reserveBytes).toOption

/-- The clamp gives at most what was asked for, and nothing only if that was. -/
theorem clampSlots_le {memInfo : Option (Nat × Nat)} {layers span slots reserveBytes n : Nat}
    (h : clampSlots memInfo layers span slots reserveBytes = .ok n) :
    n ≤ slots ∧ (n = 0 → slots = 0) ∧ (reserveBytes = 0 → n = slots) := by
  unfold clampSlots at h
  split at h
  case isFalse hnone =>
    cases h
    exact ⟨Nat.le_refl _, id, fun _ => rfl⟩
  case isTrue hreserve =>
  cases memInfo with
  | none => cases h
  | some info =>
      obtain ⟨free, total⟩ := info
      simp only at h
      split at h
      case isFalse =>
        cases h
        exact ⟨Nat.le_refl _, id, fun _ => rfl⟩
      case isTrue hlt =>
      split at h
      · cases h
      · rename_i hfits
        cases h
        exact ⟨hlt.le, fun hzero => absurd hzero hfits, fun hzero => by omega⟩

/-- What the clamp leaves fits beside the reserve. -/
theorem clampSlots_fits {memInfo : Option (Nat × Nat)} {layers span slots reserveBytes n : Nat}
    (h : clampSlots memInfo layers span slots reserveBytes = .ok n) (hreserve : 0 < reserveBytes)
    (hslots : 0 < n) (hperSlot : layers * span < 2 ^ 64) :
    ∃ free total, memInfo = some (free, total) ∧ n * (layers * span) + reserveBytes ≤ free := by
  unfold clampSlots at h
  rw [if_pos hreserve] at h
  cases memInfo with
  | none => cases h
  | some info =>
      obtain ⟨free, total⟩ := info
      simp only [Nat.mod_eq_of_lt hperSlot] at h
      have hle : n ≤ (free - reserveBytes) / max (layers * span) 1 := by
        have hfits := Nat.mod_le ((free - reserveBytes) / max (layers * span) 1) (2 ^ 32)
        split at h
        case isFalse hge =>
          cases h
          omega
        case isTrue =>
        split at h
        · cases h
        · cases h
          exact hfits
      have hspare : n * max (layers * span) 1 ≤ free - reserveBytes :=
        (Nat.mul_le_mul_right _ hle).trans (Nat.div_mul_le_self _ _)
      have hperSlot' : n * (layers * span) ≤ n * max (layers * span) 1 :=
        Nat.mul_le_mul_left _ (Nat.le_max_left _ _)
      have hsome : n ≤ n * max (layers * span) 1 :=
        Nat.le_mul_of_pos_right n (Nat.lt_of_lt_of_le Nat.one_pos (Nat.le_max_right _ _))
      exact ⟨free, total, rfl, by omega⟩

namespace Arena

/-- Device memory of an arena: one allocation per layer. -/
def bytes (a : Arena) : Nat := a.pager.numLayers * (a.slotsPerLayer * a.span)

theorem assemble_eq_some {shape : PackShape} {span : Nat} {cfg : ArenaConfig} {a : Arena}
    (h : assemble shape span cfg = some a) :
    a.slotsPerLayer = cfg.slotsPerLayer ∧ 0 < cfg.slotsPerLayer ∧ a.span = span ∧
      a.pager.numLayers = shape.numLayers := by
  obtain ⟨pager, hpager, h⟩ := Option.bind_eq_some_iff.mp h
  obtain ⟨ram, -, h⟩ := Option.bind_eq_some_iff.mp h
  cases h
  obtain ⟨cache, hcache, hpager⟩ := Option.bind_eq_some_iff.mp hpager
  cases hpager
  refine ⟨rfl, Nat.pos_of_ne_zero fun hzero => ?_, rfl, rfl⟩
  -- the cache asserts that it has slots
  unfold Pager.newCache ExpertCache.partitioned at hcache
  rw [hzero] at hcache
  cases hpool : cfg.globalPool <;> simp [hpool] at hcache

/-- What a build is assembled from: the pack's shape, and the slots that the clamp
leaves. -/
theorem new_assembled {env : BuildEnv} {cfg : ArenaConfig} {a : Arena}
    (h : new env cfg = some (.ok a)) :
    ∃ shape n, env.pack = some shape ∧
      clampSlots env.memInfo shape.numLayers (alignUp shape.maxBlobBytes) cfg.slotsPerLayer
        cfg.reserveBytes = .ok n ∧
      assemble shape (alignUp shape.maxBlobBytes) { cfg with slotsPerLayer := n } = some a := by
  unfold new at h
  cases hpack : env.pack with
  | none =>
      rw [hpack] at h
      cases h
  | some shape =>
      simp only [hpack] at h
      cases hclamp : clampSlots env.memInfo shape.numLayers (alignUp shape.maxBlobBytes)
          cfg.slotsPerLayer cfg.reserveBytes with
      | error err =>
          rw [hclamp] at h
          cases h
      | ok n =>
          simp only [hclamp] at h
          split at h
          · cases h
          split at h
          · cases h
          obtain ⟨a', ha, heq⟩ := Option.map_eq_some_iff.mp h
          cases heq
          exact ⟨shape, n, rfl, hclamp, ha⟩

theorem new_shape {env : BuildEnv} {cfg : ArenaConfig} {a : Arena}
    (h : new env cfg = some (.ok a)) :
    ∃ shape, env.pack = some shape ∧
      clampSlots env.memInfo shape.numLayers (alignUp shape.maxBlobBytes) cfg.slotsPerLayer
        cfg.reserveBytes = .ok a.slotsPerLayer ∧
      a.span = alignUp shape.maxBlobBytes ∧ a.pager.numLayers = shape.numLayers ∧
      0 < a.slotsPerLayer := by
  obtain ⟨shape, n, hpack, hclamp, ha⟩ := new_assembled h
  obtain ⟨hslots, hpos, hspan, hlayers⟩ := assemble_eq_some ha
  rw [hslots]
  exact ⟨shape, hpack, hclamp, hspan, hlayers, hpos⟩

/-- Its pager is a fresh one for the pack. -/
theorem new_pager {env : BuildEnv} {cfg : ArenaConfig} {a : Arena}
    (h : new env cfg = some (.ok a)) :
    ∃ shape pagerCfg, env.pack = some shape ∧ Pager.new pagerCfg = some a.pager ∧
      pagerCfg.expertsPerLayer = shape.expertsPerLayer := by
  obtain ⟨shape, n, hpack, -, ha⟩ := new_assembled h
  obtain ⟨pager, hpager, ha⟩ := Option.bind_eq_some_iff.mp ha
  obtain ⟨ram, -, ha⟩ := Option.bind_eq_some_iff.mp ha
  cases ha
  exact ⟨shape, _, hpack, hpager, rfl⟩

/-- **What a build gives**: no more than was asked for, and never an empty
arena. -/
theorem new_ok {env : BuildEnv} {cfg : ArenaConfig} {a : Arena}
    (h : new env cfg = some (.ok a)) :
    0 < a.slotsPerLayer ∧ a.slotsPerLayer ≤ cfg.slotsPerLayer ∧
      (cfg.reserveBytes = 0 → a.slotsPerLayer = cfg.slotsPerLayer) := by
  obtain ⟨shape, -, hclamp, -, -, hpos⟩ := new_shape h
  obtain ⟨hle, -, hsame⟩ := clampSlots_le hclamp
  exact ⟨hpos, hle, hsame⟩

/-- A build fails exactly when it is refused. -/
theorem new_error_iff {env : BuildEnv} {cfg : ArenaConfig} :
    (∃ err, new env cfg = some (.error err)) ↔ env.Refuses cfg.slotsPerLayer cfg.reserveBytes := by
  unfold new BuildEnv.Refuses
  cases env.pack with
  | none => exact ⟨fun _ => trivial, fun _ => ⟨_, rfl⟩⟩
  | some shape =>
      simp only
      cases clampSlots env.memInfo shape.numLayers (alignUp shape.maxBlobBytes)
          cfg.slotsPerLayer cfg.reserveBytes with
      | error err => exact ⟨fun _ => trivial, fun _ => ⟨_, rfl⟩⟩
      | ok n =>
          simp only
          by_cases halloc : ((List.range shape.numLayers).all fun layer =>
              env.alloc layer (n * alignUp shape.maxBlobBytes)) = false
          · rw [if_pos halloc]
            refine iff_of_true ⟨_, rfl⟩ (.inl ?_)
            simpa [List.all_eq_false] using halloc
          · rw [if_neg halloc]
            by_cases hevent : ((List.range (shape.numLayers * n)).all env.event) = false
            · rw [if_pos hevent]
              refine iff_of_true ⟨_, rfl⟩ (.inr ?_)
              simpa [List.all_eq_false] using hevent
            · rw [if_neg hevent]
              refine iff_of_false ?_ ?_
              · intro hex
                obtain ⟨err, herr⟩ := hex
                obtain ⟨a, -, heq⟩ := Option.map_eq_some_iff.mp herr
                cases heq
              · intro hrefused
                rcases hrefused with hlayer | hslot
                · exact halloc (by simpa [List.all_eq_false] using hlayer)
                · exact hevent (by simpa [List.all_eq_false] using hslot)

theorem not_refuses {env : BuildEnv} {cfg : ArenaConfig} {a : Arena}
    (h : new env cfg = some (.ok a)) : ¬env.Refuses cfg.slotsPerLayer cfg.reserveBytes := by
  intro hrefused
  obtain ⟨err, herr⟩ := new_error_iff.mpr hrefused
  rw [h] at herr
  cases herr

end Arena

/-! ### Resizing -/

namespace CacheOwner

variable {d d' : CacheOwner} {sync : Bool} {first fallback env : BuildEnv}
  {slots reserveBytes : Nat} {result : Except ResizeError Unit} {a : Arena} {err : ArenaError}

theorem build_ok (h : d.build env slots reserveBytes = some (.ok a)) :
    0 < a.slotsPerLayer ∧ a.slotsPerLayer ≤ slots ∧
      (reserveBytes = 0 → a.slotsPerLayer = slots) := by
  exact Arena.new_ok h

/-- The slots of a built arena are those that the pack and the reserve leave. -/
theorem build_fitted (h : d.build env slots reserveBytes = some (.ok a)) :
    env.fitted slots reserveBytes = some a.slotsPerLayer := by
  obtain ⟨shape, hpack, hclamp, -⟩ := Arena.new_shape h
  simp only [BuildEnv.fitted, hpack, Option.bind_some]
  rw [hclamp]
  rfl

theorem build_error (h : d.build env slots reserveBytes = some (.error err)) :
    env.Refuses slots reserveBytes := by
  exact Arena.new_error_iff.mp ⟨err, h⟩

theorem not_refuses_of_build_ok (h : d.build env slots reserveBytes = some (.ok a)) :
    ¬env.Refuses slots reserveBytes := by
  exact Arena.not_refuses h

/-- How a resize ends. -/
inductive Resized (sync : Bool) (first fallback : BuildEnv) (slots : Nat) (d : CacheOwner) :
    Except ResizeError Unit → CacheOwner → Prop
  /-- The device could not be synchronised: nothing has happened yet. -/
  | unsynced (hsync : sync = false) : Resized sync first fallback slots d (.error .sync) d
  | resized {a : Arena} (hsync : sync = true)
      (hbuild : d.build first slots d.reserveBytes = some (.ok a)) :
      Resized sync first fallback slots d (.ok ()) { d with pendingRelease := [], pager := some a }
  | kept {a : Arena} {err : ArenaError} (hfirst : first.Refuses slots d.reserveBytes)
      (hok : ¬fallback.Refuses d.slotsPerLayer 0) (hslots : a.slotsPerLayer = d.slotsPerLayer)
      (hpos : 0 < a.slotsPerLayer) :
      Resized sync first fallback slots d (.error (.kept err slots d.slotsPerLayer))
        { d with pendingRelease := [], pager := some a }
  | lost {err : ArenaError} (hsync : sync = true) (hfirst : first.Refuses slots d.reserveBytes)
      (hfallback : fallback.Refuses d.slotsPerLayer 0) :
      Resized sync first fallback slots d (.error (.lost err))
        { d with pendingRelease := [], pager := none }

/-- **Inversion of `resize_cache`.** -/
theorem resizeCache_inv (h : d.resizeCache sync first fallback slots = some (result, d')) :
    Resized sync first fallback slots d result d' := by
  unfold resizeCache at h
  cases sync with
  | false =>
      rw [if_pos rfl] at h
      cases h
      exact .unsynced rfl
  | true =>
      rw [if_neg (by simp)] at h
      simp only at h
      cases hfirst : build { d with pendingRelease := [], pager := none } first slots
          d.reserveBytes with
      | none =>
          rw [hfirst] at h
          cases h
      | some r =>
          cases r with
          | ok a =>
              rw [hfirst] at h
              cases h
              exact .resized rfl hfirst
          | error err =>
              simp only [hfirst] at h
              cases hfallback : build { d with pendingRelease := [], pager := none } fallback
                  (slotsPerLayer { d with pendingRelease := [] }) 0 with
              | none =>
                  rw [hfallback] at h
                  cases h
              | some r =>
                  cases r with
                  | ok a =>
                      rw [hfallback] at h
                      cases h
                      obtain ⟨hpos, -, hsame⟩ := build_ok hfallback
                      exact .kept (build_error hfirst) (not_refuses_of_build_ok hfallback)
                        (hsame rfl) hpos
                  | error err' =>
                      rw [hfallback] at h
                      cases h
                      exact .lost rfl (build_error hfirst) (build_error hfallback)

/-- Once the device is synchronised the ring is cleared, and a pager there is
afterwards comes from one of the two builds. -/
theorem resizeCache_built (h : d.resizeCache true first fallback slots = some (result, d')) :
    d'.pendingRelease = [] ∧ ∀ a, d'.pager = some a →
      ∃ env cfg, (env = first ∨ env = fallback) ∧ Arena.new env cfg = some (.ok a) := by
  unfold resizeCache at h
  rw [if_neg (by simp)] at h
  simp only at h
  cases hfirst : build { d with pendingRelease := [], pager := none } first slots
      d.reserveBytes with
  | none =>
      rw [hfirst] at h
      cases h
  | some r =>
      cases r with
      | ok a =>
          rw [hfirst] at h
          cases h
          refine ⟨rfl, fun a' ha' => ?_⟩
          cases ha'
          exact ⟨first, _, .inl rfl, hfirst⟩
      | error err =>
          simp only [hfirst] at h
          cases hfallback : build { d with pendingRelease := [], pager := none } fallback
              (slotsPerLayer { d with pendingRelease := [] }) 0 with
          | none =>
              rw [hfallback] at h
              cases h
          | some r =>
              cases r with
              | ok a =>
                  rw [hfallback] at h
                  cases h
                  refine ⟨rfl, fun a' ha' => ?_⟩
                  cases ha'
                  exact ⟨fallback, _, .inr rfl, hfallback⟩
              | error err' =>
                  rw [hfallback] at h
                  cases h
                  exact ⟨rfl, fun a ha => nomatch ha⟩

end CacheOwner

namespace AnyDecoder

variable {d d' : AnyDecoder} {sync : Bool} {first fallback : BuildEnv} {slots : Nat}
  {result : Except ResizeError Unit}

/-- Both engines resize the same way. -/
theorem resizeCache_inv (h : d.resizeCache sync first fallback slots = some (result, d')) :
    CacheOwner.Resized sync first fallback slots d.owner result d'.owner := by
  cases d with
  | qwen d =>
      obtain ⟨⟨r, d'⟩, hresize, heq⟩ := Option.map_eq_some_iff.mp h
      cases heq
      exact CacheOwner.resizeCache_inv hresize
  | kimi d =>
      obtain ⟨⟨r, d'⟩, hresize, heq⟩ := Option.map_eq_some_iff.mp h
      cases heq
      exact CacheOwner.resizeCache_inv hresize

/-- What a resize owes its caller: a pager, of the size it reports. -/
structure KeepsPager (slots : Nat) (d : AnyDecoder) (result : Except ResizeError Unit)
    (d' : AnyDecoder) : Prop where
  pager : d'.owner.pager ≠ none
  ok : result = .ok () → 1 ≤ d'.slotsPerLayer ∧ d'.slotsPerLayer ≤ slots
  error : ∀ err, result = .error err → d'.slotsPerLayer = d.slotsPerLayer

/-- Both builds of a resize are refused. -/
def BothRefuse (sync : Bool) (first fallback : BuildEnv) (slots : Nat) (d : AnyDecoder) : Prop :=
  sync = true ∧ first.Refuses slots d.owner.reserveBytes ∧ fallback.Refuses d.slotsPerLayer 0

/-- A resize that returns leaves a pager, of a size that the caller can rely on,
unless the new arena and then the old one are refused. -/
theorem resize_keeps_pager_iff (hsize : 1 ≤ d.slotsPerLayer)
    (h : d.resizeCache sync first fallback slots = some (result, d')) :
    KeepsPager slots d result d' ↔ ¬BothRefuse sync first fallback slots d := by
  have hcases := resizeCache_inv h
  generalize hd : d.owner = o at hcases
  generalize hd' : d'.owner = o' at hcases
  have hprevious : o.slotsPerLayer = d.slotsPerLayer := congrArg CacheOwner.slotsPerLayer hd.symm
  have hsize' : d'.slotsPerLayer = o'.slotsPerLayer := congrArg CacheOwner.slotsPerLayer hd'
  cases hcases with
  | unsynced hsync =>
      refine iff_of_true ⟨?_, nofun, fun _ _ => hsize'.trans hprevious⟩ fun hboth => ?_
      · -- a decoder without a pager has no slots
        intro hnone
        rw [hd'] at hnone
        have hzero : o.slotsPerLayer = 0 := by
          rw [CacheOwner.slotsPerLayer, hnone]
          rfl
        omega
      · rw [hsync] at hboth
        exact absurd hboth.1 nofun
  | resized _ hbuild =>
      obtain ⟨hpos, hle, -⟩ := CacheOwner.build_ok hbuild
      refine iff_of_true ⟨?_, fun _ => ?_, nofun⟩ fun hboth =>
        CacheOwner.not_refuses_of_build_ok hbuild ?_
      · rw [hd']
        nofun
      · rw [hsize']
        exact ⟨hpos, hle⟩
      · rw [← hd]
        exact hboth.2.1
  | kept _ hok hslots _ =>
      refine iff_of_true ⟨?_, nofun, fun _ _ => ?_⟩ fun hboth => hok ?_
      · rw [hd']
        nofun
      · rw [hsize', ← hprevious]
        exact hslots
      · rw [hprevious]
        exact hboth.2.2
  | lost hsync hfirst hfallback =>
      refine iff_of_false (fun hkeeps => hkeeps.pager ?_) (not_not_intro ⟨hsync, ?_, ?_⟩)
      · rw [hd']
      · rw [hd]
        exact hfirst
      · rw [← hprevious]
        exact hfallback

end AnyDecoder

/-! ### A card that a co-tenant fills up -/

/-- A pack of one layer. -/
def oneLayer : PackShape := { numLayers := 1, expertsPerLayer := 8, maxBlobBytes := 4096 }

/-- Memory for everything. -/
def roomy : BuildEnv :=
  { pack := some oneLayer, memInfo := some (1 <<< 30, 1 <<< 30), alloc := fun _ _ => true,
    event := fun _ => true }

/-- The co-tenant has taken what was free. -/
def full : BuildEnv := { roomy with alloc := fun _ _ => false }

/-- A decoder whose pager was built with four slots. -/
def fourSlots : CacheOwner :=
  { pager := (CacheOwner.build ⟨none, [], 1, 0, 0, false, 4⟩ roomy 4 0).bind fun r => r.toOption
    pendingRelease := [], ioThreads := 1, ramBytes := 0, reserveBytes := 0, globalPool := false,
    decayTokens := 4 }

/-- A resize that fails and puts the old size back. -/
theorem resize_keeps_pager_full : ∃ d',
    (AnyDecoder.qwen fourSlots).resizeCache true full roomy 8 =
      some (.error (.kept .alloc 8 4), d') ∧
    AnyDecoder.KeepsPager 8 (.qwen fourSlots) (.error (.kept .alloc 8 4)) d' := by
  obtain ⟨d', hd'⟩ : ∃ d', (AnyDecoder.qwen fourSlots).resizeCache true full roomy 8 =
      some (.error (.kept .alloc 8 4), d') := ⟨_, rfl⟩
  refine ⟨d', hd', (AnyDecoder.resize_keeps_pager_iff (by decide) hd').mpr ?_⟩
  intro hboth
  have hrefused : roomy.Refuses 4 0 := hboth.2.2
  obtain ⟨layer, -, halloc⟩ | ⟨slot, -, hevent⟩ := hrefused
  · cases halloc
  · cases hevent

/-- **Both builds refused.** The old arena is gone, the new one and the old size
do not fit any more: the call returns an error, and there is no pager. -/
theorem resize_loses_pager : ∃ d',
    (AnyDecoder.qwen fourSlots).resizeCache true full full 8 =
      some (.error (.lost .alloc), d') ∧
    1 ≤ (AnyDecoder.qwen fourSlots).slotsPerLayer ∧ d'.owner.pager.isNone = true ∧
    ¬AnyDecoder.KeepsPager 8 (.qwen fourSlots) (.error (.lost .alloc)) d' :=
  ⟨_, rfl, by decide, rfl, fun hkeeps => hkeeps.pager rfl⟩

end LlmPager
