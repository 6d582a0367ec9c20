import LlmPager.Serve.RegistryLru

/-!
# LlmPager.Serve.Rebalance

When a rebalance has nothing left to do.

`rebalance` compares the size a model wants with the size it has, and a reserve may
have left it less than it wanted. So the next rebalance resizes again exactly the models
that were clamped, and the one that closes a cold `warm_up` rebuilds the pager it has
just loaded exactly when the load was clamped.
-/

namespace LlmPager.Serve.Registry

open LlmPager.Lib

variable {host : Host} {specs : List ModelSpec} {count n want : Nat} {name : String} {e : Engine}

/-! ### One resize -/

/-- How the resize of one engine ends. -/
inductive Engine.Resized (host : Host) (n want : Nat) (e : Engine) : Swept → Prop
  | panicked : Resized host n want e ⟨e, n + 1, some .panicked⟩
  | rebuilt {a : Arena} {dec : AnyDecoder} : (host.resize n).sync = true →
      e.dec.owner.build (host.resize n).first want e.dec.owner.reserveBytes = some (.ok a) →
      dec.owner = { e.dec.owner with pendingRelease := [], pager := some a } →
      Resized host n want e ⟨{ e with dec }, n + 1, none⟩
  | failed {err : ResizeError} {dec : AnyDecoder} :
      CacheOwner.Resized (host.resize n).sync (host.resize n).first (host.resize n).fallback want
        e.dec.owner (.error err) dec.owner →
      Resized host n want e ⟨{ e with dec }, n + 1, some (.resize err)⟩

theorem Engine.resizeCache_resized (host : Host) (n want : Nat) (e : Engine) :
    Resized host n want e (e.resizeCache host n want) := by
  unfold Engine.resizeCache
  cases h : e.dec.resizeCache (host.resize n).sync (host.resize n).first
      (host.resize n).fallback want with
  | none => exact .panicked
  | some res =>
      obtain ⟨result, dec⟩ := res
      have hcases := AnyDecoder.resizeCache_inv h
      cases result with
      | error err => exact .failed hcases
      | ok _ =>
          generalize howner : dec.owner = o at hcases
          cases hcases with
          | resized hsync hbuild => exact .rebuilt hsync hbuild howner

/-- A resize that succeeds gives what the pack and the reserve leave. -/
theorem Engine.Resized.fitted {one : Swept} (h : Resized host n want e one)
    (hok : one.error = none) :
    (host.resize n).first.fitted want e.dec.owner.reserveBytes =
      some one.engine.dec.slotsPerLayer := by
  cases h with
  | panicked => cases hok
  | failed => cases hok
  | rebuilt _ hbuild hdec =>
      rw [CacheOwner.build_fitted hbuild]
      show _ = some (CacheOwner.slotsPerLayer _)
      rw [hdec]
      rfl

theorem Engine.Resized.resizes {one : Swept} (h : Resized host n want e one) :
    one.resizes = n + 1 := by
  cases h <;> rfl

/-! ### The loop of `rebalance` -/

/-- Every model has the size it wants. -/
def Settled (specs : List ModelSpec) (count : Nat) (warm : List (String × Engine)) : Prop :=
  ∀ w ∈ warm, ∀ spec, specOf specs w.1 = some spec → w.2.curSlots = spec.target count

/-- The models that a rebalance resizes, from its `n`-th resize on, all fit: pack and
reserve leave them what they want. -/
def Unclamped (host : Host) (specs : List ModelSpec) (count : Nat) :
    Nat → List (String × Engine) → Prop
  | _, [] => True
  | n, (name, e) :: rest =>
      match specOf specs name with
      | none => True
      | some spec =>
          if e.curSlots = spec.target count then Unclamped host specs count n rest
          else
            (host.resize n).first.fitted (spec.target count) e.dec.owner.reserveBytes =
              some (spec.target count) ∧ Unclamped host specs count (n + 1) rest

theorem sweep_cons_ok {f : Nat → String → Engine → Swept} {rest : List (String × Engine)}
    (h : (f n name e).error = none) :
    sweep f n ((name, e) :: rest) =
      { sweep f (f n name e).resizes rest with
        warm := (name, (f n name e).engine) :: (sweep f (f n name e).resizes rest).warm } := by
  rw [sweep, h]

theorem sweep_cons_error {f : Nat → String → Engine → Swept} {rest : List (String × Engine)}
    {err : RegistryError} (h : (f n name e).error = some err) :
    sweep f n ((name, e) :: rest) =
      ⟨(name, (f n name e).engine) :: rest, (f n name e).resizes, some err⟩ := by
  rw [sweep, h]

/-- A loop that ends well has ended well on every model. -/
theorem sweep_ok_inv {f : Nat → String → Engine → Swept} {rest : List (String × Engine)}
    (h : (sweep f n ((name, e) :: rest)).error = none) :
    (f n name e).error = none ∧ (sweep f (f n name e).resizes rest).error = none := by
  cases hone : (f n name e).error with
  | some err =>
      rw [sweep_cons_error hone] at h
      cases h
  | none =>
      rw [sweep_cons_ok hone] at h
      exact ⟨rfl, h⟩

/-- What `rebalance` does with a model. -/
inductive Rebalanced (host : Host) (specs : List ModelSpec) (count n : Nat) (name : String)
    (e : Engine) : Swept → Prop
  | noSpec : specOf specs name = none → Rebalanced host specs count n name e ⟨e, n, some .panicked⟩
  | settled {spec : ModelSpec} : specOf specs name = some spec → e.curSlots = spec.target count →
      Rebalanced host specs count n name e ⟨e, n, none⟩
  | resized {spec : ModelSpec} {one : Swept} : specOf specs name = some spec →
      e.curSlots ≠ spec.target count → e.Resized host n (spec.target count) one →
      one.error = none →
      Rebalanced host specs count n name e { one with engine := one.engine.syncSlots }
  | failed {spec : ModelSpec} {one : Swept} {err : RegistryError} :
      specOf specs name = some spec → e.curSlots ≠ spec.target count →
      e.Resized host n (spec.target count) one → one.error = some err →
      Rebalanced host specs count n name e one

theorem rebalanceOne_rebalanced (host : Host) (specs : List ModelSpec) (count n : Nat)
    (name : String) (e : Engine) :
    Rebalanced host specs count n name e (rebalanceOne host specs count n name e) := by
  unfold rebalanceOne
  cases hspec : specOf specs name with
  | none => exact .noSpec hspec
  | some spec =>
      simp only
      by_cases hsize : e.curSlots = spec.target count
      · rw [if_pos hsize]
        exact .settled hspec hsize
      · rw [if_neg hsize]
        have hresized := Engine.resizeCache_resized host n (spec.target count) e
        generalize e.resizeCache host n (spec.target count) = one at hresized
        obtain ⟨engine, resizes, error⟩ := one
        cases error with
        | none => exact .resized hspec hsize hresized rfl
        | some err => exact .failed hspec hsize hresized rfl

/-- After a rebalance that ends well, every model has a spec, and every model has the size
it wants exactly when none was clamped. -/
theorem settled_sweep_iff {warm : List (String × Engine)}
    (h : (sweep (rebalanceOne host specs count) n warm).error = none) :
    (∀ w ∈ warm, (specOf specs w.1).isSome) ∧
      (Settled specs count (sweep (rebalanceOne host specs count) n warm).warm ↔
        Unclamped host specs count n warm) := by
  induction warm generalizing n with
  | nil => exact ⟨by simp, iff_of_true (by simp [Settled, sweep]) trivial⟩
  | cons w rest ih =>
      obtain ⟨name, e⟩ := w
      obtain ⟨hone, hrest⟩ := sweep_ok_inv h
      obtain ⟨hspecs, hiff⟩ := ih hrest
      rw [sweep_cons_ok hone]
      have hcases := rebalanceOne_rebalanced host specs count n name e
      generalize rebalanceOne host specs count n name e = one at hone hrest hspecs hiff hcases
      have hsettled : ∀ spec, specOf specs name = some spec →
          (Settled specs count ((name, one.engine) ::
              (sweep (rebalanceOne host specs count) one.resizes rest).warm) ↔
            one.engine.curSlots = spec.target count ∧
              Unclamped host specs count one.resizes rest) := by
        intro spec hspec
        rw [← hiff]
        unfold Settled
        rw [List.forall_mem_cons]
        refine and_congr_left fun _ => ⟨fun h => h spec hspec, fun h spec' hspec' => ?_⟩
        cases hspec.symm.trans hspec'
        exact h
      cases hcases with
      | noSpec => cases hone
      | @settled spec hspec hsize =>
          refine ⟨List.forall_mem_cons.mpr ⟨by simp [hspec], hspecs⟩, ?_⟩
          rw [hsettled spec hspec]
          simp [Unclamped, hspec, hsize]
      | @resized spec one hspec hsize hresized herror =>
          refine ⟨List.forall_mem_cons.mpr ⟨by simp [hspec], hspecs⟩, ?_⟩
          rw [hsettled spec hspec]
          have hfitted := hresized.fitted herror
          simp only [Unclamped, hspec, if_neg hsize, hfitted, hresized.resizes,
            Option.some.injEq]
          rfl
      | failed _ _ _ herror =>
          rw [hone] at herror
          cases herror

/-- A rebalance counts no resize exactly when every model has the size it wants. -/
theorem resizes_sweep {warm : List (String × Engine)}
    (hspecs : ∀ w ∈ warm, (specOf specs w.1).isSome) :
    n ≤ (sweep (rebalanceOne host specs count) n warm).resizes ∧
      ((sweep (rebalanceOne host specs count) n warm).resizes = n ↔ Settled specs count warm) := by
  induction warm generalizing n with
  | nil => exact ⟨Nat.le_refl _, iff_of_true rfl (by simp [Settled])⟩
  | cons w rest ih =>
      obtain ⟨name, e⟩ := w
      rw [List.forall_mem_cons] at hspecs
      obtain ⟨spec, hspec⟩ := Option.isSome_iff_exists.mp hspecs.1
      have hcons : Settled specs count ((name, e) :: rest) ↔
          e.curSlots = spec.target count ∧ Settled specs count rest := by
        unfold Settled
        rw [List.forall_mem_cons]
        refine and_congr_left fun _ => ⟨fun h => h spec hspec, fun h spec' hspec' => ?_⟩
        cases hspec.symm.trans hspec'
        exact h
      rw [hcons]
      have hcases := rebalanceOne_rebalanced host specs count n name e
      cases hone : (rebalanceOne host specs count n name e).error with
      | some err =>
          rw [sweep_cons_error hone]
          generalize rebalanceOne host specs count n name e = one at hone hcases
          cases hcases with
          | noSpec hnone =>
              rw [hspec] at hnone
              cases hnone
          | settled => cases hone
          | resized _ _ _ herror =>
              rw [show Swept.error _ = none from herror] at hone
              cases hone
          | @failed spec' one err' hspec' hsize hresized _ =>
              cases hspec.symm.trans hspec'
              have hresizes := hresized.resizes
              simp only
              exact ⟨by omega, iff_of_false (by omega) fun h => hsize h.1⟩
      | none =>
          rw [sweep_cons_ok hone]
          generalize rebalanceOne host specs count n name e = one at hone hcases
          obtain ⟨hle, hiff⟩ := @ih one.resizes hspecs.2
          cases hcases with
          | noSpec => cases hone
          | @settled spec' hspec' hsize =>
              cases hspec.symm.trans hspec'
              exact ⟨hle, by simpa [hsize] using hiff⟩
          | @resized spec' one hspec' hsize hresized _ =>
              cases hspec.symm.trans hspec'
              have hresizes := hresized.resizes
              simp only at hle ⊢
              exact ⟨by omega, iff_of_false (by omega) fun h => hsize h.1⟩
          | failed _ _ _ herror =>
              rw [hone] at herror
              cases herror

/-! ### The load -/

/-- A load gives what the pack and the reserve leave. -/
theorem load_fitted {spec : ModelSpec} {slots : Nat}
    (h : load host n spec slots = some (.ok e)) :
    (host.load n).build.fitted slots (mbToBytes spec.reserveMb) = some e.dec.slotsPerLayer := by
  unfold load at h
  simp only at h
  split at h
  · cases h
  cases hcore : (host.load n).core with
  | none =>
      rw [hcore] at h
      cases h
  | some kind =>
      simp only [hcore] at h
      cases hbuild : (bareDecoder host spec).build (host.load n).build slots
          (bareDecoder host spec).reserveBytes with
      | none =>
          rw [hbuild] at h
          cases h
      | some result =>
          cases result with
          | error err =>
              rw [hbuild] at h
              cases h
          | ok arena =>
              simp only [hbuild] at h
              split at h
              · cases h
              cases h
              have hfitted := CacheOwner.build_fitted hbuild
              cases kind <;> exact hfitted

theorem tryLoad_loaded (host : Host) (spec : ModelSpec) (slots : Nat) (r : Registry) :
    Triple (· = r) (tryLoad host spec slots)
      (fun result r' => load host r.loads spec slots = some result ∧
        r' = { r with loads := r.loads + 1 })
      (fun _ _ => True) := by
  refine .get fun r hr => ?_
  subst hr
  refine .bind (Q := fun _ r' => r' = { r with loads := r.loads + 1 }) (.modify fun _ h => h ▸ rfl)
    fun _ => ?_
  cases hload : load host r.loads spec slots with
  | none => exact .throw fun _ _ => trivial
  | some result => exact .pure fun _ hr => ⟨rfl, hr⟩

/-- The engine comes from the latest load, which asked for the size that the model wants
in the company it finds. -/
theorem loadOrRetry_loaded (host : Host) (name : String) (spec : ModelSpec) (r : Registry)
    (hspec : specOf r.specs name = some spec) :
    Triple (· = r) (loadOrRetry host name spec (spec.target (r.warm.length + 1)))
      (fun e r' => load host (r'.loads - 1) spec (spec.target (r'.warm.length + 1)) =
        some (.ok e))
      (fun _ _ => True) := by
  unfold loadOrRetry
  refine .bind ((tryLoad_loaded host spec _ r).weaken (fun _ h => h) (fun _ _ h => h)
    fun _ _ _ => trivial) fun result => ?_
  cases result with
  | ok e =>
      refine .pure ?_
      rintro _ ⟨hload, rfl⟩
      exact hload
  | error err =>
      refine .get fun r₁ hr₁ => .ite (fun _ => .throw fun _ _ => trivial) fun _ => ?_
      obtain ⟨-, rfl⟩ := hr₁
      let r₂ : Registry := { r with warm := [], loads := r.loads + 1 }
      refine .bind (Q := fun _ r' => r' = r₂) (.modify fun _ h => h ▸ rfl) fun _ =>
        .get fun r₃ hr₃ => ?_
      subst hr₃
      have hsame : r₂.spec name = some spec := hspec
      rw [hsame]
      refine .bind ((tryLoad_loaded host spec spec.slotsSolo r₂).weaken (fun _ h => h)
        (fun _ _ h => h) fun _ _ _ => trivial) fun result => ?_
      cases result with
      | ok e =>
          refine .pure ?_
          rintro _ ⟨hload, rfl⟩
          exact hload
      | error err => exact .throw fun _ _ => trivial

/-- What `warm_up` has put in front when a cold model is loaded. -/
theorem warmCold_loaded (host : Host) (name : String) (spec : ModelSpec) (r : Registry)
    (hspec : specOf r.specs name = some spec) :
    Triple (· = r) (warmCold host name spec)
      (fun _ r' => r'.specs = r.specs ∧ ∃ e rest, r'.warm = (name, e.syncSlots) :: rest ∧
        load host (r'.loads - 1) spec (spec.target r'.warm.length) = some (.ok e))
      (fun _ _ => True) := by
  suffices hfront : Triple (· = r) (warmCold host name spec)
      (fun _ r' => ∃ e rest, r'.warm = (name, e.syncSlots) :: rest ∧
        load host (r'.loads - 1) spec (spec.target r'.warm.length) = some (.ok e))
      (fun _ _ => True) from
    ((warmCold_names host name spec r).and hfront).weaken (fun _ h => ⟨h, h⟩)
      (fun _ _ h => ⟨h.1.1, h.2⟩) fun _ _ _ => trivial
  unfold warmCold
  refine .bind (Q := fun _ r' => r' = evict r) (.modify fun _ h => h ▸ rfl) fun _ =>
    .get fun r₁ hr₁ => ?_
  subst hr₁
  refine .bind (((rebalance_sameNames host _) (evict r)).weaken (fun _ h => h) (fun _ _ h => h)
    fun _ _ _ => trivial) fun _ => ?_
  intro r₂ hr₂
  have hlength : r₂.warm.length = (evict r).warm.length := by
    have h := congrArg List.length hr₂.names
    rwa [names, names, List.length_map, List.length_map] at h
  have hspec₂ : specOf r₂.specs name = some spec := by
    rw [hr₂.specs, evict_eq]
    exact hspec
  have hloaded := loadOrRetry_loaded host name spec r₂ hspec₂
  rw [hlength] at hloaded
  refine Triple.bind (P := (· = r₂)) (hloaded.weaken (fun _ h => h) (fun _ _ h => h)
    fun _ _ _ => trivial) (fun e => .modify ?_) r₂ rfl
  exact fun r₃ hload => ⟨e, r₃.warm, rfl, hload⟩

/-! ### The claim -/

/-- **Idempotence.** After a rebalance that succeeds, another one for the same count
resizes no engine exactly when none was clamped in the first; and the rebalance that
closes a cold `warm_up` leaves the engine it has just loaded alone exactly when the load
was not clamped. -/
theorem rebalance_idempotent_iff (host : Host) :
    (∀ {r r' : Registry} {count : Nat}, rebalance host count r = .ok () r' →
      ((∀ host', (after (rebalance host' count) r').resizes = r'.resizes) ↔
        Unclamped host r.specs count r.resizes r.warm)) ∧
    ∀ {name : String} {spec : ModelSpec} {r r' : Registry},
      r.spec name = some spec → name ∉ r.names → warmCold host name spec r = .ok () r' →
      ∃ e rest, r'.warm = (name, e) :: rest ∧
        ∀ host', (rebalanceOne host' r'.specs r'.warm.length r'.resizes name e).resizes =
            r'.resizes ↔
          (host.load (r'.loads - 1)).build.fitted (spec.target r'.warm.length)
            (mbToBytes spec.reserveMb) = some (spec.target r'.warm.length) := by
  constructor
  · intro r r' count h
    unfold rebalance at h
    simp only at h
    split at h
    case h_2 => cases h
    case h_1 hok =>
    cases h
    obtain ⟨hspecs, hiff⟩ := settled_sweep_iff hok
    rw [← hiff]
    have hspecs' : ∀ w ∈ (sweep (rebalanceOne host r.specs count) r.resizes r.warm).warm,
        (specOf r.specs w.1).isSome := by
      intro w hw
      have hname := List.mem_map_of_mem (f := (·.1)) hw
      rw [names_sweep] at hname
      obtain ⟨w', hw', heq⟩ := List.mem_map.mp hname
      rw [← heq]
      exact hspecs w' hw'
    have hresizes : ∀ (host' : Host) (r' : Registry), (after (rebalance host' count) r').resizes =
        (sweep (rebalanceOne host' r'.specs count) r'.resizes r'.warm).resizes := by
      intro host' r'
      unfold after rebalance
      simp only
      split <;> rename_i heq <;> split at heq <;> cases heq <;> rfl
    simp only [hresizes]
    constructor
    · intro hall
      exact (resizes_sweep hspecs').2.mp (hall host)
    · intro hsettled host'
      exact (resizes_sweep hspecs').2.mpr hsettled
  · intro name spec r r' hspec hcold hwarmCold
    obtain ⟨hspecs, e, rest, hwarm, hload⟩ := (warmCold_loaded host name spec r hspec).ok rfl hwarmCold
    refine ⟨e.syncSlots, rest, hwarm, fun host' => ?_⟩
    rw [load_fitted hload, Option.some.injEq]
    have hspec' : specOf r'.specs name = some spec := by rw [hspecs]; exact hspec
    have hcases := rebalanceOne_rebalanced host' r'.specs r'.warm.length r'.resizes name e.syncSlots
    generalize rebalanceOne host' r'.specs r'.warm.length r'.resizes name e.syncSlots = one at hcases
    cases hcases with
    | noSpec hnone =>
        rw [hspec'] at hnone
        cases hnone
    | settled hspec'' hsize =>
        cases hspec'.symm.trans hspec''
        exact iff_of_true rfl hsize
    | resized hspec'' hsize hresized =>
        cases hspec'.symm.trans hspec''
        have := hresized.resizes
        exact iff_of_false (by simp only; omega) hsize
    | failed hspec'' hsize hresized =>
        cases hspec'.symm.trans hspec''
        have := hresized.resizes
        exact iff_of_false (by omega) hsize

/-- The registry after the model was asked for once. -/
def served (env : BuildEnv) : Registry :=
  after (Registry.warmUp (steady env) "m") (new [reserving] 1)

/-- ... and after a rebalance for two warm models, which takes two of its slots. -/
def shrunk : Registry := after (rebalance (steady roomy) 2) (served roomy)

def regrown : Registry := after (rebalance (steady roomy) 1) shrunk

/-- With the card to itself the model gets its two slots back, and is then left alone. -/
theorem rebalance_idempotent_roomy :
    rebalance (steady roomy) 2 (served roomy) = .ok () shrunk ∧
      rebalance (steady roomy) 1 shrunk = .ok () regrown ∧
      shrunk.resizes = (served roomy).resizes + 1 ∧ regrown.resizes = shrunk.resizes + 1 ∧
      (after (rebalance (steady roomy) 1) regrown).resizes = regrown.resizes := by
  have hgrown : rebalance (steady roomy) 1 shrunk = .ok () regrown := rfl
  have hunclamped : Unclamped (steady roomy) shrunk.specs 1 shrunk.resizes shrunk.warm :=
    ⟨rfl, trivial⟩
  exact ⟨rfl, hgrown, rfl, rfl,
    ((rebalance_idempotent_iff (steady roomy)).1 hgrown).mpr hunclamped (steady roomy)⟩

/-- Two slots are free beside the reserve. -/
def tight : BuildEnv := { roomy with memInfo := some (1000000 + 8192, 1 <<< 30) }

/-- **The clamp is taken for a change.** A solo model that wants four slots and is left two
is rebuilt by the rebalance that closes its own load, and by every rebalance after. -/
theorem clamped_rebuilt :
    ∃ r₁ r r', warmCold (steady tight) "m" reserving (new [reserving] 1) = .ok () r₁ ∧
      r₁.resizes = 0 ∧
      Registry.warmUp (steady tight) "m" (new [reserving] 1) = .ok 0 r ∧ r.resizes = 1 ∧
      rebalance (steady tight) 1 r = .ok () r' ∧
      (after (rebalance (steady tight) 1) r').resizes ≠ r'.resizes :=
  ⟨_, _, _, rfl, rfl, rfl, rfl, rfl, by decide⟩

end LlmPager.Serve.Registry
