import LlmPager.Serve.Rebalance

/-!
# LlmPager.Serve.AdminSlots

What `POST /v1/admin/slots` does to the warm models.

The handler looks each model up by the name it had when the request came in. The names
are distinct, so this is a loop over the models in their order (`slotsNamed_sweep`), and
what it leaves is read off by induction on that list. A model that is refused is put back
as it was; the models before it keep what the request gave them.
-/

namespace LlmPager.Serve.Registry

open LlmPager.Lib

variable {host : Host} {req : SlotsRequest} {specs : List ModelSpec} {n want : Nat}
  {name : String} {e : Engine}

/-! ### The handler as a loop over the models -/

/-- A turn of the handler's loop, on the model it finds. -/
def slotsSweepOne (host : Host) (req : SlotsRequest) (specs : List ModelSpec) (n : Nat)
    (name : String) (e : Engine) : Swept :=
  match req.want specs name with
  | none => ⟨e, n, some (.unknownModel name)⟩
  | some want => slotsOne host req want n e

/-- The answer of the handler. -/
def sizes (warm : List (String × Engine)) : List (String × Nat) :=
  warm.map fun w => (w.1, w.2.curSlots)

/-- The first model of a name, if none before it has that name. -/
theorem position_append {done rest : List (String × Engine)}
    (h : name ∉ done.map (·.1)) : position (done ++ (name, e) :: rest) name = some done.length := by
  unfold position
  rw [List.findIdx?_append, List.findIdx?_cons]
  have hnone : done.findIdx? (fun w => decide (w.1 = name)) = none := position_eq_none.mpr h
  rw [hnone]
  simp

theorem slotsFor_append {r : Registry} {done rest : List (String × Engine)}
    (hwarm : r.warm = done ++ (name, e) :: rest) (h : name ∉ done.map (·.1)) :
    slotsFor host req name r =
      let one := slotsSweepOne host req r.specs r.resizes name e
      let r' := { r with warm := done ++ (name, one.engine) :: rest, resizes := one.resizes }
      match one.error with
      | some err => .error err r'
      | none => .ok [(name, one.engine.curSlots)] r' := by
  unfold slotsFor slotsSweepOne
  cases req.want r.specs name with
  | none =>
      show EStateM.Result.error _ _ = EStateM.Result.error _ _
      rw [← hwarm]
  | some want =>
      have hat : (done ++ (name, e) :: rest)[done.length]? = some (name, e) := by simp
      simp only [hwarm, position_append h, hat]
      have hset : ∀ e', (done ++ (name, e) :: rest).set done.length (name, e') =
          done ++ (name, e') :: rest := by
        intro e'
        simp
      cases (slotsOne host req want r.resizes e).error with
      | some err => simp [hset]
      | none => simp [hset]

/-- The handler's loop by names is a loop over the models. -/
theorem slotsNamed_sweep {r : Registry} {done rest : List (String × Engine)}
    (hwarm : r.warm = done ++ rest) (hnodup : (r.warm.map (·.1)).Nodup) :
    slotsNamed host req (rest.map (·.1)) r =
      let s := sweep (slotsSweepOne host req r.specs) r.resizes rest
      let r' := { r with warm := done ++ s.warm, resizes := s.resizes }
      match s.error with
      | some err => .error err r'
      | none => .ok (sizes s.warm) r' := by
  induction rest generalizing r done with
  | nil =>
      show EStateM.Result.ok _ _ = EStateM.Result.ok _ _
      rw [show (sweep (slotsSweepOne host req r.specs) r.resizes []).warm = [] from rfl, ← hwarm]
      rfl
  | cons w rest ih =>
      obtain ⟨name, e⟩ := w
      have hfresh : name ∉ done.map (·.1) := by
        rw [hwarm, List.map_append, List.nodup_append] at hnodup
        intro hmem
        exact hnodup.2.2 name hmem name List.mem_cons_self rfl
      show EStateM.bind (slotsFor host req name) _ r = _
      unfold EStateM.bind
      rw [slotsFor_append hwarm hfresh]
      simp only
      cases hone : (slotsSweepOne host req r.specs r.resizes name e).error with
      | some err => rw [sweep_cons_error hone]
      | none =>
          rw [sweep_cons_ok hone]
          simp only
          -- the models that have been passed grow by this one
          let r₁ : Registry :=
            { r with
              warm := done ++ (name, (slotsSweepOne host req r.specs r.resizes name e).engine) :: rest
              resizes := (slotsSweepOne host req r.specs r.resizes name e).resizes }
          have hnodup₁ : (r₁.warm.map (·.1)).Nodup := by
            rw [hwarm] at hnodup
            simpa [r₁] using hnodup
          have hrest := @ih r₁
            (done ++ [(name, (slotsSweepOne host req r.specs r.resizes name e).engine)])
            (by simp [r₁]) hnodup₁
          show EStateM.bind (slotsNamed host req (rest.map (·.1))) _ r₁ = _
          unfold EStateM.bind
          rw [hrest]
          simp only [r₁]
          cases (sweep (slotsSweepOne host req r.specs)
            (slotsSweepOne host req r.specs r.resizes name e).resizes rest).error with
          | some err => simp
          | none =>
              simp only [List.append_assoc, List.singleton_append]
              rfl

/-- What the handler does with the models of a registry whose names are distinct. -/
theorem adminSlots_sweep {r : Registry} (hnodup : r.names.Nodup)
    (hreq : ¬(req.target = none ∧ req.reserveMb = none)) :
    adminSlots host req r =
      let s := sweep (slotsSweepOne host req r.specs) r.resizes r.warm
      let r' := { r with warm := s.warm, resizes := s.resizes }
      match s.error with
      | some err => .error err r'
      | none => .ok (sizes s.warm) r' := by
  unfold adminSlots
  rw [if_neg hreq]
  exact @slotsNamed_sweep host req r [] r.warm rfl hnodup

/-! ### What becomes of one model -/

/-- How a turn of the loop ends. -/
inductive SlotsSwept (host : Host) (req : SlotsRequest) (specs : List ModelSpec) (n : Nat)
    (name : String) (e : Engine) : Swept → Prop
  | unknown : req.want specs name = none →
      SlotsSwept host req specs n name e ⟨e, n, some (.unknownModel name)⟩
  | resized {want : Nat} {one : Swept} : req.want specs name = some want →
      (req.reserve e).Resized host n want one → one.error = none →
      SlotsSwept host req specs n name e { one with engine := one.engine.syncSlots }
  | failed {want : Nat} {one : Swept} {err : RegistryError} : req.want specs name = some want →
      (req.reserve e).Resized host n want one → one.error = some err →
      SlotsSwept host req specs n name e
        { one with engine := (one.engine.setReserve e.reserveBytes).syncSlots }

theorem slotsSweepOne_swept (host : Host) (req : SlotsRequest) (specs : List ModelSpec) (n : Nat)
    (name : String) (e : Engine) :
    SlotsSwept host req specs n name e (slotsSweepOne host req specs n name e) := by
  unfold slotsSweepOne
  cases hwant : req.want specs name with
  | none => exact .unknown hwant
  | some want =>
      show SlotsSwept host req specs n name e (slotsOne host req want n e)
      unfold slotsOne
      have hresized := Engine.resizeCache_resized host n want (req.reserve e)
      generalize (req.reserve e).resizeCache host n want = one at hresized
      obtain ⟨engine, resizes, error⟩ := one
      cases error with
      | none => exact .resized hwant hresized rfl
      | some err => exact .failed hwant hresized rfl

/-- The engine's own copies of what its decoder has. -/
structure Engine.Synced (e : Engine) : Prop where
  /-- A decoder without a pager is one that an earlier resize has lost. -/
  curSlots : e.dec.owner.pager ≠ none → e.curSlots = e.dec.slotsPerLayer
  reserve : e.dec.owner.reserveBytes = e.reserveBytes

@[simp] theorem owner_setReserveBytes (d : AnyDecoder) (bytes : Nat) :
    (d.setReserveBytes bytes).owner = d.owner.setReserveBytes bytes := by
  cases d <;> rfl

@[simp] theorem slotsPerLayer_setReserveBytes (d : AnyDecoder) (bytes : Nat) :
    (d.setReserveBytes bytes).slotsPerLayer = d.slotsPerLayer := by
  cases d <;> rfl

theorem Engine.Synced.reserved (h : e.Synced) (req : SlotsRequest) : (req.reserve e).Synced := by
  unfold SlotsRequest.reserve
  cases req.reserveMb with
  | none => exact h
  | some mb =>
      refine ⟨fun hpager => ?_, ?_⟩
      · show e.curSlots = (e.dec.setReserveBytes (mbToBytes mb)).slotsPerLayer
        rw [slotsPerLayer_setReserveBytes]
        refine h.curSlots ?_
        simpa [Engine.setReserve, CacheOwner.setReserveBytes] using hpager
      · simp [Engine.setReserve, CacheOwner.setReserveBytes]

theorem Engine.synced_syncSlots (h : e.dec.owner.reserveBytes = e.reserveBytes) :
    e.syncSlots.Synced :=
  ⟨fun _ => rfl, h⟩

/-- A resize leaves the reserve alone, and the engine's own record of its size. -/
theorem Engine.Resized.reserve {one : Swept} (h : Resized host n want e one) :
    one.engine.reserveBytes = e.reserveBytes ∧ one.engine.curSlots = e.curSlots ∧
      one.engine.dec.owner.reserveBytes = e.dec.owner.reserveBytes := by
  cases h with
  | panicked => exact ⟨rfl, rfl, rfl⟩
  | rebuilt _ _ hdec => exact ⟨rfl, rfl, by rw [hdec]⟩
  | @failed err dec hresized =>
      refine ⟨rfl, rfl, ?_⟩
      show dec.owner.reserveBytes = _
      generalize dec.owner = o at hresized
      cases hresized <;> rfl

/-- A resize that fails leaves the old size, or no pager. -/
theorem Engine.Resized.synced {one : Swept} {err : RegistryError} (h : Resized host n want e one)
    (herror : one.error = some err) (hsynced : e.Synced) : one.engine.Synced := by
  cases h with
  | panicked => exact hsynced
  | rebuilt => cases herror
  | @failed err dec hresized =>
      have hcur := hsynced.curSlots
      have hreserve := hsynced.reserve
      have hslots : e.dec.slotsPerLayer = e.dec.owner.slotsPerLayer := rfl
      have hslots' : dec.slotsPerLayer = dec.owner.slotsPerLayer := rfl
      generalize e.dec.owner = o at hresized hcur hreserve hslots
      generalize hdec : dec.owner = o' at hresized hslots'
      refine ⟨fun hpager => ?_, ?_⟩
      · show e.curSlots = dec.slotsPerLayer
        replace hpager : o'.pager ≠ none := hdec ▸ hpager
        rw [hslots']
        cases hresized with
        | unsynced => rw [hcur hpager, hslots]
        | @kept a err _ _ hkept hpos =>
            -- what was put back has slots, so there was a pager before
            have hbefore : o.pager ≠ none := by
              intro hnone
              rw [hkept, CacheOwner.slotsPerLayer, hnone] at hpos
              exact absurd hpos (Nat.lt_irrefl 0)
            rw [hcur hbefore, hslots, ← hkept]
            rfl
        | lost => exact absurd rfl hpager
      · show dec.owner.reserveBytes = e.reserveBytes
        rw [hdec, ← hreserve]
        cases hresized <;> rfl

theorem SlotsSwept.synced {one : Swept} (h : SlotsSwept host req specs n name e one)
    (hsynced : e.Synced) : one.engine.Synced := by
  cases h with
  | unknown => exact hsynced
  | resized _ hresized _ =>
      obtain ⟨hreserve, -, hdec⟩ := hresized.reserve
      refine Engine.synced_syncSlots ?_
      rw [hdec, hreserve]
      exact (hsynced.reserved req).reserve
  | failed => exact Engine.synced_syncSlots (by simp [Engine.setReserve, CacheOwner.setReserveBytes])

theorem Rebalanced.synced {count : Nat} {one : Swept}
    (h : Rebalanced host specs count n name e one) (hsynced : e.Synced) : one.engine.Synced := by
  cases h with
  | noSpec => exact hsynced
  | settled => exact hsynced
  | resized _ _ hresized _ =>
      obtain ⟨hreserve, -, hdec⟩ := hresized.reserve
      refine Engine.synced_syncSlots ?_
      rw [hdec, hreserve]
      exact hsynced.reserve
  | failed _ _ hresized herror => exact hresized.synced herror hsynced

/-! ### Every registry is in step with its decoders -/

/-- The warm engines are. -/
def Synced (r : Registry) : Prop := ∀ w ∈ r.warm, w.2.Synced

theorem forall_sweep {f : Nat → String → Engine → Swept} {P : Engine → Prop}
    {warm : List (String × Engine)} (h : ∀ w ∈ warm, P w.2)
    (hf : ∀ n name e, P e → P (f n name e).engine) : ∀ w ∈ (sweep f n warm).warm, P w.2 := by
  induction warm generalizing n with
  | nil => exact h
  | cons w rest ih =>
      obtain ⟨name, e⟩ := w
      rw [List.forall_mem_cons] at h
      cases hone : (f n name e).error with
      | some err =>
          rw [sweep_cons_error hone]
          exact List.forall_mem_cons.mpr ⟨hf n name e h.1, h.2⟩
      | none =>
          rw [sweep_cons_ok hone]
          exact List.forall_mem_cons.mpr ⟨hf n name e h.1, ih h.2⟩

theorem rebalance_synced (host : Host) (count : Nat) :
    Triple Synced (rebalance host count) (fun _ => Synced) (fun _ => Synced) := by
  intro r hr
  have hswept : ∀ w ∈ (sweep (rebalanceOne host r.specs count) r.resizes r.warm).warm,
      w.2.Synced :=
    forall_sweep hr fun n name e => (rebalanceOne_rebalanced host r.specs count n name e).synced
  unfold rebalance
  simp only
  cases (sweep (rebalanceOne host r.specs count) r.resizes r.warm).error with
  | none => exact hswept
  | some err => exact hswept

theorem slotsFor_synced (host : Host) (req : SlotsRequest) (name : String) :
    Triple Synced (slotsFor host req name) (fun _ => Synced) (fun _ => Synced) := by
  intro r hr
  unfold slotsFor
  cases hwant : req.want r.specs name with
  | none => exact hr
  | some want =>
      simp only
      cases position r.warm name with
      | none => exact hr
      | some i =>
          simp only
          cases hi : r.warm[i]? with
          | none => exact hr
          | some w =>
              obtain ⟨n, e⟩ := w
              simp only
              have hone : (slotsOne host req want r.resizes e).engine.Synced := by
                have hswept := slotsSweepOne_swept host req r.specs r.resizes name e
                unfold slotsSweepOne at hswept
                rw [hwant] at hswept
                exact hswept.synced (hr (n, e) (List.mem_of_getElem? hi))
              have hset : ∀ w ∈ r.warm.set i (n, (slotsOne host req want r.resizes e).engine),
                  w.2.Synced := by
                intro w hw
                rcases List.mem_or_eq_of_mem_set hw with hw | rfl
                · exact hr w hw
                · exact hone
              cases (slotsOne host req want r.resizes e).error with
              | none => exact hset
              | some err => exact hset

theorem slotsNamed_synced (host : Host) (req : SlotsRequest) (names : List String) :
    Triple Synced (slotsNamed host req names) (fun _ => Synced) (fun _ => Synced) := by
  induction names with
  | nil => exact .pure fun _ h => h
  | cons name rest ih =>
      exact .bind (slotsFor_synced host req name) fun _ => .bind ih fun _ => .pure fun _ h => h

theorem adminSlots_synced (host : Host) (req : SlotsRequest) :
    Triple Synced (adminSlots host req) (fun _ => Synced) (fun _ => Synced) := by
  refine .ite (fun _ => .throw fun _ h => h) fun _ => .get fun r hr => ?_
  exact (slotsNamed_synced host req r.names).pre fun s hs => hs ▸ hr

/-- A load sets both copies of the reserve. -/
theorem load_reserve {spec : ModelSpec} {slots : Nat} (h : load host n spec slots = some (.ok e)) :
    e.dec.owner.reserveBytes = e.reserveBytes := by
  unfold load at h
  simp only at h
  split at h
  · cases h
  cases hcore : (host.load n).core with
  | none =>
      rw [hcore] at h
      cases h
  | some kind =>
      simp only [hcore] at h
      split at h
      · cases h
      · cases h
      · split at h
        · cases h
        cases h
        cases kind <;> rfl

theorem tryLoad_synced (host : Host) (spec : ModelSpec) (slots : Nat) :
    Triple Synced (tryLoad host spec slots)
      (fun result r => Synced r ∧ ∀ e, result = .ok e → e.dec.owner.reserveBytes = e.reserveBytes)
      (fun _ => Synced) := by
  refine .get fun r hr => .bind (Q := fun _ => Synced) (.modify ?_) fun _ => ?_
  · rintro _ rfl
    exact hr
  · cases hload : load host r.loads spec slots with
    | none => exact .throw fun _ h => h
    | some result =>
        refine .pure fun _ h => ⟨h, fun e he => ?_⟩
        subst he
        exact load_reserve hload

theorem loadOrRetry_synced (host : Host) (name : String) (spec : ModelSpec) (slots : Nat) :
    Triple Synced (loadOrRetry host name spec slots)
      (fun e r => Synced r ∧ e.dec.owner.reserveBytes = e.reserveBytes) (fun _ => Synced) := by
  unfold loadOrRetry
  refine .bind (tryLoad_synced host spec slots) fun result => ?_
  cases result with
  | ok e => exact .pure fun _ h => ⟨h.1, h.2 e rfl⟩
  | error err =>
      refine .get fun r hr => .ite (fun _ => .throw fun _ h => h ▸ hr.1) fun _ => ?_
      refine .bind (Q := fun _ => Synced) (.modify fun _ _ => by simp [Synced]) fun _ =>
        .get fun r hr => ?_
      cases r.spec name with
      | none => exact .throw fun _ h => h ▸ hr
      | some again =>
          refine .bind ((tryLoad_synced host spec again.slotsSolo).pre fun _ h => h ▸ hr)
            fun result => ?_
          cases result with
          | ok e => exact .pure fun _ h => ⟨h.1, h.2 e rfl⟩
          | error err => exact .throw fun _ h => h.1

theorem warmCold_synced (host : Host) (name : String) (spec : ModelSpec) :
    Triple Synced (warmCold host name spec) (fun _ => Synced) (fun _ => Synced) := by
  unfold warmCold
  refine .bind (Q := fun _ => Synced) (.modify fun r hr => ?_) fun _ => .get fun r hr => ?_
  · rw [evict_eq]
    intro w hw
    exact hr w (List.mem_of_mem_take hw)
  refine .bind ((rebalance_synced host _).pre fun _ h => h ▸ hr) fun _ =>
    .bind (loadOrRetry_synced host name spec _) fun e => .modify fun r hr => ?_
  exact List.forall_mem_cons.mpr ⟨Engine.synced_syncSlots hr.2, hr.1⟩

theorem warmUp_synced (host : Host) (name : String) :
    Triple Synced (Registry.warmUp host name) (fun _ => Synced) (fun _ => Synced) := by
  unfold Registry.warmUp
  refine .get fun r hr => ?_
  cases hpos : position r.warm name with
  | some i =>
      refine .bind (Q := fun _ => Synced) (.modify ?_) fun _ => .pure fun _ h => h
      intro s hs w hw
      subst hs
      rcases List.mem_append.mp hw with hw | hw
      · exact hr w (List.mem_of_getElem? (Option.mem_toList.mp hw))
      · exact hr w (List.mem_of_mem_eraseIdx hw)
  | none =>
      refine .get fun s hs => ?_
      cases s.spec name with
      | none => exact .throw fun _ h => h ▸ hs ▸ hr
      | some spec =>
          refine .bind ((warmCold_synced host name spec).pre fun _ h => h ▸ hs ▸ hr) fun _ =>
            .get fun t ht => ?_
          exact .bind ((rebalance_synced host _).pre fun _ h => h ▸ ht) fun _ => .pure fun _ h => h

theorem reachable_synced {p : Registry × List String} (h : system.Reachable System.anyStep p) :
    Synced p.1 := by
  refine @System.Reachable.invariant _ _ _ _ (fun p => Synced p.1) ?_ ?_ p h
  · rintro ⟨r, history⟩ ⟨⟨specs, maxWarm, rfl⟩, -⟩
    simp [Synced, new]
  · rintro ⟨r, history⟩ op p' hr _ rfl
    cases op with
    | warmUp host name => exact of_after ((warmUp_synced host name).pre fun _ h => h ▸ hr)
    | adminSlots host req => exact of_after ((adminSlots_synced host req).pre fun _ h => h ▸ hr)

/-! ### A refused request -/

/-- Size and reserve of an engine are as before. -/
structure SameSize (e e' : Engine) : Prop where
  slots : e'.dec.slotsPerLayer = e.dec.slotsPerLayer
  reserve : e'.reserveBytes = e.reserveBytes
  decReserve : e'.dec.owner.reserveBytes = e.dec.owner.reserveBytes
  curSlots : e.dec.owner.pager ≠ none → e'.curSlots = e.curSlots

theorem SameSize.refl (e : Engine) : SameSize e e := ⟨rfl, rfl, rfl, fun _ => rfl⟩

/-- Those of every warm model. -/
def SameSizes : List (String × Engine) → List (String × Engine) → Prop :=
  List.Forall₂ fun w w' => w'.1 = w.1 ∧ SameSize w.2 w'.2

theorem SameSizes.refl (warm : List (String × Engine)) : SameSizes warm warm :=
  List.forall₂_same.mpr fun w _ => ⟨rfl, SameSize.refl w.2⟩

/-- The device cannot be synchronised, or the new arena is refused. -/
def Refused (env : ResizeEnv) (want reserveBytes : Nat) : Prop :=
  env.sync = false ∨ env.first.Refuses want reserveBytes

/-- The request asks for the reserve that the engine has, and that leaves it the slots it
has. -/
def Unmoved (env : ResizeEnv) (req : SlotsRequest) (want : Nat) (e : Engine) : Prop :=
  (req.reserve e).reserveBytes = e.reserveBytes ∧
    env.first.fitted want e.reserveBytes = some e.dec.slotsPerLayer

/-- Before a model whose resize is refused, the request moves no model. -/
def RefusedFirst (host : Host) (req : SlotsRequest) (specs : List ModelSpec) :
    Nat → List (String × Engine) → Prop
  | _, [] => True
  | n, (name, e) :: rest =>
      match req.want specs name with
      | none => True
      | some want =>
          Refused (host.resize n) want (req.reserve e).reserveBytes ∨
            (Unmoved (host.resize n) req want e ∧ RefusedFirst host req specs (n + 1) rest)

/-- A resize that succeeds was not refused. -/
theorem Engine.Resized.not_refuses {one : Swept} (h : Resized host n want e one)
    (hok : one.error = none) (hsynced : e.Synced) :
    ¬Refused (host.resize n) want e.reserveBytes := by
  cases h with
  | panicked => cases hok
  | failed => cases hok
  | rebuilt hsync hbuild _ =>
      intro hrefused
      rcases hrefused with hfalse | hrefused
      · rw [hsync] at hfalse
        cases hfalse
      · rw [← hsynced.reserve] at hrefused
        exact CacheOwner.not_refuses_of_build_ok hbuild hrefused

/-- What a turn that succeeds makes of a model: the reserve asked for, and what it leaves
of the slots. -/
theorem SlotsSwept.sameSize_iff {one : Swept} (h : SlotsSwept host req specs n name e one)
    (hok : one.error = none) (hsynced : e.Synced) (hwant : req.want specs name = some want) :
    ¬Refused (host.resize n) want (req.reserve e).reserveBytes ∧ one.resizes = n + 1 ∧
      (SameSize e one.engine ↔ Unmoved (host.resize n) req want e) := by
  cases h with
  | unknown => cases hok
  | failed _ _ herror =>
      rw [show Swept.error _ = none from hok] at herror
      cases herror
  | @resized want' one hwant' hresized _ =>
      cases hwant.symm.trans hwant'
      have hsynced' := hsynced.reserved req
      have hfitted := hresized.fitted hok
      obtain ⟨hreserve, -, hdec⟩ := hresized.reserve
      rw [hsynced'.reserve] at hfitted hdec
      refine ⟨hresized.not_refuses hok hsynced', hresized.resizes, ?_, ?_⟩
      · intro hsame
        have hkept : (req.reserve e).reserveBytes = e.reserveBytes := hreserve.symm.trans hsame.reserve
        refine ⟨hkept, ?_⟩
        rw [← hkept, hfitted]
        exact congrArg some hsame.slots
      · intro hunmoved
        have hslots : one.engine.dec.slotsPerLayer = e.dec.slotsPerLayer := by
          rw [hunmoved.1, hunmoved.2] at hfitted
          exact (Option.some.inj hfitted).symm
        refine ⟨hslots, hreserve.trans hunmoved.1, ?_, fun hpager => ?_⟩
        · show one.engine.dec.owner.reserveBytes = _
          rw [hdec, hunmoved.1, hsynced.reserve]
        · exact hslots.trans (hsynced.curSlots hpager).symm

/-- A turn that is refused puts the model back as it was. -/
theorem SlotsSwept.sameSize {one : Swept} {err : ResizeError}
    (h : SlotsSwept host req specs n name e one) (herror : one.error = some (.resize err))
    (hkept : ∀ cause, err ≠ .lost cause) (hsynced : e.Synced)
    (hwant : req.want specs name = some want) :
    Refused (host.resize n) want (req.reserve e).reserveBytes ∧ SameSize e one.engine := by
  cases h with
  | unknown => cases herror
  | resized _ _ hok =>
      rw [show Swept.error _ = _ from herror] at hok
      cases hok
  | @failed want' one err' hwant' hresized _ =>
      cases hwant.symm.trans hwant'
      have hsynced' := hsynced.reserved req
      have hdecSlots : (req.reserve e).dec.owner.slotsPerLayer = e.dec.slotsPerLayer := by
        unfold SlotsRequest.reserve
        cases req.reserveMb with
        | none => rfl
        | some mb => exact slotsPerLayer_setReserveBytes e.dec _
      -- whatever the size of the pager, it is the one before
      suffices hcase : Refused (host.resize n) want (req.reserve e).reserveBytes ∧
          one.engine.dec.slotsPerLayer = e.dec.slotsPerLayer by
        refine ⟨hcase.1, ?_, rfl, ?_, fun hpager => ?_⟩
        · simp [Engine.syncSlots, Engine.setReserve, hcase.2]
        · simp [Engine.syncSlots, Engine.setReserve, CacheOwner.setReserveBytes, hsynced.reserve]
        · rw [hsynced.curSlots hpager]
          simp [Engine.syncSlots, Engine.setReserve, hcase.2]
      cases hresized with
      | panicked => cases herror
      | rebuilt => cases herror
      | @failed err dec hresized =>
          cases herror
          rw [← hdecSlots, ← hsynced'.reserve]
          show _ ∧ dec.owner.slotsPerLayer = _
          generalize (req.reserve e).dec.owner = o at hresized ⊢
          generalize dec.owner = o' at hresized ⊢
          cases hresized with
          | unsynced hsync => exact ⟨.inl hsync, rfl⟩
          | kept hfirst _ hslots _ => exact ⟨.inr hfirst, hslots⟩
          | @lost cause => exact absurd rfl (hkept cause)

theorem refused_sweep_iff {warm : List (String × Engine)} {err : ResizeError}
    (h : (sweep (slotsSweepOne host req specs) n warm).error = some (.resize err))
    (hkept : ∀ cause, err ≠ .lost cause) (hsynced : ∀ w ∈ warm, w.2.Synced) :
    SameSizes warm (sweep (slotsSweepOne host req specs) n warm).warm ↔
      RefusedFirst host req specs n warm := by
  induction warm generalizing n with
  | nil => cases h
  | cons w rest ih =>
      obtain ⟨name, e⟩ := w
      rw [List.forall_mem_cons] at hsynced
      have hswept := slotsSweepOne_swept host req specs n name e
      cases hwant : req.want specs name with
      | none =>
          have hone : slotsSweepOne host req specs n name e =
              ⟨e, n, some (.unknownModel name)⟩ := by
            rw [slotsSweepOne, hwant]
          rw [sweep_cons_error (by rw [hone])] at h
          cases h
      | some want =>
          simp only [RefusedFirst, hwant]
          cases hone : (slotsSweepOne host req specs n name e).error with
          | some err' =>
              rw [sweep_cons_error hone] at h ⊢
              cases h
              obtain ⟨hrefused, hsame⟩ := hswept.sameSize hone hkept hsynced.1 hwant
              exact iff_of_true (.cons ⟨rfl, hsame⟩ (SameSizes.refl rest)) (.inl hrefused)
          | none =>
              rw [sweep_cons_ok hone] at h ⊢
              obtain ⟨hnot, hresizes, hiff⟩ := hswept.sameSize_iff hone hsynced.1 hwant
              rw [hresizes] at h ⊢
              rw [or_iff_right hnot, ← hiff, ← ih h hsynced.2]
              simp [SameSizes]

/-- **A refused request.** If a request to `/v1/admin/slots` fails at some model, whose
old size could be put back, all warm models have the size and the reserve they had exactly
when the request moved none of the models before it. -/
theorem refused_resize_iff {p : Registry × List String} {host : Host} {req : SlotsRequest}
    {r' : Registry} {err : ResizeError} (hp : system.Reachable System.anyStep p)
    (h : adminSlots host req p.1 = .error (.resize err) r') (hkept : ∀ cause, err ≠ .lost cause) :
    SameSizes p.1.warm r'.warm ↔ RefusedFirst host req p.1.specs p.1.resizes p.1.warm := by
  by_cases hreq : req.target = none ∧ req.reserveMb = none
  · rw [adminSlots, if_pos hreq] at h
    cases h
  rw [adminSlots_sweep (reachable_lruInv hp).recent.nodup hreq] at h
  simp only at h
  split at h
  case h_2 => cases h
  case h_1 err' herror =>
  cases h
  exact refused_sweep_iff herror hkept (reachable_synced hp)

/-- A card with a co-tenant: two slots are free for every build that honours a reserve. -/
def crowded : ResizeEnv := ⟨true, { roomy with memInfo := some (8192, 1 <<< 30) }, roomy⟩

/-- A host whose resizes are refused from the `n`-th on. -/
def crowdedFrom (n : Nat) : Host :=
  { steady roomy with resize := fun i => if i < n then ⟨true, roomy, roomy⟩ else crowded }

/-- Two models, warmed one after the other. -/
def pair : Registry × List String :=
  let specs := [{ reserving with name := "a" }, { reserving with name := "b" }]
  (after (Registry.warmUp (steady roomy) "b")
    (after (Registry.warmUp (steady roomy) "a") (new specs 2)), ["b", "a"])

theorem pair_reachable : system.Reachable System.anyStep pair := by
  have h₀ : system.Reachable System.anyStep (new pair.1.specs 2, []) :=
    .init ⟨⟨_, _, rfl⟩, rfl⟩
  have h₁ := h₀.step (a := .warmUp (steady roomy) "a") trivial rfl
  exact h₁.step (a := .warmUp (steady roomy) "b") trivial rfl

/-- If the model in front is refused, neither has moved. -/
theorem refused_resize_first : ∃ r',
    adminSlots (crowdedFrom 1) ⟨none, some 9⟩ pair.1 =
      .error (.resize (.kept (.reserve 9000000 8192 (1 <<< 30) 4096) 4 2)) r' ∧
      SameSizes pair.1.warm r'.warm := by
  obtain ⟨r', h⟩ : ∃ r', adminSlots (crowdedFrom 1) ⟨none, some 9⟩ pair.1 =
      .error (.resize (.kept (.reserve 9000000 8192 (1 <<< 30) 4096) 4 2)) r' := ⟨_, rfl⟩
  exact ⟨r', h, (refused_resize_iff pair_reachable h nofun).mpr (Or.inl (Or.inr trivial))⟩

/-- **The first model keeps what the second was refused.** The request for nine megabytes
fails at the model behind, which is put back; the one in front has twice its slots and
holds on to the nine megabytes. -/
theorem refused_resize_moved : ∃ r',
    system.Reachable System.anyStep pair ∧
    adminSlots (crowdedFrom 2) ⟨none, some 9⟩ pair.1 =
      .error (.resize (.kept (.reserve 9000000 8192 (1 <<< 30) 4096) 4 2)) r' ∧
    pair.1.warm.map (fun w => (w.1, w.2.curSlots, w.2.reserveBytes)) =
      [("b", 2, 1000000), ("a", 2, 1000000)] ∧
    r'.warm.map (fun w => (w.1, w.2.curSlots, w.2.reserveBytes)) =
      [("b", 4, 9000000), ("a", 2, 1000000)] ∧
    ¬SameSizes pair.1.warm r'.warm := by
  refine ⟨_, pair_reachable, rfl, rfl, rfl, fun hsame => ?_⟩
  cases hsame with
  | cons hfirst _ => exact absurd hfirst.2.reserve (by decide)

/-! ### An accepted reserve -/

/-- Device memory of an engine's expert cache. -/
def Engine.bytes (e : Engine) : Nat := (e.dec.owner.pager.map Arena.bytes).getD 0

/-- Device memory of all expert caches. -/
def held (warm : List (String × Engine)) : Nat := (warm.map fun w => w.2.bytes).sum

/-- What one build is told about `avail` bytes of which `used` are taken: what is free is
the rest, and the arenas it gets fit into the rest. -/
structure Metered (avail used : Nat) (env : BuildEnv) : Prop where
  memInfo : ∀ free total, env.memInfo = some (free, total) → free + used = avail
  alloc : ∀ shape, env.pack = some shape → ∀ bytes,
    (∀ layer < shape.numLayers, env.alloc layer bytes = true) →
      shape.numLayers * bytes + used ≤ avail

/-- Nobody but the warm models takes or gives back device memory during the request:
each resize is told about `avail` bytes without the caches of the models before it
(`before` bytes) and behind it. -/
def Undisturbed (host : Host) (req : SlotsRequest) (specs : List ModelSpec) (avail : Nat) :
    Nat → Nat → List (String × Engine) → Prop
  | _, _, [] => True
  | before, n, (name, e) :: rest =>
      let one := slotsSweepOne host req specs n name e
      Metered avail (before + held rest) (host.resize n).first ∧
        Undisturbed host req specs avail (before + one.engine.bytes) one.resizes rest

/-- The reserve is free, and no model has more slots than it should. -/
structure Honoured (avail : Nat) (req : SlotsRequest) (warm : List (String × Engine)) :
    Prop where
  reserve : ∀ mb, req.reserveMb = some mb → mb * 1000000 ≤ avail - held warm
  target : ∀ t, req.target = some t → ∀ w ∈ warm, w.2.dec.slotsPerLayer ≤ t

/-- What a build that succeeds holds leaves the reserve free. -/
theorem build_metered {d : CacheOwner} {env : BuildEnv} {slots reserveBytes avail used : Nat}
    {a : Arena} (h : d.build env slots reserveBytes = some (.ok a)) (havail : avail < 2 ^ 64)
    (hmetered : Metered avail used env) (hreserve : 0 < reserveBytes) :
    a.bytes + used + reserveBytes ≤ avail := by
  obtain ⟨shape, hpack, hclamp, hspan, hlayers, hpos⟩ := Arena.new_shape h
  have hbytes : a.bytes = shape.numLayers * (a.slotsPerLayer * alignUp shape.maxBlobBytes) := by
    rw [Arena.bytes, hspan, hlayers]
  -- the device gives no more than it has, so the size of a slot does not wrap
  have halloc : a.bytes + used ≤ avail := by
    rw [hbytes]
    refine hmetered.alloc shape hpack _ fun layer hlayer => ?_
    have hnot := CacheOwner.not_refuses_of_build_ok h
    simp only [BuildEnv.Refuses, hpack, hclamp] at hnot
    by_contra hfalse
    exact hnot (.inl ⟨layer, hlayer, Bool.eq_false_of_not_eq_true hfalse⟩)
  have hswap : a.bytes = a.slotsPerLayer * (shape.numLayers * alignUp shape.maxBlobBytes) := by
    rw [hbytes, Nat.mul_left_comm]
  have hperSlot : shape.numLayers * alignUp shape.maxBlobBytes < 2 ^ 64 := by
    have hle := Nat.le_mul_of_pos_left (shape.numLayers * alignUp shape.maxBlobBytes) hpos
    omega
  obtain ⟨free, total, hinfo, hfits⟩ := clampSlots_fits hclamp hreserve hpos hperSlot
  have hfree := hmetered.memInfo free total hinfo
  rw [← hswap] at hfits
  simp only at hfits
  omega

/-- What a turn that succeeds leaves: at most the slots asked for, beside the reserve. -/
theorem SlotsSwept.honoured {one : Swept} {avail used : Nat}
    (h : SlotsSwept host req specs n name e one) (hok : one.error = none)
    (havail : avail < 2 ^ 64) (hmetered : Metered avail used (host.resize n).first) :
    (∀ t, req.target = some t → one.engine.dec.slotsPerLayer ≤ t) ∧
      ∀ mb, req.reserveMb = some mb → 0 < mbToBytes mb →
        one.engine.bytes + used + mbToBytes mb ≤ avail := by
  cases h with
  | unknown => cases hok
  | failed _ _ herror =>
      rw [show Swept.error _ = none from hok] at herror
      cases herror
  | @resized want one hwant hresized _ =>
      cases hresized with
      | panicked => cases hok
      | failed => cases hok
      | @rebuilt a dec _ hbuild hdec =>
          have hslots : dec.slotsPerLayer = a.slotsPerLayer := by
            show dec.owner.slotsPerLayer = _
            rw [hdec]
            rfl
          have hbytes : (Engine.mk dec (req.reserve e).curSlots (req.reserve e).reserveBytes).bytes =
              a.bytes := by
            show (dec.owner.pager.map Arena.bytes).getD 0 = _
            rw [hdec]
            rfl
          refine ⟨fun t ht => ?_, fun mb hmb hpos => ?_⟩
          · have hle := (CacheOwner.build_ok hbuild).2.1
            -- narrowing the target only makes it smaller
            have hnarrow : want = t % 2 ^ 32 := by
              rw [SlotsRequest.want, ht] at hwant
              exact (Option.some.inj hwant).symm
            have hmod := Nat.mod_le t (2 ^ 32)
            show dec.slotsPerLayer ≤ t
            omega
          · have hreserve : (req.reserve e).dec.owner.reserveBytes = mbToBytes mb := by
              simp [SlotsRequest.reserve, hmb, Engine.setReserve, CacheOwner.setReserveBytes]
            rw [hreserve] at hbuild
            show (Engine.mk dec (req.reserve e).curSlots (req.reserve e).reserveBytes).bytes + _ + _ ≤ _
            rw [hbytes]
            exact build_metered hbuild havail hmetered hpos

theorem honoured_sweep {warm : List (String × Engine)} {avail before : Nat}
    (h : (sweep (slotsSweepOne host req specs) n warm).error = none) (havail : avail < 2 ^ 64)
    (hmetered : Undisturbed host req specs avail before n warm) :
    (∀ t, req.target = some t → ∀ w ∈ (sweep (slotsSweepOne host req specs) n warm).warm,
        w.2.dec.slotsPerLayer ≤ t) ∧
      (warm ≠ [] → ∀ mb, req.reserveMb = some mb → 0 < mbToBytes mb →
        before + held (sweep (slotsSweepOne host req specs) n warm).warm + mbToBytes mb ≤
          avail) := by
  induction warm generalizing n before with
  | nil => exact ⟨by simp [sweep], fun hnil => absurd rfl hnil⟩
  | cons w rest ih =>
      obtain ⟨name, e⟩ := w
      obtain ⟨hone, hrest⟩ := sweep_ok_inv h
      obtain ⟨hfirst, hbehind⟩ := hmetered
      obtain ⟨htarget, hreserve⟩ :=
        (slotsSweepOne_swept host req specs n name e).honoured hone havail hfirst
      obtain ⟨htargets, hreserves⟩ := ih hrest hbehind
      rw [sweep_cons_ok hone]
      refine ⟨fun t ht => List.forall_mem_cons.mpr ⟨htarget t ht, htargets t ht⟩,
        fun _ mb hmb hpos => ?_⟩
      -- the last model is measured against what all the others hold by then
      have hheld : held ((name, (slotsSweepOne host req specs n name e).engine) ::
          (sweep (slotsSweepOne host req specs)
            (slotsSweepOne host req specs n name e).resizes rest).warm) =
          (slotsSweepOne host req specs n name e).engine.bytes +
            held (sweep (slotsSweepOne host req specs)
              (slotsSweepOne host req specs n name e).resizes rest).warm := by
        simp [held]
      simp only [hheld]
      cases rest with
      | nil =>
          have hlast := hreserve mb hmb hpos
          simp only [sweep]
          omega
      | cons w' rest' =>
          have hlast := hreserves (by simp) mb hmb hpos
          omega

/-- **An accepted reserve.** A request to `/v1/admin/slots` that succeeds with some model
warm leaves the reserve free, and no model more slots than it gives, exactly when the
reserve in bytes fits into 64 bits. -/
theorem accepted_reserve_iff {p : Registry × List String} {host : Host} {req : SlotsRequest}
    {r' : Registry} {out : List (String × Nat)} {avail : Nat}
    (hp : system.Reachable System.anyStep p) (hwarm : p.1.warm ≠ []) (havail : avail < 2 ^ 64)
    (hmetered : Undisturbed host req p.1.specs avail 0 p.1.resizes p.1.warm)
    (h : adminSlots host req p.1 = .ok out r') :
    Honoured avail req r'.warm ↔ ∀ mb, req.reserveMb = some mb → mb * 1000000 < 2 ^ 64 := by
  by_cases hreq : req.target = none ∧ req.reserveMb = none
  · rw [adminSlots, if_pos hreq] at h
    cases h
  rw [adminSlots_sweep (reachable_lruInv hp).recent.nodup hreq] at h
  simp only at h
  split at h
  case h_1 => cases h
  case h_2 hok =>
  cases h
  obtain ⟨htarget, hreserve⟩ := honoured_sweep hok havail hmetered
  constructor
  · intro hhonoured mb hmb
    have hfree := hhonoured.reserve mb hmb
    omega
  · intro hfits
    refine ⟨fun mb hmb => ?_, htarget⟩
    have hbytes : mbToBytes mb = mb * 1000000 := Nat.mod_eq_of_lt (hfits mb hmb)
    rcases Nat.eq_zero_or_pos (mbToBytes mb) with hzero | hpos
    · omega
    · have hle := hreserve hwarm mb hmb hpos
      simp only
      omega

/-- A card of which `avail` bytes are free for expert caches. -/
def card (avail : Nat) : BuildEnv :=
  { roomy with memInfo := some (avail, avail), alloc := fun _ bytes => bytes ≤ avail }

theorem card_metered (avail : Nat) : Metered avail 0 (card avail) where
  memInfo free total h := by
    cases h
    rfl
  alloc shape hshape bytes h := by
    cases hshape
    have hlayer := of_decide_eq_true (h 0 Nat.one_pos)
    show 1 * bytes + 0 ≤ avail
    omega

theorem served_reachable : system.Reachable System.anyStep (served roomy, ["m"]) := by
  have h₀ : system.Reachable System.anyStep (new [reserving] 1, []) := .init ⟨⟨_, _, rfl⟩, rfl⟩
  exact h₀.step (a := .warmUp (steady roomy) "m") trivial rfl

/-- The card, with one model on it. -/
theorem served_undisturbed (avail : Nat) (req : SlotsRequest) :
    Undisturbed (steady (card avail)) req (served roomy).specs avail 0 (served roomy).resizes
      (served roomy).warm :=
  ⟨card_metered avail, trivial⟩

/-- Nine megabytes of a gigabyte are left free. -/
theorem accepted_reserve_met : ∃ out r',
    adminSlots (steady (card (1 <<< 30))) ⟨none, some 9⟩ (served roomy) = .ok out r' ∧
      Honoured (1 <<< 30) ⟨none, some 9⟩ r'.warm := by
  obtain ⟨out, r', h⟩ : ∃ out r', adminSlots (steady (card (1 <<< 30))) ⟨none, some 9⟩
      (served roomy) = .ok out r' := ⟨_, _, rfl⟩
  refine ⟨out, r', h, (accepted_reserve_iff served_reachable nofun (by decide)
    (served_undisturbed _ _) h).mpr fun mb hmb => ?_⟩
  cases hmb
  decide

/-- **The reserve wraps.** 18446744073710 megabytes are a little over `2 ^ 64` bytes: what
is armed is 448384 bytes, and the request for more memory than any card has succeeds. -/
theorem wrapped_reserve_accepted : ∃ out r',
    system.Reachable System.anyStep (served roomy, ["m"]) ∧
    Undisturbed (steady (card (1 <<< 30))) ⟨none, some 18446744073710⟩ (served roomy).specs
      (1 <<< 30) 0 (served roomy).resizes (served roomy).warm ∧
    adminSlots (steady (card (1 <<< 30))) ⟨none, some 18446744073710⟩ (served roomy) = .ok out r' ∧
    r'.warm.map (fun w => (w.1, w.2.curSlots, w.2.reserveBytes)) = [("m", 4, 448384)] ∧
    ¬Honoured (1 <<< 30) ⟨none, some 18446744073710⟩ r'.warm := by
  refine ⟨_, _, served_reachable, served_undisturbed _ _, rfl, rfl, fun hhonoured => ?_⟩
  have hfree := hhonoured.reserve 18446744073710 rfl
  have hle := hfree.trans (Nat.sub_le (1 <<< 30) _)
  exact absurd hle (by decide)

end LlmPager.Serve.Registry
