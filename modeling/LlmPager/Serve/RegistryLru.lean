import LlmPager.Lib.Recency
import LlmPager.Lib.Transition
import LlmPager.Serve.Registry

/-!
# LlmPager.Serve.RegistryLru

Which models are warm, and in which order.

Only `warm_up` moves names, and it does so in six ways (`Warmed`): a resize changes
the engine of a name and never the list of names, whether it succeeds or fails. The
history of a run is the list of the requests that found their model warm or finished
loading it, the latest first; the warm models always stand in its order.
-/

namespace LlmPager.Serve.Registry

open LlmPager.Lib

variable {host : Host} {r r' : Registry} {name : String}

/-! ### Loops over the warm models -/

theorem names_sweep (f : Nat → String → Engine → Swept) (n : Nat) (warm : List (String × Engine)) :
    (sweep f n warm).warm.map (·.1) = warm.map (·.1) := by
  induction warm generalizing n with
  | nil => rfl
  | cons w rest ih =>
      obtain ⟨name, e⟩ := w
      unfold sweep
      cases (f n name e).error with
      | some err => simp
      | none => simp [ih]

/-- Names, specs and capacity are as before. -/
structure SameNames (r r' : Registry) : Prop where
  names : r'.names = r.names
  specs : r'.specs = r.specs
  maxWarm : r'.maxWarm = r.maxWarm

theorem SameNames.refl (r : Registry) : SameNames r r := ⟨rfl, rfl, rfl⟩

theorem SameNames.trans {r'' : Registry} (h : SameNames r r') (h' : SameNames r' r'') :
    SameNames r r'' :=
  ⟨h'.names.trans h.names, h'.specs.trans h.specs, h'.maxWarm.trans h.maxWarm⟩

instance : Std.Refl SameNames := ⟨SameNames.refl⟩

instance : IsTrans Registry SameNames := ⟨fun _ _ _ => SameNames.trans⟩

theorem rebalance_sameNames (host : Host) (count : Nat) : Rel SameNames (rebalance host count) := by
  intro r
  refine .of_runs ?_ ?_
  · rintro _ _ r' rfl h
    unfold rebalance at h
    simp only at h
    split at h
    · cases h
      exact ⟨names_sweep _ _ _, rfl, rfl⟩
    · cases h
  · rintro _ _ r' rfl h
    unfold rebalance at h
    simp only at h
    split at h
    · cases h
    · cases h
      exact ⟨names_sweep _ _ _, rfl, rfl⟩

/-- A turn of the handler's loop puts an engine back under the name it was found. -/
theorem slotsFor_sameNames (host : Host) (req : SlotsRequest) (name : String) :
    Rel SameNames (slotsFor host req name) := by
  have hset : ∀ (r : Registry) (i : Nat) (n : String) (e : Engine) (e' : Engine) (resizes : Nat),
      r.warm[i]? = some (n, e) →
      SameNames r { r with warm := r.warm.set i (n, e'), resizes } := by
    intro r i n e e' resizes hi
    refine ⟨?_, rfl, rfl⟩
    show (r.warm.set i (n, e')).map (·.1) = r.warm.map (·.1)
    obtain ⟨hlt, hget⟩ := List.getElem?_eq_some_iff.mp hi
    rw [List.map_set]
    refine List.ext_getElem (by simp) fun j hj hj' => ?_
    rw [List.getElem_set]
    by_cases hij : i = j
    · subst hij
      simp [hget]
    · simp [hij]
  intro r
  rintro s rfl
  unfold slotsFor
  cases req.want s.specs name with
  | none => exact .refl s
  | some want =>
      simp only
      cases position s.warm name with
      | none => exact .refl s
      | some i =>
          simp only
          cases hi : s.warm[i]? with
          | none => exact .refl s
          | some w =>
              obtain ⟨n, e⟩ := w
              simp only
              cases (slotsOne host req want s.resizes e).error with
              | none => exact hset s i n e _ _ hi
              | some err => exact hset s i n e _ _ hi

theorem slotsNamed_sameNames (host : Host) (req : SlotsRequest) (names : List String) :
    Rel SameNames (slotsNamed host req names) := by
  induction names with
  | nil => exact .pure _
  | cons name rest ih =>
      refine .bind (slotsFor_sameNames host req name) fun _ => ?_
      exact .bind ih fun _ => .pure _

theorem adminSlots_sameNames (host : Host) (req : SlotsRequest) :
    Rel SameNames (adminSlots host req) :=
  .ite (.throw _) (.get fun r => slotsNamed_sameNames host req r.names)

/-! ### Making room and loading -/

theorem evict_eq (r : Registry) :
    evict r = { r with warm := r.warm.take (max r.maxWarm 1 - 1) } := by
  have haux : ∀ fuel (r : Registry), r.warm.length ≤ fuel →
      evictAux fuel r = { r with warm := r.warm.take (max r.maxWarm 1 - 1) } := by
    intro fuel
    induction fuel with
    | zero =>
        intro r hlen
        have hnil : r.warm = [] := List.length_eq_zero_iff.mp (Nat.le_zero.mp hlen)
        show r = _
        rw [hnil, List.take_nil, ← hnil]
    | succ fuel ih =>
        intro r hlen
        unfold evictAux
        by_cases hfull : max r.maxWarm 1 ≤ r.warm.length
        · rw [if_pos hfull, ih _ (by simp only [List.length_dropLast]; omega)]
          simp only [List.dropLast_eq_take, List.take_take]
          rw [Nat.min_eq_left (by omega)]
        · rw [if_neg hfull, List.take_of_length_le (by omega)]
  exact haux _ r (Nat.le_refl _)

theorem names_evict : (evict r).names = r.names.take (max r.maxWarm 1 - 1) := by
  rw [evict_eq]
  exact List.map_take

theorem tryLoad_sameNames (host : Host) (spec : ModelSpec) (slots : Nat) :
    Rel SameNames (tryLoad host spec slots) := by
  refine .get fun r => .bind (.modify fun _ => ⟨rfl, rfl, rfl⟩) fun _ => ?_
  cases load host r.loads spec slots with
  | none => exact .throw _
  | some result => exact .pure _

/-- What a load, tried once more when it fails, leaves of the names. -/
theorem loadOrRetry_names (host : Host) (name : String) (spec : ModelSpec) (slots : Nat)
    (r : Registry) :
    Triple (· = r) (loadOrRetry host name spec slots)
      (fun _ r' => r'.specs = r.specs ∧ r'.maxWarm = r.maxWarm ∧
        (r'.names = r.names ∨ r'.names = []))
      (fun _ r' => r'.specs = r.specs ∧ r'.maxWarm = r.maxWarm ∧
        (r'.names = r.names ∨ r'.names = [])) := by
  have hsame : ∀ r', SameNames r r' → r'.specs = r.specs ∧ r'.maxWarm = r.maxWarm ∧
      (r'.names = r.names ∨ r'.names = []) := fun r' h => ⟨h.specs, h.maxWarm, .inl h.names⟩
  unfold loadOrRetry
  refine .bind ((tryLoad_sameNames host spec slots r).weaken (fun _ h => h) (fun _ _ h => h)
    fun _ r' h => hsame r' h) fun result => ?_
  cases result with
  | ok e => exact .pure hsame
  | error err =>
      refine .get fun r₁ hr₁ => .ite (fun _ => .throw ?_) fun _ => ?_
      · rintro _ rfl
        exact hsame _ hr₁
      -- everything warm is dropped for the second try
      let r₂ : Registry := { r₁ with warm := [] }
      have hempty : ∀ r', SameNames r₂ r' → r'.specs = r.specs ∧ r'.maxWarm = r.maxWarm ∧
          (r'.names = r.names ∨ r'.names = []) := fun r' h =>
        ⟨h.specs.trans hr₁.specs, h.maxWarm.trans hr₁.maxWarm, .inr h.names⟩
      refine .bind (Q := fun _ r' => r' = r₂) (.modify fun _ h => h ▸ rfl) fun _ => .get ?_
      rintro _ rfl
      cases hspec : r₂.spec name with
      | none =>
          refine .throw ?_
          rintro _ rfl
          exact hempty _ (.refl _)
      | some again =>
          refine .bind ((tryLoad_sameNames host spec again.slotsSolo r₂).weaken (fun _ h => h)
            (fun _ _ h => h) fun _ r' h => hempty r' h) fun result => ?_
          cases result with
          | ok e => exact .pure hempty
          | error err => exact .throw hempty

/-- What becomes of the names when a cold model is loaded: the new one is in front of
those that were kept, or the load fails. -/
theorem warmCold_names (host : Host) (name : String) (spec : ModelSpec) (r : Registry) :
    Triple (· = r) (warmCold host name spec)
      (fun _ r' => r'.specs = r.specs ∧ r'.maxWarm = r.maxWarm ∧
        (r'.names = name :: (evict r).names ∨ r'.names = [name]))
      (fun _ r' => r'.specs = r.specs ∧ r'.maxWarm = r.maxWarm ∧
        (r'.names = (evict r).names ∨ r'.names = [])) := by
  have hspecs : (evict r).specs = r.specs := by rw [evict_eq]
  have hmaxWarm : (evict r).maxWarm = r.maxWarm := by rw [evict_eq]
  have hkept : ∀ r', SameNames (evict r) r' → r'.specs = r.specs ∧ r'.maxWarm = r.maxWarm ∧
      (r'.names = (evict r).names ∨ r'.names = []) := fun r' h =>
    ⟨h.specs.trans hspecs, h.maxWarm.trans hmaxWarm, .inl h.names⟩
  unfold warmCold
  refine .bind (Q := fun _ r' => r' = evict r) (.modify fun _ h => h ▸ rfl) fun _ => .get ?_
  rintro _ rfl
  refine .bind (((rebalance_sameNames host _) (evict r)).weaken (fun _ h => h) (fun _ _ h => h)
    fun _ r' h => hkept r' h) fun _ => ?_
  intro r₁ hr₁
  have hloaded := loadOrRetry_names host name spec
    (spec.target ((evict r).warm.length + 1)) r₁
  refine Triple.bind (P := (· = r₁)) (Q := fun _ r' => r'.specs = r.specs ∧
    r'.maxWarm = r.maxWarm ∧ (r'.names = (evict r).names ∨ r'.names = []))
    (hloaded.weaken (fun _ h => h) ?_ ?_) (fun engine => .modify ?_) r₁ rfl
  · intro _ r' ⟨hs, hm, hn⟩
    exact ⟨hs.trans (hkept r₁ hr₁).1, hm.trans (hkept r₁ hr₁).2.1, hr₁.names ▸ hn⟩
  · intro _ r' ⟨hs, hm, hn⟩
    exact ⟨hs.trans (hkept r₁ hr₁).1, hm.trans (hkept r₁ hr₁).2.1, hr₁.names ▸ hn⟩
  · intro r' ⟨hs, hm, hn⟩
    refine ⟨hs, hm, ?_⟩
    rcases hn with hn | hn
    · exact .inl (congrArg (name :: ·) hn)
    · exact .inr (congrArg (name :: ·) hn)

/-! ### `warm_up` -/

/-- The first model of that name is where `warm_up` finds it. -/
theorem position_eq_some {warm : List (String × Engine)} {i : Nat}
    (h : position warm name = some i) :
    ∃ e, warm[i]? = some (name, e) ∧
      (warm.eraseIdx i).map (·.1) = (warm.map (·.1)).erase name := by
  obtain ⟨hlt, hat, hfirst⟩ := List.findIdx?_eq_some_iff_getElem.mp h
  have hname : warm[i].1 = name := of_decide_eq_true hat
  refine ⟨warm[i].2, by rw [List.getElem?_eq_getElem hlt, ← hname], ?_⟩
  have hidx : (warm.map (·.1)).idxOf name = i := by
    have hfind := (List.findIdx?_eq_some_iff_findIdx_eq.mp h).2
    rw [List.idxOf, List.findIdx_map]
    rw [← hfind]
    congr 1
  rw [List.erase_eq_eraseIdx_of_idxOf hidx, List.eraseIdx_map]

theorem position_eq_none {warm : List (String × Engine)} :
    position warm name = none ↔ name ∉ warm.map (·.1) := by
  unfold position
  rw [List.findIdx?_eq_none_iff]
  simp only [List.mem_map, not_exists, not_and, decide_eq_false_iff_not]

/-- What `warm_up` makes of the warm names. -/
inductive Warmed (r : Registry) (name : String) : List String → Prop
  | found : name ∈ r.names → Warmed r name (name :: r.names.erase name)
  | unknown : name ∉ r.names → r.spec name = none → Warmed r name r.names
  | loaded : name ∉ r.names → (r.spec name).isSome → Warmed r name (name :: (evict r).names)
  /-- Loaded by the second try, with the card to itself. -/
  | reloaded : name ∉ r.names → (r.spec name).isSome → Warmed r name [name]
  /-- The load failed, or the rebalance before it. -/
  | refused : name ∉ r.names → Warmed r name (evict r).names
  /-- The second try failed as well. -/
  | cleared : name ∉ r.names → Warmed r name []

theorem warmUp_names (host : Host) (name : String) (r : Registry) :
    Triple (· = r) (warmUp host name)
      (fun i r' => i = 0 ∧ r'.specs = r.specs ∧ r'.maxWarm = r.maxWarm ∧
        Warmed r name r'.names ∧ r'.names.head? = some name)
      (fun _ r' => r'.specs = r.specs ∧ r'.maxWarm = r.maxWarm ∧ Warmed r name r'.names) := by
  unfold warmUp
  refine .get fun r hr => ?_
  subst hr
  cases hpos : position r.warm name with
  | some i =>
      obtain ⟨e, hi, herase⟩ := position_eq_some hpos
      have hmem : name ∈ r.names := by
        by_contra hnot
        rw [position_eq_none.mpr hnot] at hpos
        cases hpos
      refine .bind (Q := fun _ r' => r'.specs = r.specs ∧ r'.maxWarm = r.maxWarm ∧
        r'.names = name :: r.names.erase name) (.modify ?_) fun _ => .pure ?_
      · intro r hr
        subst hr
        refine ⟨rfl, rfl, ?_⟩
        show (r.warm[i]?.toList ++ r.warm.eraseIdx i).map (·.1) = _
        rw [hi, List.map_append, herase]
        rfl
      · intro r' ⟨hs, hm, hn⟩
        refine ⟨rfl, hs, hm, ?_, ?_⟩
        · rw [hn]
          exact .found hmem
        · rw [hn]
          rfl
  | none =>
      have hcold : name ∉ r.names := position_eq_none.mp hpos
      refine .get fun r hr => ?_
      subst hr
      cases hspec : r.spec name with
      | none =>
          refine .throw ?_
          rintro _ rfl
          exact ⟨rfl, rfl, .unknown hcold hspec⟩
      | some spec =>
          have hsome : (r.spec name).isSome := by rw [hspec]; rfl
          refine .bind ((warmCold_names host name spec r).weaken (fun _ h => h) (fun _ _ h => h) ?_)
            fun _ => .get fun r₁ hr₁ => ?_
          · intro _ r' ⟨hs, hm, hn⟩
            refine ⟨hs, hm, ?_⟩
            rcases hn with hn | hn
            · rw [hn]
              exact .refused hcold
            · rw [hn]
              exact .cleared hcold
          · obtain ⟨hs, hm, hn⟩ := hr₁
            have hwarmed : ∀ r', SameNames r₁ r' → r'.specs = r.specs ∧ r'.maxWarm = r.maxWarm ∧
                Warmed r name r'.names ∧ r'.names.head? = some name := by
              intro r' h
              refine ⟨h.specs.trans hs, h.maxWarm.trans hm, ?_⟩
              rw [h.names]
              rcases hn with hn | hn
              · rw [hn]
                exact ⟨.loaded hcold hsome, rfl⟩
              · rw [hn]
                exact ⟨.reloaded hcold hsome, rfl⟩
            refine .bind ((rebalance_sameNames host _ r₁).weaken (fun _ h => h) (fun _ _ h => h)
              fun _ r' h => ?_) fun _ => .pure fun r' h => ⟨rfl, hwarmed r' h⟩
            obtain ⟨hs, hm, hw, -⟩ := hwarmed r' h
            exact ⟨hs, hm, hw⟩

/-! ### Runs -/

/-- `Registry { specs, max_warm, warm: Vec::new() }`. -/
def new (specs : List ModelSpec) (maxWarm : Nat) : Registry :=
  { specs, maxWarm, warm := [], resizes := 0, loads := 0 }

/-- What the server asks of its registry, with what the host answers meanwhile. -/
inductive Op
  | warmUp (host : Host) (name : String)
  | adminSlots (host : Host) (req : SlotsRequest)

def Op.run (r : Registry) : Op → Registry
  | warmUp host name => after (Registry.warmUp host name) r
  | adminSlots host req => after (Registry.adminSlots host req) r

/-- The history after an operation: a request for a model counts if it found the model
warm or finished loading it. -/
def Op.record (r r' : Registry) (history : List String) : Op → List String
  | warmUp _ name => if name ∈ r.names ∨ name ∈ r'.names then name :: history else history
  | adminSlots _ _ => history

/-- A registry with the history of its requests, the latest first. -/
def system : System (Registry × List String) Op where
  init p := (∃ specs maxWarm, p.1 = new specs maxWarm) ∧ p.2 = []
  step p op p' := p' = (op.run p.1, op.record p.1 (op.run p.1) p.2)

/-- What holds however a call ends. -/
theorem of_after {α : Type} {m : EStateM RegistryError Registry α} {P : Registry → Prop}
    (h : Triple (· = r) m (fun _ => P) (fun _ => P)) : P (after m r) := by
  unfold after
  cases hm : m r with
  | ok a r' => exact h.ok rfl hm
  | error err r' => exact h.error rfl hm

structure LruInv (history : List String) (r : Registry) : Prop where
  recent : Recent history r.names
  length : r.warm.length ≤ max 1 r.maxWarm
  spec : ∀ name ∈ r.names, (r.spec name).isSome

theorem LruInv.sameNames {history : List String} (h : LruInv history r) (hr : SameNames r r') :
    LruInv history r' where
  recent := hr.names ▸ h.recent
  length := by
    have hlen := congrArg List.length hr.names
    rw [names, names, List.length_map, List.length_map] at hlen
    rw [hlen, hr.maxWarm]
    exact h.length
  spec name hname := by
    rw [Registry.spec, hr.specs]
    exact h.spec name (hr.names ▸ hname)

theorem Warmed.lruInv {history : List String} (h : LruInv history r)
    (hspecs : r'.specs = r.specs) (hmaxWarm : r'.maxWarm = r.maxWarm)
    (hw : Warmed r name r'.names) :
    LruInv (if name ∈ r.names ∨ name ∈ r'.names then name :: history else history) r' := by
  have hlength : ∀ l, r'.names = l → l.length ≤ max 1 r.maxWarm →
      r'.warm.length ≤ max 1 r'.maxWarm := by
    intro l hl hle
    rw [hmaxWarm]
    rwa [← hl, names, List.length_map] at hle
  have hspec : ∀ l, r'.names = l → (∀ x ∈ l, (r.spec x).isSome) →
      ∀ x ∈ r'.names, (r'.spec x).isSome := by
    intro l hl hall x hx
    rw [Registry.spec, hspecs]
    exact hall x (hl ▸ hx)
  have hwarm : r.names.length ≤ max 1 r.maxWarm := by
    rw [names, List.length_map]
    exact h.length
  -- the kept names are the first ones
  have hevict : (evict r).names.Sublist r.names := by
    rw [names_evict]
    exact List.take_sublist _ _
  have hroom : (evict r).names.length + 1 ≤ max 1 r.maxWarm := by
    rw [names_evict, List.length_take]
    omega
  have hkept : ∀ x ∈ (evict r).names, (r.spec x).isSome := fun x hx => h.spec x (hevict.subset hx)
  generalize hl : r'.names = l at hw
  cases hw with
  | found hmem =>
      have hnot : name ∉ r.names.erase name := h.recent.nodup.not_mem_erase
      rw [if_pos (.inl hmem)]
      refine ⟨hl ▸ (h.recent.sublist List.erase_sublist).use hnot, hlength _ hl ?_, hspec _ hl ?_⟩
      · rw [List.length_cons, List.length_erase_of_mem hmem]
        omega
      · intro x hx
        rcases List.mem_cons.mp hx with rfl | hx
        · exact h.spec x hmem
        · exact h.spec x (List.mem_of_mem_erase hx)
  | unknown hcold _ =>
      rw [if_neg (by simp [hcold])]
      exact ⟨hl ▸ h.recent, hlength _ hl hwarm, hspec _ hl h.spec⟩
  | loaded hcold hsome =>
      rw [if_pos (.inr List.mem_cons_self)]
      have hnot : name ∉ (evict r).names := fun hmem => hcold (hevict.subset hmem)
      refine ⟨hl ▸ (h.recent.sublist hevict).use hnot, hlength _ hl hroom, hspec _ hl ?_⟩
      intro x hx
      rcases List.mem_cons.mp hx with rfl | hx
      · exact hsome
      · exact hkept x hx
  | reloaded hcold hsome =>
      rw [if_pos (.inr List.mem_cons_self)]
      refine ⟨hl ▸ Recent.nil.use (by simp), hlength _ hl (Nat.le_max_left _ _), hspec _ hl ?_⟩
      intro x hx
      rw [List.mem_singleton.mp hx]
      exact hsome
  | refused hcold =>
      have hnot : name ∉ (evict r).names := fun hmem => hcold (hevict.subset hmem)
      rw [if_neg (by simp [hcold, hnot])]
      exact ⟨hl ▸ h.recent.sublist hevict, hlength _ hl (by omega), hspec _ hl hkept⟩
  | cleared hcold =>
      rw [if_neg (by simp [hcold])]
      exact ⟨hl ▸ .nil, hlength _ hl (Nat.zero_le _), hspec _ hl (by simp)⟩

theorem reachable_lruInv {p : Registry × List String} (h : system.Reachable System.anyStep p) :
    LruInv p.2 p.1 := by
  refine @System.Reachable.invariant _ _ _ _ (fun p => LruInv p.2 p.1) ?_ ?_ p h
  · rintro ⟨r, history⟩ ⟨⟨specs, maxWarm, rfl⟩, rfl⟩
    exact ⟨.nil, Nat.zero_le _, by simp [new, names]⟩
  · rintro ⟨r, history⟩ op p' hinv _ rfl
    cases op with
    | warmUp host name =>
        have hrun : ∀ r', r'.specs = r.specs ∧ r'.maxWarm = r.maxWarm ∧ Warmed r name r'.names →
            LruInv (if name ∈ r.names ∨ name ∈ r'.names then name :: history else history) r' :=
          fun r' ⟨hs, hm, hw⟩ => hw.lruInv hinv hs hm
        refine of_after (P := fun r' =>
          LruInv (if name ∈ r.names ∨ name ∈ r'.names then name :: history else history) r')
          ((warmUp_names host name r).weaken (fun _ h => h) (fun _ r' h => hrun r' ?_)
            fun _ r' h => hrun r' h)
        exact ⟨h.2.1, h.2.2.1, h.2.2.2.1⟩
    | adminSlots host req =>
        exact of_after (P := fun r' => LruInv history r')
          ((adminSlots_sameNames host req r).weaken (fun _ h => h)
            (fun _ _ h => hinv.sameNames h) fun _ _ h => hinv.sameNames h)

/-- A model leaves to make room, or with all the others for the second try. -/
theorem Warmed.gone {history : List String} {l : List String} {x : String}
    (h : LruInv history r) (hw : Warmed r name l) (hx : x ∈ r.names) (hgone : x ∉ l) :
    (∀ y ∈ (evict r).names, history.idxOf y < history.idxOf x) ∨ ∀ y ∈ r.names, y ∉ l := by
  have hpopped : x ∉ (evict r).names →
      ∀ y ∈ (evict r).names, history.idxOf y < history.idxOf x := by
    intro hnot y hy
    have happend : r.names = (evict r).names ++ r.names.drop (max r.maxWarm 1 - 1) := by
      rw [names_evict, List.take_append_drop]
    have hrecent := h.recent
    rw [happend] at hrecent hx
    rcases List.mem_append.mp hx with hx | hx
    · exact absurd hx hnot
    · exact hrecent.lt_of_append hy hx
  cases hw with
  | found hmem =>
      refine absurd ?_ hgone
      by_cases hxname : x = name
      · rw [hxname]
        exact List.mem_cons_self
      · exact List.mem_cons_of_mem _ ((List.mem_erase_of_ne hxname).mpr hx)
  | unknown => exact absurd hx hgone
  | loaded => exact .inl (hpopped fun hmem => hgone (List.mem_cons_of_mem _ hmem))
  | reloaded hcold _ =>
      refine .inr fun y hy hmem => hcold ?_
      rwa [List.mem_singleton.mp hmem] at hy
  | refused => exact .inl (hpopped hgone)
  | cleared => exact .inr fun y _ => by simp

/-- **Registry LRU.** In every reachable state, whichever loads and resizes fail: the
warm names are distinct, have specs, and are at most `max(1, max_warm)`; they stand in
the order of the latest request that found them warm or finished loading them. A request
for an unknown name changes nothing; one that succeeds leaves its model in front. A model
that leaves to make room was used before all that are kept, and else all leave at once. -/
theorem reachable_registryLru {p : Registry × List String}
    (h : system.Reachable System.anyStep p) :
    p.1.names.Nodup ∧ (∀ name ∈ p.1.names, (p.1.spec name).isSome) ∧
      p.1.warm.length ≤ max 1 p.1.maxWarm ∧ Recent p.2 p.1.names ∧
      (∀ host name, p.1.spec name = none →
        Registry.warmUp host name p.1 = .error (.unknownModel name) p.1) ∧
      (∀ host name i r', Registry.warmUp host name p.1 = .ok i r' →
        i = 0 ∧ ∃ e rest, r'.warm = (name, e) :: rest) ∧
      ∀ host name, ∀ x ∈ p.1.names, x ∉ (after (Registry.warmUp host name) p.1).names →
        (∀ y ∈ (evict p.1).names, p.2.idxOf y < p.2.idxOf x) ∨
          ∀ y ∈ p.1.names, y ∉ (after (Registry.warmUp host name) p.1).names := by
  have hinv := reachable_lruInv h
  refine ⟨hinv.recent.nodup, hinv.spec, hinv.length, hinv.recent, fun host name hnone => ?_,
    fun host name i r' hrun => ?_, fun host name x hx => ?_⟩
  · have hcold : position p.1.warm name = none := by
      refine position_eq_none.mpr fun hmem => ?_
      have hsome := hinv.spec name hmem
      rw [hnone] at hsome
      cases hsome
    unfold Registry.warmUp
    simp only [bind, EStateM.bind, get, getThe, MonadStateOf.get, EStateM.get, hcold, hnone]
    rfl
  · obtain ⟨hi, -, -, -, hhead⟩ := (warmUp_names host name p.1).ok rfl hrun
    refine ⟨hi, ?_⟩
    rw [names, List.head?_map] at hhead
    obtain ⟨⟨n, e⟩, hw, rfl⟩ := Option.map_eq_some_iff.mp hhead
    obtain ⟨rest, hrest⟩ := List.head?_eq_some_iff.mp hw
    exact ⟨e, rest, hrest⟩
  · have hwarmed : Warmed p.1 name (after (Registry.warmUp host name) p.1).names :=
      of_after (P := fun r' => Warmed p.1 name r'.names)
        ((warmUp_names host name p.1).weaken (fun _ h => h) (fun _ _ h => h.2.2.2.1)
          fun _ _ h => h.2.2)
    exact hwarmed.gone hinv hx

/-- A host whose builds all meet the same. -/
def steady (env : BuildEnv) : Host where
  resize _ := ⟨true, env, env⟩
  load _ := ⟨true, some .qwen, env, true⟩
  globalPool := false
  decayTokens := 4

/-- A model that wants four slots, and leaves a megabyte to others. -/
def reserving : ModelSpec :=
  { name := "m", slots := 2, slotsSolo := 4, ioThreads := 1, ramBytes := 0, reserveMb := 1 }

/-- Two models, of which one is kept warm. -/
def pairOfSpecs : List ModelSpec := [reserving, { reserving with name := "n" }]

/-- The registry after the first was asked for, and after the second. -/
def firstWarm : Registry := after (Registry.warmUp (steady roomy) "m") (new pairOfSpecs 1)

def secondWarm : Registry := after (Registry.warmUp (steady roomy) "n") firstWarm

/-- The first model has made room for the second. -/
theorem reachable_registryLru_evicted :
    firstWarm.names = ["m"] ∧ secondWarm.names = ["n"] ∧
      system.Reachable System.anyStep (secondWarm, ["n", "m"]) ∧
      secondWarm.warm.length ≤ max 1 secondWarm.maxWarm ∧ Recent ["n", "m"] secondWarm.names ∧
      ((∀ y ∈ (evict firstWarm).names, ["m"].idxOf y < ["m"].idxOf "m") ∨
        ∀ y ∈ firstWarm.names, y ∉ secondWarm.names) := by
  have hnew : system.Reachable System.anyStep (new pairOfSpecs 1, []) := .init ⟨⟨_, _, rfl⟩, rfl⟩
  have hfirst : system.Reachable System.anyStep (firstWarm, ["m"]) :=
    hnew.step (a := .warmUp (steady roomy) "m") trivial rfl
  have hsecond : system.Reachable System.anyStep (secondWarm, ["n", "m"]) :=
    hfirst.step (a := .warmUp (steady roomy) "n") trivial rfl
  obtain ⟨-, -, hlength, hrecent, -⟩ := reachable_registryLru hsecond
  have hgone := (reachable_registryLru hfirst).2.2.2.2.2.2 (steady roomy) "n" "m"
  have hcold : "m" ∉ secondWarm.names := by
    rw [show secondWarm.names = ["n"] from rfl]
    decide
  exact ⟨rfl, rfl, hsecond, hlength, hrecent, hgone List.mem_cons_self hcold⟩

end LlmPager.Serve.Registry
