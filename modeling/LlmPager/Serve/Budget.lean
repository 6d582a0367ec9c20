import LlmPager.Serve.Session

/-!
# LlmPager.Serve.Budget

`enforce_budget`, and the stamps it goes by.

Each drop leaves one parked session less and changes nothing else, so the loop
makes as many drops as it needs and not one more. Which session it drops is a
minimum over a hash map: no two sessions have the same stamp (`Stamped`), so the
minimum does not depend on the order of the map.
-/

namespace LlmPager.Serve

variable {Cell : Type}

/-- Host memory a session takes. -/
def Session.parkedBytes (e : Session Cell) : Nat := (e.parked.map Blob.nbytes).getD 0

/-- A context that `enforce_budget` dropped. -/
def Session.dropped (e : Session Cell) : Session Cell := { e with parked := none, tokens := [] }

namespace SessionStore

variable {s t : SessionStore Cell} {id x : String} {e : Session Cell}

/-! ### Entries of the map -/

theorem mem_entries : ⟨id, e⟩ ∈ s.map.entries ↔ s.find id = some e :=
  AList.mem_lookup_iff.symm

theorem entries_perm (h : s.find id = some e) :
    s.map.entries.Perm (⟨id, e⟩ :: (s.map.erase id).entries) := by
  have hkey : id ∈ s.map.entries.keys := List.mem_keys_of_mem (mem_entries.mpr h)
  obtain ⟨e', l₁, l₂, -, hentries, herase⟩ := List.exists_of_kerase hkey
  have hmem : (⟨id, e'⟩ : Sigma fun _ : String => Session Cell) ∈ s.map.entries := by
    rw [hentries]
    simp
  obtain rfl : e' = e := Option.some.inj ((mem_entries.mp hmem).symm.trans h)
  show s.map.entries.Perm (⟨id, e'⟩ :: s.map.entries.kerase id)
  rw [herase]
  nth_rewrite 1 [hentries]
  exact List.perm_middle

theorem entries_update (h : s.find id = some e) (f : Session Cell → Session Cell) :
    (s.update id f).map.entries = ⟨id, f e⟩ :: (s.map.erase id).entries := by
  unfold update
  rw [h]
  exact AList.entries_insert

/-- A sum over the sessions, when one of them changes. -/
theorem sum_update (g : Session Cell → Nat) (f : Session Cell → Session Cell)
    (h : s.find id = some e) :
    ((s.update id f).map.entries.map fun x => g x.2).sum + g e =
      (s.map.entries.map fun x => g x.2).sum + g (f e) := by
  rw [entries_update h, ((entries_perm h).map fun x => g x.2).sum_nat]
  simp only [List.map_cons, List.sum_cons]
  omega

theorem parkedBytes_eq_sum :
    s.parkedBytes = (s.map.entries.map fun x => x.2.parkedBytes).sum := by
  unfold parkedBytes
  induction s.map.entries with
  | nil => rfl
  | cons x rest ih =>
      rw [List.map_cons, List.sum_cons, ← ih]
      cases h : x.2.parked <;> simp [Session.parkedBytes, h]

theorem parkedBytes_update (f : Session Cell → Session Cell) (h : s.find id = some e) :
    (s.update id f).parkedBytes + e.parkedBytes = s.parkedBytes + (f e).parkedBytes := by
  simpa only [parkedBytes_eq_sum] using sum_update Session.parkedBytes f h

/-- How many sessions are parked. -/
def parkedCount (s : SessionStore Cell) : Nat :=
  (s.map.entries.map fun x => if x.2.parked.isSome then 1 else 0).sum

theorem parkedCount_le : s.parkedCount ≤ s.map.entries.length := by
  unfold parkedCount
  induction s.map.entries with
  | nil => exact Nat.le_refl 0
  | cons x rest ih =>
      rw [List.map_cons, List.sum_cons, List.length_cons]
      split <;> omega

theorem parkedCount_dropParked (h : s.find id = some e) (hparked : e.parked.isSome) :
    (s.dropParked id).parkedCount + 1 = s.parkedCount := by
  have hsum := sum_update (fun e => if e.parked.isSome then 1 else 0)
    (fun e => { e with parked := none, tokens := [] }) h
  simp only [hparked, if_true, Option.isSome_none, Bool.false_eq_true, if_false] at hsum
  exact hsum

theorem find_dropParked :
    (s.dropParked id).find x = if x = id then (s.find id).map Session.dropped else s.find x :=
  find_update _

@[simp] theorem clock_update (f : Session Cell → Session Cell) :
    (s.update id f).clock = s.clock := by
  unfold update
  cases s.find id <;> rfl

/-! ### The oldest parked session -/

/-- Distinct sessions have distinct stamps, none of them later than the clock. -/
structure Stamped (s : SessionStore Cell) : Prop where
  le_clock : ∀ {x e}, s.find x = some e → e.lastUsed ≤ s.clock
  injective : ∀ {x y e f}, s.find x = some e → s.find y = some f → e.lastUsed = f.lastUsed → x = y

/-- `x` is parked, and was used before every other parked session. -/
def OldestParked (s : SessionStore Cell) (x : String) : Prop :=
  ∃ e, s.find x = some e ∧ e.parked.isSome ∧
    ∀ y f, s.find y = some f → f.parked.isSome → e.lastUsed ≤ f.lastUsed

theorem oldestParked_some (h : s.oldestParked = some id) : s.OldestParked id := by
  obtain ⟨⟨id', e⟩, hmin, rfl⟩ := Option.map_eq_some_iff.mp h
  obtain ⟨hmem, hparked⟩ := List.mem_filter.mp (List.argmin_mem hmin)
  refine ⟨e, mem_entries.mp hmem, hparked, fun y f hy hf => ?_⟩
  have hmem' : (⟨y, f⟩ : Sigma fun _ : String => Session Cell) ∈
      s.map.entries.filter (·.2.parked.isSome) :=
    List.mem_filter.mpr ⟨mem_entries.mpr hy, hf⟩
  have hle := List.le_of_mem_argmin hmem' (Option.mem_def.mpr hmin)
  exact hle

theorem oldestParked_none (h : s.oldestParked = none) : s.parkedBytes = 0 := by
  have hnil : s.map.entries.filter (·.2.parked.isSome) = [] :=
    List.argmin_eq_none.mp (Option.map_eq_none_iff.mp h)
  rw [parkedBytes_eq_sum, List.sum_eq_zero_iff_forall_eq_nat]
  intro n hn
  obtain ⟨x, hx, rfl⟩ := List.mem_map.mp hn
  have hnone := List.filter_eq_nil_iff.mp hnil x hx
  simp only [Option.isSome_iff_ne_none, ne_eq, not_not] at hnone
  simp [Session.parkedBytes, hnone]

theorem OldestParked.unique {y : String} (hs : s.Stamped) (h : s.OldestParked x)
    (h' : s.OldestParked y) : x = y := by
  obtain ⟨e, hx, he, hmin⟩ := h
  obtain ⟨f, hy, hf, hmin'⟩ := h'
  exact hs.injective hx hy (Nat.le_antisymm (hmin y f hy hf) (hmin' x e hx he))

theorem isSome_oldestParked : s.oldestParked.isSome ↔ ∃ x, s.OldestParked x := by
  constructor
  · intro h
    obtain ⟨id, hid⟩ := Option.isSome_iff_exists.mp h
    exact ⟨id, oldestParked_some hid⟩
  · rintro ⟨x, e, hx, he, -⟩
    by_contra hnone
    rw [Option.isSome_iff_ne_none, not_not] at hnone
    have hnil := List.argmin_eq_none.mp (Option.map_eq_none_iff.mp hnone)
    have hmem : (⟨x, e⟩ : Sigma fun _ : String => Session Cell) ∈
        s.map.entries.filter (·.2.parked.isSome) :=
      List.mem_filter.mpr ⟨mem_entries.mpr hx, he⟩
    rw [hnil] at hmem
    cases hmem

/-! ### The loop -/

/-- The drops `enforce_budget` makes, in order. -/
inductive Drops : SessionStore Cell → List String → SessionStore Cell → Prop
  | met {s : SessionStore Cell} : s.parkedBytes ≤ s.ramBudget → Drops s [] s
  | drop {s t : SessionStore Cell} {id : String} {ids : List String} :
      s.ramBudget < s.parkedBytes → s.OldestParked id →
      Drops (s.dropParked id) ids t → Drops s (id :: ids) t

/-- Any fuel does that is enough to drop every parked session. -/
theorem drops_enforceBudgetAux {fuel : Nat} (h : s.parkedCount ≤ fuel) :
    ∃ ids, Drops s ids (enforceBudgetAux fuel s) := by
  induction fuel generalizing s with
  | zero =>
      refine ⟨[], .met ?_⟩
      have hbytes : s.parkedBytes = 0 := by
        cases hold : s.oldestParked with
        | none => exact oldestParked_none hold
        | some id =>
            obtain ⟨e, hfind, hparked, -⟩ := oldestParked_some hold
            have := parkedCount_dropParked hfind hparked
            omega
      rw [hbytes]
      exact Nat.zero_le _
  | succ fuel ih =>
      unfold enforceBudgetAux
      by_cases hover : s.ramBudget < s.parkedBytes
      · rw [if_pos hover]
        cases hold : s.oldestParked with
        | none =>
            have := oldestParked_none hold
            omega
        | some id =>
            obtain ⟨e, hfind, hparked, hmin⟩ := oldestParked_some hold
            have hcount := parkedCount_dropParked hfind hparked
            obtain ⟨ids, hdrops⟩ := @ih (s.dropParked id) (by omega)
            exact ⟨id :: ids, .drop hover ⟨e, hfind, hparked, hmin⟩ hdrops⟩
      · rw [if_neg hover]
        exact ⟨[], .met (Nat.le_of_not_lt hover)⟩

theorem drops_enforceBudget : ∃ ids, Drops s ids s.enforceBudget :=
  drops_enforceBudgetAux parkedCount_le

/-- Writes that make no stamp later. -/
theorem Stamped.mono (hs : s.Stamped) (hclock : s.clock ≤ t.clock)
    (h : ∀ x e, t.find x = some e → ∃ e', s.find x = some e' ∧ e.lastUsed = e'.lastUsed) :
    t.Stamped := by
  constructor
  · intro x e hx
    obtain ⟨e', hfind, hlast⟩ := h x e hx
    have := hs.le_clock hfind
    omega
  · intro x y e f hx hy heq
    obtain ⟨e', hfind, hlast⟩ := h x e hx
    obtain ⟨f', hfind', hlast'⟩ := h y f hy
    exact hs.injective hfind hfind' (by omega)

/-- The clock ticks, and at most one session gets the new stamp. -/
theorem Stamped.touch (id : String) (hs : s.Stamped) (hclock : t.clock = s.clock + 1)
    (hid : ∀ e, t.find id = some e → e.lastUsed = t.clock)
    (h : ∀ x ≠ id, t.find x = s.find x) : t.Stamped := by
  have hother : ∀ {x e}, x ≠ id → t.find x = some e → e.lastUsed ≤ s.clock := by
    intro x e hne hx
    rw [h x hne] at hx
    exact hs.le_clock hx
  constructor
  · intro x e hx
    by_cases hxid : x = id
    · subst hxid
      exact (hid e hx).le
    · have := hother hxid hx
      omega
  · intro x y e f hx hy heq
    by_cases hxid : x = id <;> by_cases hyid : y = id
    · rw [hxid, hyid]
    · have := hid e (hxid ▸ hx)
      have := hother hyid hy
      omega
    · have := hid f (hyid ▸ hy)
      have := hother hxid hx
      omega
    · rw [h x hxid] at hx
      rw [h y hyid] at hy
      exact hs.injective hx hy heq

theorem Stamped.update (hs : s.Stamped) {f : Session Cell → Session Cell}
    (hf : ∀ e, (f e).lastUsed = e.lastUsed) : (s.update id f).Stamped := by
  refine hs.mono (by rw [clock_update]) fun x e h => ?_
  rw [find_update] at h
  by_cases hx : x = id
  · subst hx
    rw [if_pos rfl] at h
    obtain ⟨e', hfind, rfl⟩ := Option.map_eq_some_iff.mp h
    exact ⟨e', hfind, hf e'⟩
  · rw [if_neg hx] at h
    exact ⟨e, h, rfl⟩

theorem Stamped.dropParked (hs : s.Stamped) : (s.dropParked id).Stamped := hs.update fun _ => rfl

/-- What the drops leave. -/
structure Enforced (s : SessionStore Cell) (ids : List String) (t : SessionStore Cell) : Prop where
  result : t = ids.foldl dropParked s
  met : t.parkedBytes ≤ t.ramBudget
  /-- Before each drop the budget was exceeded. -/
  needed : ∀ done id rest, ids = done ++ id :: rest →
    (done.foldl dropParked s).ramBudget < (done.foldl dropParked s).parkedBytes
  /-- What is dropped was parked, and nothing is dropped after a session that was
  used later. -/
  parked : ∀ id ∈ ids, ∃ e, s.find id = some e ∧ e.parked.isSome ∧ t.find id = some e.dropped
  increasing : ids.Pairwise fun x y => ∀ e f, s.find x = some e → s.find y = some f →
    e.lastUsed < f.lastUsed
  /-- What stays parked was used later than all that is dropped. -/
  oldest : ∀ id ∈ ids, ∀ y e f, s.find id = some e → t.find y = some f → f.parked.isSome →
    e.lastUsed < f.lastUsed
  untouched : ∀ x ∉ ids, t.find x = s.find x
  owner : t.owner = s.owner
  ramBudget : t.ramBudget = s.ramBudget
  clock : t.clock = s.clock

/-- A parked session of the store after a drop is another one, used later. -/
theorem OldestParked.lt_of_dropParked {y : String} {f : Session Cell} (hs : s.Stamped)
    (h : s.OldestParked id) (hid : s.find id = some e) (hy : (s.dropParked id).find y = some f)
    (hf : f.parked.isSome) : y ≠ id ∧ s.find y = some f ∧ e.lastUsed < f.lastUsed := by
  obtain ⟨e', hid', -, hmin⟩ := h
  obtain rfl : e' = e := Option.some.inj (hid'.symm.trans hid)
  rw [find_dropParked] at hy
  by_cases hyid : y = id
  · rw [if_pos hyid, hid] at hy
    obtain rfl : e'.dropped = f := Option.some.inj hy
    simp [Session.dropped] at hf
  · rw [if_neg hyid] at hy
    refine ⟨hyid, hy, Nat.lt_of_le_of_ne (hmin y f hy hf) fun heq => ?_⟩
    exact hyid (hs.injective hid hy heq).symm

theorem Drops.enforced {ids : List String} (h : Drops s ids t) (hs : s.Stamped) :
    Enforced s ids t := by
  induction h with
  | met hmet =>
      exact {
        result := rfl
        met := hmet
        needed := fun done id rest h => by simp at h
        parked := by simp
        increasing := .nil
        oldest := by simp
        untouched := fun _ _ => rfl
        owner := rfl
        ramBudget := rfl
        clock := rfl }
  | @drop s t id ids hover hold _ ih =>
      have hrest := ih hs.dropParked
      have ⟨e, hid, hparked, _⟩ := hold
      -- the sessions dropped after `id` are others, used later
      have hlater : ∀ y ∈ ids, ∃ f, s.find y = some f ∧ f.parked.isSome ∧
          t.find y = some f.dropped ∧ y ≠ id ∧ e.lastUsed < f.lastUsed := by
        intro y hy
        obtain ⟨f, hfind, hf, hafter⟩ := hrest.parked y hy
        obtain ⟨hne, hbefore, hlt⟩ := hold.lt_of_dropParked hs hid hfind hf
        exact ⟨f, hbefore, hf, hafter, hne, hlt⟩
      have hnotin : id ∉ ids := by
        intro hmem
        obtain ⟨_, _, _, _, hne, _⟩ := hlater id hmem
        exact hne rfl
      have hafter : t.find id = some e.dropped := by
        rw [hrest.untouched id hnotin, find_dropParked, if_pos rfl, hid]
        rfl
      exact {
        result := hrest.result
        met := hrest.met
        needed := by
          intro done d rest hsplit
          cases done with
          | nil => exact hover
          | cons d' done =>
              rw [List.cons_append, List.cons.injEq] at hsplit
              obtain ⟨rfl, hlater⟩ := hsplit
              exact hrest.needed done d rest hlater
        parked := by
          intro y hy
          rcases List.mem_cons.mp hy with rfl | hy
          · exact ⟨e, hid, hparked, hafter⟩
          · obtain ⟨f, hfind, hf, hfafter, -⟩ := hlater y hy
            exact ⟨f, hfind, hf, hfafter⟩
        increasing := by
          refine List.pairwise_cons.mpr ⟨fun y hy e' f' he' hf' => ?_, ?_⟩
          · obtain ⟨f, hfind, -, -, -, hlt⟩ := hlater y hy
            cases he'.symm.trans hid
            cases hf'.symm.trans hfind
            exact hlt
          · refine hrest.increasing.imp_of_mem fun {x y} hx hy hxy e' f' he' hf' => ?_
            refine hxy e' f' ?_ ?_
            · obtain ⟨_, _, _, _, hne, _⟩ := hlater x hx
              rw [find_dropParked, if_neg hne, he']
            · obtain ⟨_, _, _, _, hne, _⟩ := hlater y hy
              rw [find_dropParked, if_neg hne, hf']
        oldest := by
          intro d hd y e' f hd' hy hf
          have hbefore : (s.dropParked id).find y = some f := by
            by_contra hne
            by_cases hmem : y ∈ ids
            · obtain ⟨g, -, -, hg, -⟩ := hlater y hmem
              cases hy.symm.trans hg
              simp [Session.dropped] at hf
            · exact hne ((hrest.untouched y hmem).symm.trans hy)
          rcases List.mem_cons.mp hd with rfl | hd
          · exact (hold.lt_of_dropParked hs hd' hbefore hf).2.2
          · obtain ⟨g, _, _, _, hne, _⟩ := hlater d hd
            refine hrest.oldest d hd y e' f ?_ hy hf
            rw [find_dropParked, if_neg hne, hd']
        untouched := by
          intro x hx
          rw [List.mem_cons, not_or] at hx
          rw [hrest.untouched x hx.2, find_dropParked, if_neg hx.1]
        owner := hrest.owner.trans (owner_update _)
        ramBudget := hrest.ramBudget.trans (ramBudget_update _)
        clock := hrest.clock.trans (clock_update _) }

theorem Drops.stamped {ids : List String} (h : Drops s ids t) (hs : s.Stamped) : t.Stamped := by
  induction h with
  | met => exact hs
  | drop _ _ _ ih => exact ih hs.dropParked

/-- The drops that are made do not depend on how the loop finds them. -/
theorem Drops.unique {t' : SessionStore Cell} {ids ids' : List String} (h : Drops s ids t)
    (h' : Drops s ids' t') (hs : s.Stamped) : t = t' := by
  induction h generalizing ids' t' with
  | met hmet =>
      cases h' with
      | met => rfl
      | drop hover => omega
  | drop hover hold _ ih =>
      cases h' with
      | met hmet => omega
      | drop _ hold' hrest =>
          cases hold.unique hs hold'
          exact ih hrest hs.dropParked

/-- More fuel than there are parked sessions changes nothing. -/
theorem enforceBudgetAux_eq {fuel : Nat} (hs : s.Stamped) (h : s.parkedCount ≤ fuel) :
    enforceBudgetAux fuel s = s.enforceBudget := by
  obtain ⟨ids, hdrops⟩ := drops_enforceBudgetAux h
  obtain ⟨ids', hdrops'⟩ := @drops_enforceBudget Cell s
  exact hdrops.unique hdrops' hs

/-- **Budget.** `enforce_budget` drops what it has to, oldest first. -/
theorem enforceBudget_enforced (hs : s.Stamped) : ∃ ids, Enforced s ids s.enforceBudget := by
  obtain ⟨ids, hdrops⟩ := @drops_enforceBudget Cell s
  exact ⟨ids, hdrops.enforced hs⟩

end SessionStore

end LlmPager.Serve
