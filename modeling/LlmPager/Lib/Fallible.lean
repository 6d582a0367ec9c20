import Mathlib

/-!
# LlmPager.Lib.Fallible

Hoare triples for programs that may fail part-way and keep the state they have
reached (`EStateM`): a Rust method that takes `&mut self` and returns a
`Result` leaves behind whatever it wrote before the `?` that ended it.

A triple therefore has two postconditions, one for the value and one for the
error, and the rule of `bind` hands the error's postcondition through. A
*frame* is the special case of a relation that holds between the state before
and the state after, however the program ends (`Rel`). Two runs from states that
agree on what the program reads come to the same result (`Related`).
-/

namespace LlmPager.Lib

variable {ε σ τ α β : Type}

/-- From a state that meets `P`, `m` returns a value and a state that meet `Q`,
or fails with an error and a state that meet `E`. -/
def Triple (P : σ → Prop) (m : EStateM ε σ α) (Q : α → σ → Prop) (E : ε → σ → Prop) : Prop :=
  ∀ s, P s → match m s with
    | .ok a t => Q a t
    | .error e t => E e t

namespace Triple

variable {P P' : σ → Prop} {m : EStateM ε σ α} {Q Q' : α → σ → Prop} {E E' : ε → σ → Prop}

theorem ok (h : Triple P m Q E) {s t : σ} {a : α} (hs : P s) (hm : m s = .ok a t) : Q a t := by
  have := h s hs
  rw [hm] at this
  exact this

theorem error (h : Triple P m Q E) {s t : σ} {e : ε} (hs : P s) (hm : m s = .error e t) :
    E e t := by
  have := h s hs
  rw [hm] at this
  exact this

/-- A triple from what each outcome of the program gives. -/
theorem of_runs (hok : ∀ s a t, P s → m s = .ok a t → Q a t)
    (herr : ∀ s e t, P s → m s = .error e t → E e t) : Triple P m Q E := by
  intro s hs
  cases hm : m s with
  | ok a t => exact hok s a t hs hm
  | error e t => exact herr s e t hs hm

/-- Consequence. -/
theorem weaken (h : Triple P m Q E) (hP : ∀ s, P' s → P s) (hQ : ∀ a s, Q a s → Q' a s)
    (hE : ∀ e s, E e s → E' e s) : Triple P' m Q' E' :=
  of_runs (fun _ _ _ hs hm => hQ _ _ (h.ok (hP _ hs) hm))
    (fun _ _ _ hs hm => hE _ _ (h.error (hP _ hs) hm))

theorem and (h : Triple P m Q E) (h' : Triple P' m Q' E') :
    Triple (fun s => P s ∧ P' s) m (fun a s => Q a s ∧ Q' a s) (fun e s => E e s ∧ E' e s) :=
  of_runs (fun _ _ _ hs hm => ⟨h.ok hs.1 hm, h'.ok hs.2 hm⟩)
    (fun _ _ _ hs hm => ⟨h.error hs.1 hm, h'.error hs.2 hm⟩)

theorem pre (h : Triple P m Q E) (hP : ∀ s, P' s → P s) : Triple P' m Q E :=
  h.weaken hP (fun _ _ hQ => hQ) (fun _ _ hE => hE)

/-- A fact that holds of the states before is a hypothesis of the triple. -/
theorem of_pre {p : Prop} (hp : ∀ s, P s → p) (h : p → Triple P m Q E) : Triple P m Q E :=
  fun s hs => h (hp s hs) s hs

theorem pure {a : α} (h : ∀ s, P s → Q a s) : Triple P (Pure.pure a : EStateM ε σ α) Q E :=
  fun s hs => h s hs

theorem throw {e : ε} (h : ∀ s, P s → E e s) :
    Triple P (MonadExcept.throw e : EStateM ε σ α) Q E :=
  fun s hs => h s hs

theorem bind {f : α → EStateM ε σ β} {R : β → σ → Prop} (hm : Triple P m Q E)
    (hf : ∀ a, Triple (Q a) (f a) R E) : Triple P (m >>= f) R E := by
  intro s hs
  show match EStateM.bind m f s with
    | .ok b t => R b t
    | .error e t => E e t
  cases h : m s with
  | ok a t =>
      simp only [EStateM.bind, h]
      exact hf a t (hm.ok hs h)
  | error e t =>
      simp only [EStateM.bind, h]
      exact hm.error hs h

/-- Reading the state: what follows starts in the state that was read. -/
theorem get {f : σ → EStateM ε σ β} {R : β → σ → Prop}
    (h : ∀ s, P s → Triple (· = s) (f s) R E) : Triple P (MonadState.get >>= f) R E :=
  fun s hs => h s hs s rfl

theorem modify {g : σ → σ} {Q : PUnit → σ → Prop} (h : ∀ s, P s → Q ⟨⟩ (g s)) :
    Triple P (modify g : EStateM ε σ PUnit) Q E :=
  fun s hs => h s hs

theorem ite {c : Prop} [Decidable c] {m₁ m₂ : EStateM ε σ α} (h₁ : c → Triple P m₁ Q E)
    (h₂ : ¬c → Triple P m₂ Q E) : Triple P (if c then m₁ else m₂) Q E := by
  by_cases hc : c
  · rw [if_pos hc]
    exact h₁ hc
  · rw [if_neg hc]
    exact h₂ hc

/-- **Loop rule.** `I done acc` holds before each item, `done` being the items
that have been passed. -/
theorem foldlM {f : β → α → EStateM ε σ β} {I : List α → β → σ → Prop} {l : List α} {b : β}
    (hstep : ∀ done a rest b, l = done ++ a :: rest →
      Triple (I done b) (f b a) (I (done ++ [a])) E) :
    Triple (I [] b) (l.foldlM f b) (I l) E := by
  suffices h : ∀ rest done b, l = done ++ rest → Triple (I done b) (rest.foldlM f b) (I l) E from
    h l [] b rfl
  intro rest
  induction rest with
  | nil =>
      intro done b hl
      rw [List.append_nil] at hl
      subst hl
      exact pure fun _ hs => hs
  | cons a rest ih =>
      intro done b hl
      rw [List.foldlM_cons]
      refine bind (hstep done a rest b hl) fun b' => ih (done ++ [a]) b' ?_
      rw [hl, List.append_assoc, List.singleton_append]

end Triple

/-! ### Frames -/

/-- However `m` ends, the states before and after are related by `R`. -/
def Rel (R : σ → σ → Prop) (m : EStateM ε σ α) : Prop :=
  ∀ s, Triple (· = s) m (fun _ => R s) (fun _ => R s)

namespace Rel

variable {R : σ → σ → Prop} {m : EStateM ε σ α}

/-- A fact that a frame keeps holds after, however `m` ends. -/
theorem keeps (h : Rel R m) {P : σ → Prop} (hP : ∀ s t, R s t → P s → P t) :
    Triple P m (fun _ => P) (fun _ => P) :=
  .of_runs (fun s _ t hs hm => hP s t ((h s).ok rfl hm) hs)
    (fun s _ t hs hm => hP s t ((h s).error rfl hm) hs)

theorem mono {R' : σ → σ → Prop} (h : Rel R m) (hR : ∀ s t, R s t → R' s t) : Rel R' m :=
  fun s => (h s).weaken (fun _ hs => hs) (fun _ t => hR s t) (fun _ t => hR s t)

theorem modify {g : σ → σ} (h : ∀ s, R s (g s)) : Rel R (modify g : EStateM ε σ PUnit) := by
  intro s
  refine .modify fun t ht => ?_
  subst ht
  exact h t

theorem ite {c : Prop} [Decidable c] {m₁ m₂ : EStateM ε σ α} (h₁ : Rel R m₁) (h₂ : Rel R m₂) :
    Rel R (if c then m₁ else m₂) :=
  fun s => .ite (fun _ => h₁ s) fun _ => h₂ s

/-- Reading the state. -/
theorem get {f : σ → EStateM ε σ β} (h : ∀ s, Rel R (f s)) : Rel R (MonadState.get >>= f) :=
  fun _ => .get fun t ht => ht ▸ h t t

theorem pure [Std.Refl R] (a : α) : Rel R (Pure.pure a : EStateM ε σ α) :=
  fun s => .pure fun _ ht => ht ▸ refl_of R s

theorem throw [Std.Refl R] (e : ε) : Rel R (MonadExcept.throw e : EStateM ε σ α) :=
  fun s => .throw fun _ ht => ht ▸ refl_of R s

theorem bind [IsTrans σ R] {f : α → EStateM ε σ β} (hm : Rel R m) (hf : ∀ a, Rel R (f a)) :
    Rel R (m >>= f) := by
  intro s
  have hrest : ∀ a, Triple (R s) (f a) (fun _ => R s) (fun _ => R s) := fun a =>
    (hf a).keeps fun _ _ htu hst => trans_of R hst htu
  exact .bind (hm s) hrest

theorem foldlM [Std.Refl R] [IsTrans σ R] {f : β → α → EStateM ε σ β} {l : List α} {b : β}
    (h : ∀ b a, Rel R (f b a)) : Rel R (l.foldlM f b) := by
  induction l generalizing b with
  | nil => exact pure b
  | cons a l ih =>
      rw [List.foldlM_cons]
      exact bind (h b a) fun b' => ih

end Rel

/-! ### Two runs side by side -/

/-- The same value, or the same error, and related states. -/
inductive SameResult (R : σ → σ → Prop) :
    EStateM.Result ε σ α → EStateM.Result ε σ α → Prop
  | ok {a : α} {s t : σ} : R s t → SameResult R (.ok a s) (.ok a t)
  | error {e : ε} {s t : σ} : R s t → SameResult R (.error e s) (.error e t)

theorem SameResult.mono {R R' : σ → σ → Prop} {x y : EStateM.Result ε σ α}
    (h : SameResult R x y) (hR : ∀ s t, R s t → R' s t) : SameResult R' x y := by
  cases h with
  | ok h => exact .ok (hR _ _ h)
  | error h => exact .error (hR _ _ h)

/-- From related states, `m` and `m'` come to the same result. -/
def Related (R : σ → σ → Prop) (m m' : EStateM ε σ α) : Prop :=
  ∀ s t, R s t → SameResult R (m s) (m' t)

namespace Related

variable {R : σ → σ → Prop} {m m' : EStateM ε σ α}

theorem pure (a : α) : Related R (Pure.pure a : EStateM ε σ α) (Pure.pure a) :=
  fun _ _ h => .ok h

theorem throw (e : ε) :
    Related R (MonadExcept.throw e : EStateM ε σ α) (MonadExcept.throw e) :=
  fun _ _ h => .error h

theorem bind {f f' : α → EStateM ε σ β} (hm : Related R m m')
    (hf : ∀ a, Related R (f a) (f' a)) : Related R (m >>= f) (m' >>= f') := by
  intro s t h
  show SameResult R (EStateM.bind m f s) (EStateM.bind m' f' t)
  have hsame := hm s t h
  unfold EStateM.bind
  cases hrun : m s with
  | ok a u =>
      rw [hrun] at hsame
      cases hrun' : m' t with
      | ok a' u' =>
          rw [hrun'] at hsame
          cases hsame with
          | ok h => exact hf a u u' h
      | error e' u' =>
          rw [hrun'] at hsame
          cases hsame
  | error e u =>
      rw [hrun] at hsame
      cases hrun' : m' t with
      | ok a' u' =>
          rw [hrun'] at hsame
          cases hsame
      | error e' u' =>
          rw [hrun'] at hsame
          cases hsame with
          | error h => exact .error h

/-- Reading the states: what follows may depend on them as far as they agree. -/
theorem get {f f' : σ → EStateM ε σ β} (h : ∀ s t, R s t → Related R (f s) (f' t)) :
    Related R (MonadState.get >>= f) (MonadState.get >>= f') :=
  fun s t hst => h s t hst s t hst

theorem modify {g g' : σ → σ} (h : ∀ s t, R s t → R (g s) (g' t)) :
    Related R (modify g : EStateM ε σ PUnit) (modify g') :=
  fun s t hst => .ok (h s t hst)

theorem ite {c : Prop} [Decidable c] {m₁ m₁' m₂ m₂' : EStateM ε σ α} (h₁ : Related R m₁ m₁')
    (h₂ : Related R m₂ m₂') : Related R (if c then m₁ else m₂) (if c then m₁' else m₂') := by
  by_cases hc : c
  · simpa only [if_pos hc] using h₁
  · simpa only [if_neg hc] using h₂

end Related

/-! ### A program on a part of the state -/

/-- Run a program on one part of the state: `get` reads the part and `put`
writes it back, also when the program fails. -/
def zoom (get : τ → σ) (put : σ → τ → τ) (m : EStateM ε σ α) : EStateM ε τ α := fun t =>
  match m (get t) with
  | .ok a s => .ok a (put s t)
  | .error e s => .error e (put s t)

theorem Triple.zoom {get : τ → σ} {put : σ → τ → τ} {m : EStateM ε σ α} {P : τ → Prop}
    {Q : α → τ → Prop} {E : ε → τ → Prop}
    (h : ∀ t, P t → Triple (· = get t) m (fun a s => Q a (put s t)) (fun e s => E e (put s t))) :
    Triple P (zoom get put m) Q E := by
  intro t ht
  have hm := h t ht (get t) rfl
  show match LlmPager.Lib.zoom get put m t with
    | .ok a t => Q a t
    | .error e t => E e t
  cases hrun : m (get t) with
  | ok a s =>
      simp only [LlmPager.Lib.zoom, hrun]
      simpa only [hrun] using hm
  | error e s =>
      simp only [LlmPager.Lib.zoom, hrun]
      simpa only [hrun] using hm

theorem Rel.zoom {get : τ → σ} {put : σ → τ → τ} {m : EStateM ε σ α} {R : σ → σ → Prop}
    {S : τ → τ → Prop} (h : Rel R m) (hS : ∀ s t, R (get t) s → S t (put s t)) :
    Rel S (zoom get put m) := by
  intro t
  refine .zoom fun u hu => ?_
  subst hu
  exact (h (get u)).weaken (fun _ hs => hs) (fun _ s => hS s u) (fun _ s => hS s u)

/-- A part on which the states agree. -/
theorem Related.zoom {get : τ → σ} {put : σ → τ → τ} {m : EStateM ε σ α} {R : τ → τ → Prop}
    (hget : ∀ t u, R t u → get t = get u) (hput : ∀ t u s, R t u → R (put s t) (put s u)) :
    Related R (zoom get put m) (zoom get put m) := by
  intro t u h
  unfold LlmPager.Lib.zoom
  rw [hget t u h]
  cases m (get u) with
  | ok a s => exact .ok (hput t u s h)
  | error e s => exact .error (hput t u s h)

/-! ### Without a state -/

namespace Except

/-- A computation that succeeded, in its two parts. -/
theorem ok_parts {m : Except ε α} {rest : α → Except ε β} {b : β} (h : m >>= rest = .ok b) :
    ∃ a, m = .ok a ∧ rest a = .ok b := by
  cases m with
  | error e => cases h
  | ok a => exact ⟨a, rfl, h⟩

theorem ok_of_mapError {ε' : Type} {f : ε → ε'} {m : Except ε α} {a : α}
    (h : m.mapError f = .ok a) : m = .ok a := by
  cases m with
  | error e => cases h
  | ok a' =>
      cases h
      rfl

/-- The loop rule, of a loop that succeeded. -/
theorem foldlM_ok {f : β → α → Except ε β} {I : List α → β → Prop} {l : List α} {b b' : β}
    (hstep : ∀ done a rest b b', l = done ++ a :: rest → I done b → f b a = .ok b' →
      I (done ++ [a]) b')
    (hstart : I [] b) (h : l.foldlM f b = .ok b') : I l b' := by
  suffices hrun : ∀ rest done b, l = done ++ rest → I done b → rest.foldlM f b = .ok b' → I l b' from
    hrun l [] b rfl hstart h
  intro rest
  induction rest with
  | nil =>
      intro done b hl hb hrest
      cases hrest
      rw [hl, List.append_nil]
      exact hb
  | cons a rest ih =>
      intro done b hl hb hrest
      rw [List.foldlM_cons] at hrest
      obtain ⟨b₁, hb₁, hrest⟩ := ok_parts hrest
      refine ih (done ++ [a]) b₁ ?_ (hstep done a rest b b₁ hl hb hb₁) hrest
      rw [hl, List.append_assoc, List.singleton_append]

/-- A loop that has succeeded so far goes on. -/
theorem foldlM_concat {f : β → α → Except ε β} {l : List α} {a : α} {b b' b'' : β}
    (h : l.foldlM f b = .ok b') (hlast : f b' a = .ok b'') : (l ++ [a]).foldlM f b = .ok b'' := by
  rw [List.foldlM_append, h]
  show ([a] : List α).foldlM f b' = .ok b''
  rw [List.foldlM_cons, hlast]
  rfl

/-- Two computations that fail alike, with continuations that do. -/
theorem map_bind_congr {x y : Except ε α} {f g : α → Except ε β} {γ : Type} {k : β → γ}
    (hxy : x.map (fun _ => ()) = y.map (fun _ => ()))
    (hfg : ∀ a b, x = .ok a → y = .ok b → (f a).map k = (g b).map k) :
    (x >>= f).map k = (y >>= g).map k := by
  cases x with
  | error e =>
      cases y with
      | error e' => exact congrArg Except.error (Except.error.inj hxy)
      | ok b => cases hxy
  | ok a =>
      cases y with
      | error e' => cases hxy
      | ok b => exact hfg a b rfl rfl

end Except

theorem mapM_option_ok {f : α → Option β} {l : List α} {bs : List β} (h : l.mapM f = some bs) :
    l.map f = bs.map some := by
  induction l generalizing bs with
  | nil =>
      cases h
      rfl
  | cons a l ih =>
      rw [List.mapM_cons] at h
      obtain ⟨b, hb, h⟩ := Option.bind_eq_some_iff.mp h
      obtain ⟨bs', hbs', h⟩ := Option.bind_eq_some_iff.mp h
      cases h
      rw [List.map_cons, hb, ih hbs', List.map_cons]

end LlmPager.Lib
