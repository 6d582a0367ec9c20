import Mathlib

/-!
# LlmPager.Lib.Transition

Labelled transition systems, their runs, and the one induction every safety
proof over them uses.

A run carries a *guard* `C`: every step of it is taken from a state and with a
label that satisfy `C`. The unrestricted runs are those of the guard that is
always true; a guarded run is how a property that holds only while the
environment behaves (no worker dies, no lane is overwritten) is stated about
whole runs rather than about one step.
-/

namespace LlmPager.Lib

/-- A labelled transition system: its initial states and its steps. -/
structure System (σ α : Type*) where
  init : σ → Prop
  step : σ → α → σ → Prop

namespace System

variable {σ α : Type*} {S : System σ α} {C : σ → α → Prop}

/-- The system of a function: a label moves `s` to exactly `f s a`. -/
def ofFun (init : σ → Prop) (f : σ → α → σ) : System σ α where
  init := init
  step s a t := t = f s a

/-- The system of a partial function: a label with no image takes no step. -/
def ofPartial (init : σ → Prop) (f : σ → α → Option σ) : System σ α where
  init := init
  step s a t := f s a = some t

/-- `S.Run C s as t`: the labels `as` lead from `s` to `t`, every step meeting
the guard `C`. -/
inductive Run (S : System σ α) (C : σ → α → Prop) : σ → List α → σ → Prop
  | nil (s : σ) : Run S C s [] s
  | snoc {s t u : σ} {as : List α} {a : α} :
      Run S C s as t → C t a → S.step t a u → Run S C s (as ++ [a]) u

/-- The states that guarded runs from an initial state reach. -/
def Reachable (S : System σ α) (C : σ → α → Prop) (t : σ) : Prop :=
  ∃ s as, S.init s ∧ S.Run C s as t

/-- The guard that every step meets. -/
def anyStep : σ → α → Prop := fun _ _ => True

theorem Reachable.init {s : σ} (h : S.init s) : S.Reachable C s :=
  ⟨s, [], h, .nil s⟩

theorem Reachable.step {s t : σ} {a : α} (h : S.Reachable C s) (hC : C s a)
    (hst : S.step s a t) : S.Reachable C t := by
  obtain ⟨s₀, as, h₀, hrun⟩ := h
  exact ⟨s₀, as ++ [a], h₀, hrun.snoc hC hst⟩

/-- **Run rule.** What one guarded step preserves, a whole guarded run
preserves. -/
theorem Run.preserves {Inv : σ → Prop}
    (hstep : ∀ s a t, Inv s → C s a → S.step s a t → Inv t)
    {s t : σ} {as : List α} (h : S.Run C s as t) (hs : Inv s) : Inv t := by
  induction h with
  | nil => exact hs
  | snoc _ hC hst ih => exact hstep _ _ _ ih hC hst

/-- **History rule.** The run rule for a property of the state and of the labels
that led to it. -/
theorem Run.history {Inv : List α → σ → Prop} {s t : σ} {as : List α}
    (hstep : ∀ bs u a v, Inv bs u → C u a → S.step u a v → Inv (bs ++ [a]) v)
    (h : S.Run C s as t) (hs : Inv [] s) : Inv as t := by
  induction h with
  | nil => exact hs
  | snoc _ hC hst ih => exact hstep _ _ _ _ ih hC hst

/-- **Invariant rule.** An inductive invariant holds in every reachable
state. -/
theorem Reachable.invariant {Inv : σ → Prop} (hinit : ∀ s, S.init s → Inv s)
    (hstep : ∀ s a t, Inv s → C s a → S.step s a t → Inv t)
    {t : σ} (h : S.Reachable C t) : Inv t := by
  obtain ⟨s, as, hs, hrun⟩ := h
  exact hrun.preserves hstep (hinit s hs)

/-- A weaker guard reaches at least as much. -/
theorem Reachable.mono {C' : σ → α → Prop} (hC : ∀ s a, C s a → C' s a)
    {t : σ} (h : S.Reachable C t) : S.Reachable C' t :=
  h.invariant (fun _ hs => .init hs) (fun _ _ _ ih hc hst => ih.step (hC _ _ hc) hst)

/-- Iterating a partial function is a run, guarded by what its labels meet. -/
theorem run_of_foldlM {init : σ → Prop} {f : σ → α → Option σ} {s t : σ} {as : List α}
    (hC : ∀ s, ∀ a ∈ as, C s a) (h : as.foldlM f s = some t) :
    (ofPartial init f).Run C s as t := by
  induction as using List.reverseRecOn generalizing t with
  | nil =>
      cases h
      exact .nil s
  | append_singleton as a ih =>
      rw [List.foldlM_append] at h
      obtain ⟨u, hu, hlast⟩ := Option.bind_eq_some_iff.mp h
      obtain ⟨v, hv, hpure⟩ := Option.bind_eq_some_iff.mp hlast
      cases hpure
      refine (ih (fun s b hb => hC s b (List.mem_append_left _ hb)) hu).snoc (hC u a ?_) hv
      exact List.mem_append_right _ List.mem_cons_self

/-- Running a list of labels finds a reachable state. -/
theorem exists_reachable {init : σ → Prop} {s : σ} (f : σ → α → Option σ) (as : List α)
    (P : σ → Bool) (hs : init s) (hC : ∀ s, ∀ a ∈ as, C s a)
    (h : (as.foldlM f s).any P = true) :
    ∃ t, (ofPartial init f).Reachable C t ∧ P t = true := by
  obtain ⟨t, ht, hP⟩ := (Option.any_eq_true _ _).mp h
  exact ⟨t, ⟨s, as, hs, run_of_foldlM hC ht⟩, hP⟩

end System

end LlmPager.Lib
