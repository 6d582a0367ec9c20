import LlmPager.Lib.Transition

/-!
# LlmPager.Lib.Thread

One thread among others: its program, what it may meet, and the rules to prove
it safe.

A program (`Prog`) is a tree of commands. A `Machine` says what one turn at a
command does — return, or go on waiting — and what everybody else may do to
the state in between; both leave some choice to the schedule. `Safe` holds of a program and a state when, whatever
happens between and during its commands, every command it comes to meets an
obligation `ok`, and a return meets the postcondition.

`Triple` is the Hoare form of `Safe`, with one rule per way of building a
program (`ret`, `bind`, `cmd`, `foldlM`). `Server` runs a thread that serves one
call after another, and `Server.reachable_ok` turns triples about the calls
into a statement about every reachable state.
-/

namespace LlmPager.Lib

/-- A program over commands with results `Res`. -/
inductive Prog {Cmd : Type} (Res : Cmd → Type) (α : Type) : Type
  | ret (a : α)
  | cmd (c : Cmd) (k : Res c → Prog Res α)

namespace Prog

variable {Cmd : Type} {Res : Cmd → Type} {α β γ : Type}

def bind : Prog Res α → (α → Prog Res β) → Prog Res β
  | ret a, f => f a
  | cmd c k, f => cmd c fun r => (k r).bind f

instance : Monad (Prog Res) where
  pure := ret
  bind := bind

/-- The program that gives one command. -/
def lift (c : Cmd) : Prog Res (Res c) := cmd c ret

theorem bind_ret (p : Prog Res α) : p.bind ret = p := by
  induction p with
  | ret a => rfl
  | cmd c k ih => exact congrArg (cmd c) (funext ih)

theorem bind_bind (p : Prog Res α) (f : α → Prog Res β) (h : β → Prog Res γ) :
    (p.bind f).bind h = p.bind fun a => (f a).bind h := by
  induction p with
  | ret a => rfl
  | cmd c k ih => exact congrArg (cmd c) (funext ih)

instance : LawfulMonad (Prog Res) :=
  LawfulMonad.mk' _ bind_ret (fun _ _ => rfl) bind_bind

section

variable {Cmd' : Type} {Res' : Cmd' → Type}

/-- The program with every command carried out by a program over other
commands. -/
def handle (g : (c : Cmd) → Prog Res' (Res c)) : Prog Res α → Prog Res' α
  | ret a => pure a
  | cmd c k => g c >>= fun r => (k r).handle g

variable {g : (c : Cmd) → Prog Res' (Res c)}

@[simp] theorem handle_pure (a : α) : (pure a : Prog Res α).handle g = pure a := rfl

@[simp] theorem handle_lift (c : Cmd) : (lift c : Prog Res (Res c)).handle g = g c :=
  bind_pure (g c)

@[simp] theorem handle_bind (p : Prog Res α) (f : α → Prog Res β) :
    (p >>= f).handle g = p.handle g >>= fun a => (f a).handle g := by
  induction p with
  | ret a => rfl
  | cmd c k ih =>
      show (g c >>= fun r => (k r >>= f).handle g) = (g c >>= fun r => (k r).handle g) >>= _
      rw [bind_assoc]
      exact congrArg _ (funext ih)

end

end Prog

/-- The world of a thread: what everybody else may do, and what one turn at a
command does — no result when the command goes on waiting. `ε` and `τ` are the
choices of the schedule. -/
structure Machine (σ : Type) (Cmd : Type) (Res : Cmd → Type) (ε τ : Type) where
  env : σ → ε → Option σ
  turn : σ → τ → (c : Cmd) → Option (Option (Res c) × σ)

namespace Machine

variable {σ Cmd ε τ : Type} {Res : Cmd → Type} {α β γ : Type} {M : Machine σ Cmd Res ε τ}
  {ok : σ → Cmd → Prop} {P P' : σ → Prop} {Q Q' : α → σ → Prop}

/-- A move that leaves the thread at command `c`. -/
def Waits (M : Machine σ Cmd Res ε τ) (c : Cmd) (s s' : σ) : Prop :=
  (∃ e, M.env s e = some s') ∨ ∃ t, M.turn s t c = some (none, s')

/-- Whatever the others do and however the commands answer, each command the
program comes to meets `ok`, and its return meets `Q`. -/
def Safe (M : Machine σ Cmd Res ε τ) (ok : σ → Cmd → Prop) (Q : α → σ → Prop) :
    Prog Res α → σ → Prop
  | .ret a, s => Q a s
  | .cmd c k, s => ∀ s', Relation.ReflTransGen (M.Waits c) s s' →
      ok s' c ∧ ∀ t r s'', M.turn s' t c = some (some r, s'') → Safe M ok Q (k r) s''

/-- From every state that meets `P`, the program is safe. -/
def Triple (M : Machine σ Cmd Res ε τ) (ok : σ → Cmd → Prop) (P : σ → Prop) (p : Prog Res α)
    (Q : α → σ → Prop) : Prop :=
  ∀ s, P s → M.Safe ok Q p s

/-- The command can be brought to an answer, while `alive`. -/
def Answerable (M : Machine σ Cmd Res ε τ) (alive : σ → Prop) (s : σ) (c : Cmd) : Prop :=
  alive s → ∃ s₁ t r s₂, Relation.ReflTransGen (M.Waits c) s s₁ ∧
    M.turn s₁ t c = some (some r, s₂) ∧ alive s₂

theorem Answerable.prompt {alive : σ → Prop} {s : σ} {c : Cmd}
    (h : alive s → ∃ t r s', M.turn s t c = some (some r, s') ∧ alive s') :
    M.Answerable alive s c := by
  intro hs
  obtain ⟨t, r, s', ht, hs'⟩ := h hs
  exact ⟨s, t, r, s', .refl, ht, hs'⟩

/-! ### Rules -/

theorem Safe.weaken {p : Prog Res α} {s : σ} (h : M.Safe ok Q p s)
    (hQ : ∀ a s, Q a s → Q' a s) : M.Safe ok Q' p s := by
  induction p generalizing s with
  | ret a => exact hQ a s h
  | cmd c k ih =>
      intro s' hs'
      obtain ⟨hok, hnext⟩ := h s' hs'
      exact ⟨hok, fun t r s'' ht => ih r (hnext t r s'' ht)⟩

theorem Safe.bind {p : Prog Res α} {f : α → Prog Res β} {R : β → σ → Prop} {s : σ}
    (h : M.Safe ok Q p s) (hf : ∀ a s, Q a s → M.Safe ok R (f a) s) :
    M.Safe ok R (p >>= f) s := by
  induction p generalizing s with
  | ret a => exact hf a s h
  | cmd c k ih =>
      intro s' hs'
      obtain ⟨hok, hnext⟩ := h s' hs'
      exact ⟨hok, fun t r s'' ht => ih r (hnext t r s'' ht)⟩

/-- **Handler rule.** A program is safe once its commands are carried out, if each
of them is. -/
theorem Safe.handle {Cmd' ε' τ' : Type} {Res' : Cmd' → Type} {M' : Machine σ Cmd' Res' ε' τ'}
    {ok' : σ → Cmd' → Prop} {g : (c : Cmd) → Prog Res' (Res c)}
    (hg : ∀ c (R : Res c → σ → Prop) s, M.Safe ok R (Prog.lift c) s → M'.Safe ok' R (g c) s)
    {p : Prog Res α} {s : σ} (h : M.Safe ok Q p s) : M'.Safe ok' Q (p.handle g) s := by
  induction p generalizing s with
  | ret a => exact h
  | cmd c k ih =>
      have hc : M.Safe ok (fun r s' => M.Safe ok Q (k r) s') (Prog.lift c) s := h
      exact (hg c _ s hc).bind fun r s' hr => ih r hr

theorem Triple.ret {a : α} (h : ∀ s, P s → Q a s) : M.Triple ok P (pure a : Prog Res α) Q :=
  fun s hs => h s hs

theorem Triple.bind {p : Prog Res α} {f : α → Prog Res β} {R : β → σ → Prop}
    (hp : M.Triple ok P p Q) (hf : ∀ a, M.Triple ok (Q a) (f a) R) :
    M.Triple ok P (p >>= f) R :=
  fun s hs => (hp s hs).bind fun a s' ha => hf a s' ha

theorem Triple.weaken {p : Prog Res α} (h : M.Triple ok P p Q) (hP : ∀ s, P' s → P s)
    (hQ : ∀ a s, Q a s → Q' a s) : M.Triple ok P' p Q' :=
  fun s hs => (h s (hP s hs)).weaken hQ

/-- **Command rule.** The precondition must survive what can happen while the
thread is at the command. -/
theorem Triple.cmd {c : Cmd} {Q : Res c → σ → Prop}
    (hstable : ∀ s s', P s → M.Waits c s s' → P s') (hok : ∀ s, P s → ok s c)
    (hpost : ∀ s t r s', P s → M.turn s t c = some (some r, s') → Q r s') :
    M.Triple ok P (Prog.lift c : Prog Res (Res c)) Q := by
  intro s hs s' hmoves
  have hs' : P s' := by
    induction hmoves with
    | refl => exact hs
    | tail _ hmove ih => exact hstable _ _ ih hmove
  exact ⟨hok s' hs', fun t r s'' ht => hpost s' t r s'' hs' ht⟩

/-- A command that never waits needs a precondition that only the others cannot
break. -/
theorem Triple.prompt {c : Cmd} {Q : Res c → σ → Prop}
    (henv : ∀ s s' e, P s → M.env s e = some s' → P s') (hok : ∀ s, P s → ok s c)
    (hprompt : ∀ s t s', M.turn s t c ≠ some (none, s'))
    (hpost : ∀ s t r s', P s → M.turn s t c = some (some r, s') → Q r s') :
    M.Triple ok P (Prog.lift c : Prog Res (Res c)) Q := by
  refine .cmd (fun s s' hs hmove => ?_) hok hpost
  rcases hmove with ⟨e, he⟩ | ⟨t, ht⟩
  · exact henv s s' e hs he
  · exact absurd ht (hprompt s t s')

/-- What a proved command answers. -/
theorem Triple.answer {c : Cmd} {Q : Res c → σ → Prop} {s s' : σ} {t : τ} {r : Res c}
    (h : M.Triple ok P (Prog.lift c : Prog Res (Res c)) Q) (hs : P s)
    (ht : M.turn s t c = some (some r, s')) : Q r s' :=
  (h s hs s .refl).2 t r s' ht

/-- **Loop rule.** The invariant is indexed by the items still to come. -/
theorem Triple.foldlM {f : γ → β → Prog Res γ} {I : List β → γ → σ → Prop} (l : List β)
    (g : γ) (h : ∀ x rest g, M.Triple ok (I (x :: rest) g) (f g x) (I rest)) :
    M.Triple ok (I l g) (l.foldlM f g) (I []) := by
  induction l generalizing g with
  | nil => exact .ret fun _ hs => hs
  | cons x rest ih => exact (h x rest g).bind fun g' => ih g'

theorem Triple.forM {f : β → Prog Res PUnit} {I : List β → σ → Prop} (l : List β)
    (h : ∀ x rest, M.Triple ok (I (x :: rest)) (f x) fun _ => I rest) :
    M.Triple ok (I l) (l.forM f) fun _ => I [] := by
  induction l with
  | nil => exact .ret fun _ hs => hs
  | cons x rest ih => exact (h x rest).bind fun _ => ih

end Machine

/-! ### A thread that serves calls -/

/-- Between two calls, with the thread's own data, or inside one. -/
inductive Phase {Cmd : Type} (Res : Cmd → Type) (δ : Type)
  | idle (d : δ)
  | busy (p : Prog Res δ)

/-- What moves next: a call comes in, the thread takes a turn, its call
returns, or somebody else moves. -/
inductive ServerAct (ι ε τ : Type)
  | call (x : ι)
  | turn (t : τ)
  | ret
  | env (e : ε)

namespace Server

variable {σ Cmd δ ι ε τ : Type} {Res : Cmd → Type} {M : Machine σ Cmd Res ε τ}
  {body : ι → δ → Prog Res δ} {ok : σ → Cmd → Prop} {P : δ → σ → Prop}

/-- One step of a thread that serves calls `body x` on its data, among
others. -/
def step (M : Machine σ Cmd Res ε τ) (body : ι → δ → Prog Res δ) :
    σ × Phase Res δ → ServerAct ι ε τ → Option (σ × Phase Res δ)
  | (s, .idle d), .call x => some (s, .busy (body x d))
  | (s, .busy (.cmd c k)), .turn t => do
      match ← M.turn s t c with
      | (none, s') => some (s', .busy (.cmd c k))
      | (some r, s') => some (s', .busy (k r))
  | (s, .busy (.ret d)), .ret => some (s, .idle d)
  | (s, ph), .env e => do
      let s' ← M.env s e
      some (s', ph)
  | _, _ => none

def system (M : Machine σ Cmd Res ε τ) (body : ι → δ → Prog Res δ) (init : σ → δ → Prop) :
    System (σ × Phase Res δ) (ServerAct ι ε τ) :=
  .ofPartial (fun c => ∃ d, c.2 = .idle d ∧ init c.1 d) (step M body)

/-- Safe inside a call, at rest between two. -/
def Inv (M : Machine σ Cmd Res ε τ) (ok : σ → Cmd → Prop) (P : δ → σ → Prop) :
    σ × Phase Res δ → Prop
  | (s, .idle d) => P d s
  | (s, .busy p) => M.Safe ok P p s

/-- What others do cannot break safety. -/
theorem Inv.env {s s' : σ} {ph : Phase Res δ} {e : ε}
    (henv : ∀ d s s' e, P d s → M.env s e = some s' → P d s')
    (h : Inv M ok P (s, ph)) (he : M.env s e = some s') : Inv M ok P (s', ph) := by
  cases ph with
  | idle d => exact henv d s s' e h he
  | busy p =>
      cases p with
      | ret d => exact henv d s s' e h he
      | cmd c k =>
          intro s'' hmoves
          exact h s'' (.head (.inl ⟨e, he⟩) hmoves)

/-- One turn of the thread keeps it safe. -/
theorem Inv.turn {s : σ} {c : Cmd} {k : Res c → Prog Res δ} {t : τ} {c' : σ × Phase Res δ}
    (h : Inv M ok P (s, .busy (.cmd c k)))
    (hstep : step M body (s, .busy (.cmd c k)) (.turn t) = some c') : Inv M ok P c' := by
  obtain ⟨⟨r, s'⟩, ht, hstep⟩ := Option.bind_eq_some_iff.mp hstep
  cases r with
  | none =>
      cases hstep
      intro s'' hmoves
      exact h s'' (.head (.inr ⟨t, ht⟩) hmoves)
  | some r =>
      cases hstep
      exact (h s .refl).2 t r s' ht

/-- What a step does to the state, whatever the calls are. -/
theorem step_state {s s' : σ} {ph ph' : Phase Res δ} {a : ServerAct ι ε τ}
    (h : step M body (s, ph) a = some (s', ph')) :
    s' = s ∨ (∃ t c k r, a = .turn t ∧ ph = .busy (.cmd c k) ∧ M.turn s t c = some (r, s')) ∨
      ∃ e, a = .env e ∧ M.env s e = some s' := by
  cases a with
  | call x =>
      cases ph with
      | idle d =>
          cases h
          exact .inl rfl
      | busy p => cases p <;> cases h
  | turn t =>
      cases ph with
      | idle d => cases h
      | busy p =>
          cases p with
          | ret d => cases h
          | cmd c k =>
              obtain ⟨⟨r, s''⟩, ht, h⟩ := Option.bind_eq_some_iff.mp h
              cases r <;>
              · cases h
                exact .inr (.inl ⟨t, c, k, _, rfl, rfl, ht⟩)
  | ret =>
      cases ph with
      | idle d => cases h
      | busy p =>
          cases p <;> cases h
          exact .inl rfl
  | env e =>
      cases ph with
      | idle d =>
          obtain ⟨s'', he, h⟩ := Option.bind_eq_some_iff.mp h
          cases h
          exact .inr (.inr ⟨e, rfl, he⟩)
      | busy p =>
          cases p <;>
          · obtain ⟨s'', he, h⟩ := Option.bind_eq_some_iff.mp h
            cases h
            exact .inr (.inr ⟨e, rfl, he⟩)

/-- A way of waiting is a schedule. -/
theorem exists_schedule (body : ι → δ → Prog Res δ) {c : Cmd} (k : Res c → Prog Res δ) {s s' : σ}
    (h : Relation.ReflTransGen (M.Waits c) s s') :
    ∃ as : List (ServerAct ι ε τ),
      as.foldlM (step M body) (s, .busy (.cmd c k)) = some (s', .busy (.cmd c k)) := by
  induction h using Relation.ReflTransGen.head_induction_on with
  | refl => exact ⟨[], rfl⟩
  | head hmove _ ih =>
      obtain ⟨as, has⟩ := ih
      rcases hmove with ⟨e, he⟩ | ⟨t, ht⟩
      · refine ⟨.env e :: as, ?_⟩
        rw [List.foldlM_cons, step, he]
        exact has
      · refine ⟨.turn t :: as, ?_⟩
        rw [List.foldlM_cons, step, ht]
        exact has

/-- **Progress rule.** If every command the thread may come to can be answered,
its call can be brought to a return. -/
theorem Inv.returns (body : ι → δ → Prog Res δ) {alive : σ → Prop} {s : σ} {ph : Phase Res δ}
    (h : Inv M ok P (s, ph))
    (hok : ∀ s c, ok s c → M.Answerable alive s c) (hs : alive s) :
    ∃ (as : List (ServerAct ι ε τ)) (s' : σ) (d : δ),
      as.foldlM (step M body) (s, ph) = some (s', .idle d) ∧ P d s' ∧ alive s' := by
  cases ph with
  | idle d => exact ⟨[], s, d, rfl, h, hs⟩
  | busy p =>
      induction p generalizing s with
      | ret d => exact ⟨[.ret], s, d, rfl, h, hs⟩
      | cmd c k ih =>
          obtain ⟨s₁, t, r, s₂, hmoves, ht, hs₂⟩ := hok s c (h s .refl).1 hs
          obtain ⟨as, has⟩ := exists_schedule body k hmoves
          obtain ⟨bs, s', d, hbs, hd⟩ := ih r hs₂ ((h s₁ hmoves).2 t r s₂ ht)
          refine ⟨as ++ .turn t :: bs, s', d, ?_, hd⟩
          rw [List.foldlM_append, has]
          show (.turn t :: bs).foldlM (step M body) (s₁, .busy (.cmd c k)) = _
          rw [List.foldlM_cons, step, ht]
          exact hbs

/-- **Serving rule.** If others cannot disturb `P`, and every call the guard
lets in is safe from `P` to `P`, then every reachable state is. -/
theorem reachable_inv {init : σ → δ → Prop} {C : σ × Phase Res δ → ServerAct ι ε τ → Prop}
    (hinit : ∀ s d, init s d → P d s) (henv : ∀ d s s' e, P d s → M.env s e = some s' → P d s')
    (hcall : ∀ s d x, P d s → C (s, .idle d) (.call x) → M.Safe ok P (body x d) s)
    {c : σ × Phase Res δ} (h : (system M body init).Reachable C c) : Inv M ok P c := by
  refine h.invariant ?_ ?_
  · intro ⟨s, ph⟩ ⟨d, hph, hs⟩
    cases hph
    exact hinit s d hs
  · intro ⟨s, ph⟩ a c' hc hC hstep
    cases a with
    | call x =>
        cases ph with
        | idle d =>
            cases hstep
            exact hcall s d x hc hC
        | busy p => cases p <;> cases hstep
    | turn t =>
        cases ph with
        | idle d => cases hstep
        | busy p =>
            cases p with
            | ret d => cases hstep
            | cmd c k => exact hc.turn hstep
    | ret =>
        cases ph with
        | idle d => cases hstep
        | busy p =>
            cases p <;> cases hstep
            exact hc
    | env e =>
        have hmove : ∃ s', M.env s e = some s' ∧ c' = (s', ph) := by
          cases ph with
          | idle d =>
              obtain ⟨s', he, hstep⟩ := Option.bind_eq_some_iff.mp hstep
              exact ⟨s', he, (Option.some.inj hstep).symm⟩
          | busy p =>
              cases p <;>
              · obtain ⟨s', he, hstep⟩ := Option.bind_eq_some_iff.mp hstep
                exact ⟨s', he, (Option.some.inj hstep).symm⟩
        obtain ⟨s', he, rfl⟩ := hmove
        exact hc.env henv he

/-- A command the thread is at meets its obligation. -/
theorem reachable_ok {init : σ → δ → Prop} {C : σ × Phase Res δ → ServerAct ι ε τ → Prop}
    (hinit : ∀ s d, init s d → P d s) (henv : ∀ d s s' e, P d s → M.env s e = some s' → P d s')
    (hcall : ∀ s d x, P d s → C (s, .idle d) (.call x) → M.Safe ok P (body x d) s)
    {s : σ} {cmd : Cmd} {k : Res cmd → Prog Res δ}
    (h : (system M body init).Reachable C (s, .busy (.cmd cmd k))) : ok s cmd :=
  (reachable_inv hinit henv hcall h s .refl).1

end Server

end LlmPager.Lib
