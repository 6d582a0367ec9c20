import Mathlib

/-!
# LlmPager.Lib.Grid

Items that pass through stages, in either order.

Every stage keeps a state of its own, and an item carries a value. A call
`f l e s v` is item `e`, carrying `v`, at stage `l` whose state is `s`; it gives
the stage's next state and what the item carries on. The grid of calls can be
run stage by stage, all items through one stage before the next (`byStage`), or
item by item, one item through all stages before the next (`byItem`). A call
reads its own stage only, so the two orders are the same computation
(`byStage_eq_byItem`).

Where a stage's state is divided into places and an item stays in the place of
its key (`atKey`), the items of one key do not see the others (`byItem_filter`).
-/

namespace LlmPager.Lib

variable {L E S V : Type*}

/-! ### The two orders -/

section Orders

variable (f : L → E → S → V → S × V)

/-- All items through one stage. -/
def stageRow (l : L) : S → List (E × V) → S × List V
  | s, [] => (s, [])
  | s, (e, v) :: items =>
      let r := f l e s v
      let rest := stageRow l r.1 items
      (rest.1, r.2 :: rest.2)

@[simp] theorem length_stageRow (l : L) (s : S) (items : List (E × V)) :
    (stageRow f l s items).2.length = items.length := by
  induction items generalizing s with
  | nil => rfl
  | cons item items ih => simp [stageRow, ih]

/-- What a stage does to the values afterwards can be done to the row. -/
theorem stageRow_map {f g : L → E → S → V → S × V} {post : V → V} {l : L}
    (h : ∀ e s v, f l e s v = ((g l e s v).1, post (g l e s v).2)) (s : S)
    (items : List (E × V)) :
    stageRow f l s items = ((stageRow g l s items).1, (stageRow g l s items).2.map post) := by
  induction items generalizing s with
  | nil => rfl
  | cons item items ih => simp [stageRow, h, ih]

variable [DecidableEq L]

/-- One item through all stages. -/
def column (e : E) : List L → (L → S) → V → (L → S) × V
  | [], σ, v => (σ, v)
  | l :: ls, σ, v =>
      let r := f l e (σ l) v
      column e ls (Function.update σ l r.1) r.2

/-- Stage by stage. -/
def byStage : List L → (L → S) → List (E × V) → (L → S) × List V
  | [], σ, items => (σ, items.map (·.2))
  | l :: ls, σ, items =>
      let r := stageRow f l (σ l) items
      byStage ls (Function.update σ l r.1) ((items.map (·.1)).zip r.2)

/-- Item by item. -/
def byItem (ls : List L) : (L → S) → List (E × V) → (L → S) × List V
  | σ, [] => (σ, [])
  | σ, (e, v) :: items =>
      let r := column f e ls σ v
      let rest := byItem ls r.1 items
      (rest.1, r.2 :: rest.2)

variable {f}

@[simp] theorem length_byItem (ls : List L) (σ : L → S) (items : List (E × V)) :
    (byItem f ls σ items).2.length = items.length := by
  induction items generalizing σ with
  | nil => rfl
  | cons item items ih => simp [byItem, ih]

variable {l : L} {ls : List L} {σ : L → S} {e : E} {v : V} {s : S}

/-- A column leaves the stages it does not pass through as they are. -/
theorem column_apply (h : l ∉ ls) : (column f e ls σ v).1 l = σ l := by
  induction ls generalizing σ v with
  | nil => rfl
  | cons l' ls ih =>
      rw [List.mem_cons, not_or] at h
      show (column f e ls _ _).1 l = σ l
      rw [ih h.2, Function.update_of_ne h.1]

/-- Nor does it read them. -/
theorem column_update (h : l ∉ ls) :
    column f e ls (Function.update σ l s) v =
      (Function.update (column f e ls σ v).1 l s, (column f e ls σ v).2) := by
  induction ls generalizing σ v with
  | nil => rfl
  | cons l' ls ih =>
      rw [List.mem_cons, not_or] at h
      show column f e ls
          (Function.update (Function.update σ l s) l' (f l' e (Function.update σ l s l') v).1)
          (f l' e (Function.update σ l s l') v).2 = _
      rw [Function.update_of_ne (Ne.symm h.1), Function.update_comm h.1, ih h.2]
      rfl

/-- The first stage of every column can be done before all the rest. -/
theorem byItem_cons (h : l ∉ ls) (items : List (E × V)) :
    byItem f (l :: ls) σ items =
      byItem f ls (Function.update σ l (stageRow f l (σ l) items).1)
        ((items.map (·.1)).zip (stageRow f l (σ l) items).2) := by
  induction items generalizing σ with
  | nil =>
      show (σ, ([] : List V)) = (Function.update σ l (σ l), [])
      rw [Function.update_eq_self]
  | cons item items ih =>
      obtain ⟨e, v⟩ := item
      have hcol : column f e (l :: ls) σ v =
          (Function.update (column f e ls σ (f l e (σ l) v).2).1 l (f l e (σ l) v).1,
            (column f e ls σ (f l e (σ l) v).2).2) := column_update h
      -- the other items start where this one's column ends, its first stage included
      simp only [byItem, hcol, ih, stageRow, List.map_cons, List.zip_cons_cons, column_update h,
        Function.update_self, Function.update_idem]

/-- The two orders give the same states and the same values. -/
theorem byStage_eq_byItem (h : ls.Nodup) (σ : L → S) (items : List (E × V)) :
    byStage f ls σ items = byItem f ls σ items := by
  induction ls generalizing σ items with
  | nil =>
      induction items generalizing σ with
      | nil => rfl
      | cons item items ih =>
          have hrest : (σ, items.map (·.2)) = byItem f [] σ items := ih σ
          simp [byStage, byItem, column, ← hrest]
  | cons l ls ih =>
      rw [byItem_cons (List.nodup_cons.mp h).1]
      exact ih (List.nodup_cons.mp h).2 _ _

end Orders

/-! ### Places -/

section Places

variable {K T : Type*}

/-- The states agree in one place, at every stage. -/
def AgreeAt (k : K) (σ τ : L → K → T) : Prop := ∀ l, σ l k = τ l k

theorem AgreeAt.symm {k : K} {σ τ : L → K → T} (h : AgreeAt k σ τ) : AgreeAt k τ σ :=
  fun l => (h l).symm

theorem AgreeAt.trans {k : K} {σ τ ρ : L → K → T} (h : AgreeAt k σ τ) (h' : AgreeAt k τ ρ) :
    AgreeAt k σ ρ :=
  fun l => (h l).trans (h' l)

variable [DecidableEq K]

/-- A call that stays in the place of its item's key. -/
def atKey (g : L → E → T → V → T × V) (key : E → K) (l : L) (e : E) (s : K → T) (v : V) :
    (K → T) × V :=
  let r := g l e (s (key e)) v
  (Function.update s (key e) r.1, r.2)

variable [DecidableEq L] {g : L → E → T → V → T × V} {key : E → K} {k : K} {σ τ : L → K → T}
  {e : E} {ls : List L}

/-- A column does the same to two states that agree where its item is. -/
theorem column_congr (hk : key e = k) (h : AgreeAt k σ τ) (v : V) :
    AgreeAt k (column (atKey g key) e ls σ v).1 (column (atKey g key) e ls τ v).1 ∧
      (column (atKey g key) e ls σ v).2 = (column (atKey g key) e ls τ v).2 := by
  subst hk
  induction ls generalizing σ τ v with
  | nil => exact ⟨h, rfl⟩
  | cons l ls ih =>
      have hcall : g l e (τ l (key e)) v = g l e (σ l (key e)) v := by rw [h l]
      simp only [column, atKey, hcall]
      apply ih
      intro l'
      by_cases hl : l' = l
      · simp [hl]
      · simpa [Function.update_of_ne hl] using h l'

/-- A column changes nothing anywhere else. -/
theorem column_elsewhere (hk : key e ≠ k) (v : V) :
    AgreeAt k (column (atKey g key) e ls σ v).1 σ := by
  induction ls generalizing σ v with
  | nil => exact fun _ => rfl
  | cons l ls ih =>
      apply AgreeAt.trans (ih _)
      intro l'
      by_cases hl : l' = l
      · simp [hl, atKey, Function.update_of_ne (Ne.symm hk)]
      · simp [Function.update_of_ne hl]

/-- The items of one key, run without the others, come to the same. -/
theorem byItem_filter (h : AgreeAt k σ τ) (items : List (E × V)) :
    AgreeAt k (byItem (atKey g key) ls σ items).1
        (byItem (atKey g key) ls τ (items.filter fun i => key i.1 = k)).1 ∧
      ((items.map (·.1)).zip (byItem (atKey g key) ls σ items).2).filter (fun i => key i.1 = k) =
        ((items.filter fun i => key i.1 = k).map (·.1)).zip
          (byItem (atKey g key) ls τ (items.filter fun i => key i.1 = k)).2 := by
  induction items generalizing σ τ with
  | nil => exact ⟨h, rfl⟩
  | cons item items ih =>
      obtain ⟨e, v⟩ := item
      by_cases hk : key e = k
      · obtain ⟨hstates, hvalue⟩ := column_congr hk h v
        have hrest := ih hstates
        simp only [hk, decide_true, List.filter_cons_of_pos, byItem, List.map_cons,
          List.zip_cons_cons]
        exact ⟨hrest.1, by rw [hrest.2, hvalue]⟩
      · have hstates : AgreeAt k (column (atKey g key) e ls σ v).1 τ :=
          (column_elsewhere hk v).trans h
        have hrest := ih hstates
        simpa [hk, byItem] using hrest

end Places

end LlmPager.Lib
