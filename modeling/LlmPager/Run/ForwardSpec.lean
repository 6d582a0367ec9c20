import LlmPager.Run.Forward

/-!
# LlmPager.Run.ForwardSpec

What one call of `step` or `step_multi` computes, as a grid of calls of its
entries on its layers (`Stack.call`): `step` is a column, `step_multi` the whole
grid, stage by stage. The waves of a layer give every entry the sum over its
picks, whatever their number (`Stack.waves_run`).
-/

namespace LlmPager.Forward

open Lib (atKey chunks sortedUnion stageRow column byStage byItem)
open Serve (Entry ServeError chunkCap)

variable {V M F : Type}

/-! ### Requests -/

/-- The computation comes to `a` whatever the pager answers, unless it ends in an
error that is `allowed`, or in the pager where the pager fails a request. -/
def Comes {α : Type} (allowed : StepError → Prop) (x : Paged α) (a : α) : Prop :=
  ∀ answers, (∃ n, x answers = .ok (a, fun i => answers (i + n))) ∨
    ∃ err, x answers = .error err ∧
      (allowed err ∨ err.inPager = true ∧ ∃ n, answers n ≠ .served)

namespace Comes

variable {α β : Type} {allowed : StepError → Prop} {a : α} {b : β}

theorem pure (a : α) : Comes allowed (pure a) a := fun _ => .inl ⟨0, rfl⟩

/-- What makes no requests. -/
theorem lift {x : Except StepError α} (h : x = .ok a) : Comes allowed (liftM x) a := by
  intro answers
  subst h
  exact .inl ⟨0, rfl⟩

theorem throw {err : StepError} (h : allowed err) : Comes allowed (throw err) a :=
  fun _ => .inr ⟨err, rfl, .inl h⟩

theorem bind {x : Paged α} {f : α → Paged β} (hx : Comes allowed x a)
    (hf : Comes allowed (f a) b) : Comes allowed (x >>= f) b := by
  intro answers
  rcases hx answers with ⟨n, hok⟩ | ⟨err, herr, hwhy⟩
  · have hrest : (x >>= f) answers = f a fun i => answers (i + n) := by
      simp [Bind.bind, StateT.bind, Except.bind, hok]
    rw [hrest]
    rcases hf fun i => answers (i + n) with ⟨k, hok'⟩ | ⟨err, herr, hwhy⟩
    · exact .inl ⟨k + n, by simpa [add_assoc] using hok'⟩
    · exact .inr ⟨err, herr, hwhy.imp_right fun h => ⟨h.1, h.2.choose + n, h.2.choose_spec⟩⟩
  · exact .inr ⟨err, by simp [Bind.bind, StateT.bind, Except.bind, herr], hwhy⟩

theorem mono {allowed' : StepError → Prop} {x : Paged α} (h : Comes allowed x a)
    (himp : ∀ err, allowed err → allowed' err) : Comes allowed' x a := by
  intro answers
  rcases h answers with hok | ⟨err, herr, hwhy⟩
  · exact .inl hok
  · exact .inr ⟨err, herr, hwhy.imp_left (himp err)⟩

/-- Where the pager serves every request. -/
theorem served {x : Paged α} (h : Comes allowed x a) {answers : Answers}
    (hserved : ∀ n, answers n = .served) :
    (∃ rest, x answers = .ok (a, rest)) ∨ ∃ err, x answers = .error err ∧ allowed err := by
  rcases h answers with ⟨n, hok⟩ | ⟨err, herr, hallowed | ⟨-, n, hn⟩⟩
  · exact .inl ⟨_, hok⟩
  · exact .inr ⟨err, herr, hallowed⟩
  · exact absurd (hserved n) hn

end Comes

/-- Nothing but the pager stops the computation. -/
abbrev Never (_ : StepError) : Prop := False

theorem request_of_le {allowed : StepError → Prop} {pool : Pool} (layer : Nat)
    (experts : List Nat) (h : experts.length ≤ pool.capacity) :
    Comes allowed (request pool layer experts) (experts.map (⟨layer, ·⟩)) := by
  intro answers
  have hroom : ¬ pool.capacity < experts.length := Nat.not_lt.mpr h
  cases hanswer : answers 0 with
  | served => exact .inl ⟨1, by simp [request, hroom, hanswer]⟩
  | deadlock =>
      exact .inr ⟨.deadlock pool.slots layer, by simp [request, hroom, hanswer],
        .inr ⟨rfl, 0, by simp [hanswer]⟩⟩
  | workersGone =>
      exact .inr ⟨.workersGone, by simp [request, hroom, hanswer],
        .inr ⟨rfl, 0, by simp [hanswer]⟩⟩

theorem request_of_lt {allowed : StepError → Prop} {pool : Pool} (layer : Nat)
    (experts : List Nat) (h : pool.capacity < experts.length)
    (hallowed : allowed (.request experts.length pool.capacity)) (handles : List ExpertHandle) :
    Comes allowed (request pool layer experts) handles :=
  fun _ => .inr ⟨_, if_pos h, .inl hallowed⟩

theorem devOf_map {layer id : Nat} {ids : List Nat} (h : id ∈ ids) :
    devOf (ids.map (⟨layer, ·⟩)) id = .ok ⟨layer, id⟩ := by
  have hfind : (ids.map (ExpertHandle.mk layer)).find? (·.expert = id) = some ⟨layer, id⟩ := by
    induction ids with
    | nil => cases h
    | cons a ids ih =>
        by_cases ha : a = id
        · subst ha
          simp
        · have hrest := ih ((List.mem_cons.mp h).resolve_left (Ne.symm ha))
          simp [ha, hrest]
  rw [devOf, hfind]

/-! ### Lists, item by item -/

/-- A loop that succeeds on every item. -/
theorem mapM_forall₂ {α β γ ε : Type} {R : α → β → Prop} {R' : α → γ → Prop}
    {f : β → Except ε γ} {as : List α} {bs : List β} (h : List.Forall₂ R as bs)
    (hf : ∀ a b, R a b → ∃ c, f b = .ok c ∧ R' a c) :
    ∃ cs, bs.mapM f = .ok cs ∧ List.Forall₂ R' as cs := by
  induction h with
  | nil => exact ⟨[], rfl, .nil⟩
  | cons hab _ ih =>
      obtain ⟨c, hc, hac⟩ := hf _ _ hab
      obtain ⟨cs, hcs, hrest⟩ := ih
      refine ⟨c :: cs, ?_, .cons hac hrest⟩
      rw [List.mapM_cons, hc, hcs]
      rfl

theorem map_eq_of_forall₂ {α β γ : Type} {f : β → γ} {g : α → γ} {as : List α} {bs : List β}
    (h : List.Forall₂ (fun a b => f b = g a) as bs) : bs.map f = as.map g := by
  induction h with
  | nil => rfl
  | cons hab _ ih => simp [hab, ih]

theorem forall_of_forall₂ {α β : Type} {q : β → Prop} {as : List α} {bs : List β}
    (h : List.Forall₂ (fun _ b => q b) as bs) : ∀ b ∈ bs, q b := by
  induction h with
  | nil => exact nofun
  | cons hb _ ih => simpa [hb] using ih

/-! ### Waves -/

section Waves

variable [AddCommMonoid V] [SMul F V]

/-- The experts' outputs and their weights, from one list of picks. -/
theorem moeReduce_map (g : Nat → V) (picks : List (Nat × F)) (h : V) :
    moeReduce (picks.map fun p => g p.1) (picks.map (·.2)) h =
      h + (picks.map fun p => p.2 • g p.1).sum := by
  rw [moeReduce, List.zipWith_map, List.zipWith_self]

/-- What a pick adds to an entry's hidden state. -/
def Stack.term (m : Stack V F) (packLayer : Nat) (x : V) (p : Nat × F) : V :=
  p.2 • m.expertFfn x ⟨packLayer, p.1⟩

/-- How a lane stands after some waves. -/
structure Lane.Reduced (m : Stack V F) (packLayer : Nat) (done : List (List Nat))
    (start now : Lane V F) : Prop where
  picks : now.picks = start.picks
  x : now.x = start.x
  reduced : now.reduced.flatten = start.reduced.flatten ++ done.flatMap start.sub
  h : now.h = start.h + ((done.flatMap start.sub).map (m.term packLayer start.x)).sum

variable {m : Stack V F} {packLayer : Nat} {done : List (List Nat)} {start now : Lane V F}

theorem Lane.Reduced.refl (m : Stack V F) (packLayer : Nat) (lane : Lane V F) :
    Lane.Reduced m packLayer [] lane lane :=
  ⟨rfl, rfl, by simp, by simp⟩

/-- One more wave. -/
theorem Lane.reduce_run (h : Lane.Reduced m packLayer done start now) (waveIds : List Nat) :
    ∃ next, now.reduce m.expertFfn (waveIds.map (⟨packLayer, ·⟩)) waveIds = .ok next ∧
      Lane.Reduced m packLayer (done ++ [waveIds]) start next := by
  have hsub : now.sub waveIds = start.sub waveIds := by simp [Lane.sub, h.picks]
  by_cases hempty : start.sub waveIds = []
  · refine ⟨now, by simp [Lane.reduce, hsub, hempty, pure, Except.pure], h.picks, h.x, ?_, ?_⟩
    · simp [h.reduced, hempty]
    · simp [h.h, hempty]
  · have hptrs : (start.sub waveIds).mapM (fun p => devOf (waveIds.map (⟨packLayer, ·⟩)) p.1) =
        .ok ((start.sub waveIds).map fun p => ⟨packLayer, p.1⟩) := by
      have hmem : ∀ p ∈ start.sub waveIds, p.1 ∈ waveIds := by
        intro p hp
        simpa using (List.mem_filter.mp hp).2
      generalize start.sub waveIds = sub at hmem
      induction sub with
      | nil => rfl
      | cons p sub ih =>
          rw [List.mapM_cons, devOf_map (hmem p List.mem_cons_self),
            ih fun q hq => hmem q (List.mem_cons_of_mem _ hq)]
          rfl
    refine ⟨{ now with
        h := now.h + ((start.sub waveIds).map (m.term packLayer start.x)).sum
        reduced := now.reduced ++ [start.sub waveIds] }, ?_, h.picks, h.x, ?_, ?_⟩
    · have hred := moeReduce_map (fun id => m.expertFfn start.x ⟨packLayer, id⟩)
        (start.sub waveIds) now.h
      simp only [Lane.reduce, hsub, List.isEmpty_iff, hempty, if_false, hptrs, bind, Except.bind,
        pure, Except.pure, List.map_map, Function.comp_def, h.x, hred]
      rfl
    · simp [h.reduced]
    · simp [h.h, add_assoc]

/-- One wave for all lanes. -/
theorem Stack.wave_run {starts : List (Lane V F)} {c : Waves V F}
    (h : List.Forall₂ (Lane.Reduced m packLayer done) starts c.lanes) {waveIds : List Nat}
    (hle : waveIds.length ≤ m.pool.slots) :
    ∃ lanes, Comes Never (m.wave packLayer c waveIds) ⟨lanes, c.requests ++ [waveIds]⟩ ∧
      List.Forall₂ (Lane.Reduced m packLayer (done ++ [waveIds])) starts lanes := by
  obtain ⟨lanes, hlanes, hred⟩ := mapM_forall₂ h fun _ _ hr => Lane.reduce_run hr waveIds
  have hreq : Comes Never (request m.pool packLayer waveIds) _ :=
    request_of_le packLayer waveIds (hle.trans m.pool.slots_le)
  exact ⟨lanes, hreq.bind ((Comes.lift hlanes).bind (.pure _)), hred⟩

/-- The waves one after the other. -/
theorem Stack.foldlM_wave {starts : List (Lane V F)} {c : Waves V F}
    (h : List.Forall₂ (Lane.Reduced m packLayer done) starts c.lanes) {ws : List (List Nat)}
    (hle : ∀ w ∈ ws, w.length ≤ m.pool.slots) :
    ∃ lanes, Comes Never (ws.foldlM (m.wave packLayer) c) ⟨lanes, c.requests ++ ws⟩ ∧
      List.Forall₂ (Lane.Reduced m packLayer (done ++ ws)) starts lanes := by
  induction ws generalizing c done with
  | nil => exact ⟨c.lanes, by simpa using Comes.pure c, by simpa using h⟩
  | cons w ws ih =>
      obtain ⟨lanes, hwave, hred⟩ := Stack.wave_run h (hle w List.mem_cons_self)
      obtain ⟨lanes', hrest, hred'⟩ :=
        ih (c := ⟨lanes, c.requests ++ [w]⟩) hred fun w' hw' => hle w' (List.mem_cons_of_mem _ hw')
      refine ⟨lanes', ?_, by simpa using hred'⟩
      rw [List.foldlM_cons]
      rw [List.append_assoc] at hrest
      exact hwave.bind hrest

/-- What holds of the waves of a layer when they are through. -/
structure Waves.Fair (slots : Nat) (run : Waves V F) : Prop where
  /-- No expert is requested twice, -/
  nodup : run.requests.flatten.Nodup
  /-- the picked ones are, and no others, -/
  mem_iff : ∀ id, id ∈ run.requests.flatten ↔ ∃ lane ∈ run.lanes, ∃ p ∈ lane.picks, p.1 = id
  /-- no wave is larger than the cache, -/
  within : ∀ w ∈ run.requests, w.length ≤ slots
  /-- and every pick of every entry went to `moe_reduce` once. -/
  once : ∀ lane ∈ run.lanes, lane.reduced.flatten.Perm lane.picks

/-- A lane after waves that hold each of its picks in one of them. -/
theorem Lane.Reduced.finish {ws : List (List Nat)} (h : Lane.Reduced m packLayer ws start now)
    (hstart : start.reduced = []) (hnd : ws.flatten.Nodup)
    (hall : ∀ p ∈ start.picks, p.1 ∈ ws.flatten) :
    now.reduced.flatten.Perm now.picks ∧
      now.h = start.h + (start.picks.map (m.term packLayer start.x)).sum := by
  have hperm : (ws.flatMap start.sub).Perm start.picks :=
    Lib.flatMap_filter_perm (fun p : Nat × F => p.1) hnd hall
  constructor
  · rw [h.reduced, hstart, h.picks]
    exact hperm
  · rw [h.h, (hperm.map _).sum_eq]

/-- The waves of a layer: whatever their number, every entry gets the sum over
its picks. -/
theorem Stack.waves_run (hslots : 1 ≤ m.pool.slots) (packLayer : Nat) (lanes : List (Lane V F))
    (hstart : ∀ lane ∈ lanes, lane.reduced = []) :
    ∃ run, Comes Never (m.waves packLayer lanes) run ∧ run.Fair m.pool.slots ∧
      run.lanes.map (·.picks) = lanes.map (·.picks) ∧
      run.lanes.map (·.h) =
        lanes.map fun lane => lane.h + (lane.picks.map (m.term packLayer lane.x)).sum := by
  have hmax : max m.pool.slots 1 = m.pool.slots := Nat.max_eq_left hslots
  let union := sortedUnion (lanes.map fun lane => lane.picks.map (·.1))
  have hflat : (chunks m.pool.slots union).flatten = union := Lib.chunks_flatten hslots union
  have hrefl : List.Forall₂ (Lane.Reduced m packLayer []) lanes lanes :=
    List.forall₂_same.mpr fun lane _ => .refl m packLayer lane
  obtain ⟨nows, hrun, hred⟩ := Stack.foldlM_wave (c := ⟨lanes, []⟩) hrefl
    fun w hw => Lib.length_le_of_mem_chunks (n := m.pool.slots) (l := union) hw
  have hmem : ∀ id, id ∈ union ↔ ∃ lane ∈ lanes, ∃ p ∈ lane.picks, p.1 = id := by
    intro id
    rw [Lib.mem_sortedUnion]
    simp
  -- each lane against its start
  have hfinish : List.Forall₂ (fun start now => now.picks = start.picks ∧
      now.reduced.flatten.Perm now.picks ∧
      now.h = start.h + (start.picks.map (m.term packLayer start.x)).sum) lanes nows := by
    apply ((List.forall₂_and_left lanes nows).mpr ⟨fun lane hlane => hlane, hred⟩).imp
    intro start now ⟨hmemStart, hlane⟩
    rw [List.nil_append] at hlane
    obtain ⟨hperm, hsum⟩ := hlane.finish (hstart start hmemStart)
      (by rw [hflat]; exact Lib.sortedUnion_nodup _)
      (fun p hp => by rw [hflat]; exact (hmem p.1).mpr ⟨start, hmemStart, p, hp, rfl⟩)
    exact ⟨hlane.picks, hperm, hsum⟩
  have hpicks : nows.map (·.picks) = lanes.map (·.picks) :=
    map_eq_of_forall₂ (hfinish.imp fun _ _ h => h.1)
  refine ⟨⟨nows, chunks m.pool.slots union⟩, ?_, ⟨?_, ?_, ?_, ?_⟩, hpicks,
    map_eq_of_forall₂ (hfinish.imp fun _ _ h => h.2.2)⟩
  · rw [Stack.waves, hmax]
    exact hrun
  · rw [hflat]
    exact Lib.sortedUnion_nodup _
  · intro id
    rw [hflat, hmem]
    have hiff : ∀ ls : List (Lane V F), (∃ lane ∈ ls, ∃ p ∈ lane.picks, p.1 = id) ↔
        ∃ picks ∈ ls.map (·.picks), ∃ p ∈ picks, p.1 = id := by simp
    rw [hiff, hiff, hpicks]
  · exact fun w hw => Lib.length_le_of_mem_chunks hw
  · exact forall_of_forall₂ (hfinish.imp fun _ _ h => h.2.1)

end Waves

/-! ### What a call is given -/

section Entries

variable (m : Stack V F)

/-- The entries with the rows they start from. -/
def Stack.items (entries : List Entry) : List (Entry × V) :=
  entries.map fun e => (e, m.embed e.token)

theorem Stack.map_fst_items (entries : List Entry) : (m.items entries).map (·.1) = entries := by
  simp [items, Function.comp_def]

/-- What `step_multi` checks before it starts. -/
structure Stack.Accepts (entries : List Entry) : Prop where
  ne_nil : entries ≠ []
  length_le : entries.length ≤ chunkCap
  pos_lt : ∀ e ∈ entries, e.pos < m.maxSeq
  seq_lt : ∀ e ∈ entries, e.seq < m.batchCap

/-- The checks, as `step_multi` makes them. -/
theorem Stack.accepts_iff {entries : List Entry} :
    m.Accepts entries ↔ ¬(entries.length = 0 ∨ chunkCap < entries.length) ∧
      entries.findSome? m.entryError = none := by
  have hentry : ∀ e, m.entryError e = none ↔ e.pos < m.maxSeq ∧ e.seq < m.batchCap := by
    intro e
    unfold entryError
    by_cases hpos : m.maxSeq ≤ e.pos
    · simp [hpos]
    · by_cases hseq : m.batchCap ≤ e.seq
      · simp [hpos, hseq]
      · simp only [hpos, hseq, if_false, true_iff]
        omega
  simp only [List.findSome?_eq_none_iff, hentry, not_or, Nat.not_lt, List.length_eq_zero_iff]
  constructor
  · intro h
    exact ⟨⟨h.ne_nil, h.length_le⟩, fun e he => ⟨h.pos_lt e he, h.seq_lt e he⟩⟩
  · intro ⟨⟨hne, hlen⟩, hall⟩
    exact ⟨hne, hlen, fun e he => (hall e he).1, fun e he => (hall e he).2⟩

/-- Each entry of an accepted call is accepted by itself. -/
theorem Stack.Accepts.singleton {m : Stack V F} {entries : List Entry} (h : m.Accepts entries)
    {e : Entry} (he : e ∈ entries) : m.Accepts [e] where
  ne_nil := by simp
  length_le := by simp [chunkCap]
  pos_lt := by simpa using h.pos_lt e he
  seq_lt := by simpa using h.seq_lt e he

@[simp] theorem Stack.length_entryLogits (items : List (Entry × V)) :
    (m.entryLogits items).length = items.length := by
  induction items with
  | nil => rfl
  | cons item items ih => simp [entryLogits, ih]

/-- The logits of an entry that is the last of its slot. -/
theorem Stack.getElem?_entryLogits {items : List (Entry × V)} {t : Nat} {e : Entry} {h : V}
    (ht : items[t]? = some (e, h)) (hlast : ∀ i ∈ items.drop (t + 1), i.1.seq ≠ e.seq) :
    (m.entryLogits items)[t]? = some (m.logits h) := by
  induction items generalizing t with
  | nil => simp at ht
  | cons item items ih =>
      cases t with
      | zero =>
          obtain rfl : item = (e, h) := by simpa using ht
          have hall : items.all (·.1.seq ≠ e.seq) = true := by simpa using hlast
          simp only [entryLogits, hall, if_true, List.getElem?_cons_zero]
      | succ t =>
          rw [entryLogits, List.getElem?_cons_succ]
          exact ih (by simpa using ht) (by simpa using hlast)

/-- Which entries have logits is a matter of each slot. -/
theorem Stack.entryLogits_filter (s : Nat) (items : List (Entry × V)) :
    (items.zip (m.entryLogits items)).filter (·.1.1.seq = s) =
      (items.filter (·.1.seq = s)).zip (m.entryLogits (items.filter (·.1.seq = s))) := by
  induction items with
  | nil => rfl
  | cons item items ih =>
      obtain ⟨e, h⟩ := item
      by_cases hs : e.seq = s
      · subst hs
        have hall : (items.filter (·.1.seq = e.seq)).all (·.1.seq ≠ e.seq) =
            items.all (·.1.seq ≠ e.seq) := by
          rw [List.all_filter]
          apply List.all_congr rfl
          intro i
          by_cases hi : i.1.seq = e.seq
          · simp [hi]
          · simp [hi]
        simp only [entryLogits, List.zip_cons_cons, decide_true, List.filter_cons_of_pos, ih, hall]
      · simpa [entryLogits, hs] using ih

/-- The logits and choices of a call, entry by entry. -/
theorem Stack.zip_entryLogits [LT F] [DecidableLT F] {entries : List Entry}
    {hs : List V} (hlen : hs.length = entries.length) :
    entries.zip ((m.entryLogits (entries.zip hs)).zip
        ((m.entryLogits (entries.zip hs)).map (greedy m.f32Min))) =
      ((entries.zip hs).zip (m.entryLogits (entries.zip hs))).map fun p =>
        (p.1.1, p.2, greedy m.f32Min p.2) := by
  have hfst : (entries.zip hs).map (·.1) = entries := List.map_fst_zip (Nat.le_of_eq hlen.symm)
  generalize entries.zip hs = items at hfst
  clear hlen
  subst hfst
  generalize m.entryLogits items = lm
  induction items generalizing lm with
  | nil => rfl
  | cons item items ih =>
      cases lm with
      | nil => rfl
      | cons logits lm => simpa using ih lm

end Entries

/-! ### One layer -/

section Layers

variable [AddCommMonoid V] [SMul F V]

/-- The hidden state behind a layer, from the one behind its attention. -/
def Stack.mlpOut (m : Stack V F) (l : Nat) (h : V) : V :=
  let x := (m.layer l).postNorm h
  match (m.layer l).mlp with
  | .dense ffn => h + ffn x
  | .routed shared route packLayer =>
      addShared shared x h + ((route x).map (m.term packLayer x)).sum

/-- An entry at a layer: what becomes of its slot's rows and its hidden state. -/
def Stack.call (m : Stack V F) (l : Nat) (e : Entry) (rows : Nat → V × V) (h : V) :
    (Nat → V × V) × V :=
  let r := (m.layer l).attention rows e.pos h
  (r.1, m.mlpOut l r.2)

/-- The calls, on the rows of all slots. -/
def Stack.grid (m : Stack V F) :
    Nat → Entry → (Nat → Nat → V × V) → V → (Nat → Nat → V × V) × V :=
  atKey m.call (·.seq)

variable (m : Stack V F)

/-- The row of calls is the attention of the entries, and what follows it. -/
theorem Stack.grid_row (l : Nat) (rows : Nat → Nat → V × V) (items : List (Entry × V)) :
    stageRow m.grid l rows items =
      ((m.attentionRow l rows items).1, (m.attentionRow l rows items).2.map (m.mlpOut l)) :=
  Lib.stageRow_map (fun _ _ _ => rfl) rows items

/-- A call on slot 0. -/
theorem Stack.grid_zero {e : Entry} (he : e.seq = 0) (l : Nat) (rows : Nat → Nat → V × V) (h : V) :
    m.grid l e rows h =
      (Function.update rows 0 ((m.layer l).attention (rows 0) e.pos h).1,
        m.mlpOut l ((m.layer l).attention (rows 0) e.pos h).2) := by
  simp only [grid, atKey, he]
  rfl

theorem Stack.mlpOut_dense {l : Nat} {ffn : V → V} (h : (m.layer l).mlp = .dense ffn) :
    m.mlpOut l = fun h => h + ffn ((m.layer l).postNorm h) := by
  funext h'
  simp only [mlpOut, h]

theorem Stack.mlpOut_routed {l packLayer : Nat} {shared : Option (V → V)}
    {route : V → List (Nat × F)} (h : (m.layer l).mlp = .routed shared route packLayer) :
    m.mlpOut l = fun h =>
      let lane := Lane.start shared route ((m.layer l).postNorm h) h
      lane.h + (lane.picks.map (m.term packLayer lane.x)).sum := by
  funext h'
  simp only [mlpOut, h]
  rfl

/-- The layer has experts. -/
def Stack.routed (l : Nat) : Bool :=
  match (m.layer l).mlp with
  | .dense _ => false
  | .routed _ _ _ => true

/-- One layer: a row of the grid. -/
theorem Stack.runLayer_run (hslots : 1 ≤ m.pool.slots) (entries : List Entry) (c : Chunk V F)
    (l : Nat) :
    ∃ runs, Comes Never (m.runLayer entries c l)
        { kv := Function.update c.kv l (stageRow m.grid l (c.kv l) (entries.zip c.hs)).1
          hs := (stageRow m.grid l (c.kv l) (entries.zip c.hs)).2
          runs := c.runs ++ runs } ∧
      runs.length = [l].countP m.routed ∧
      ∀ run ∈ runs, run.Fair m.pool.slots ∧ run.lanes.length = (entries.zip c.hs).length := by
  rw [m.grid_row]
  cases hmlp : (m.layer l).mlp with
  | dense ffn =>
      refine ⟨[], ?_, by simp [routed, hmlp], nofun⟩
      simp only [runLayer, hmlp, m.mlpOut_dense hmlp, List.append_nil]
      exact .pure _
  | routed shared route packLayer =>
      let start (h : V) : Lane V F := Lane.start shared route ((m.layer l).postNorm h) h
      let hs := (m.attentionRow l (c.kv l) (entries.zip c.hs)).2
      obtain ⟨run, hrun, hfair, hpicks, hout⟩ := Stack.waves_run hslots packLayer
        (hs.map start) (by simp [start, Lane.start])
      refine ⟨[run], ?_, by simp [routed, hmlp], ?_⟩
      · simp only [runLayer, hmlp, m.mlpOut_routed hmlp]
        rw [List.map_map] at hout
        apply hrun.bind
        show Comes Never (Pure.pure (Chunk.mk _ (run.lanes.map Lane.h) _)) _
        rw [hout]
        exact .pure _
      · intro run' hrun'
        obtain rfl := List.mem_singleton.mp hrun'
        refine ⟨hfair, ?_⟩
        have hlen := congrArg List.length hpicks
        simpa [hs, attentionRow] using hlen

/-- All layers: stage by stage through the grid. -/
theorem Stack.runLayers_run (hslots : 1 ≤ m.pool.slots) {entries : List Entry} (ls : List Nat)
    {c : Chunk V F} (hlen : c.hs.length = entries.length) :
    ∃ runs, Comes Never (ls.foldlM (m.runLayer entries) c)
        { kv := (byStage m.grid ls c.kv (entries.zip c.hs)).1
          hs := (byStage m.grid ls c.kv (entries.zip c.hs)).2
          runs := c.runs ++ runs } ∧
      runs.length = ls.countP m.routed ∧
      ∀ run ∈ runs, run.Fair m.pool.slots ∧ run.lanes.length = entries.length := by
  induction ls generalizing c with
  | nil =>
      refine ⟨[], ?_, rfl, nofun⟩
      have hsnd : (entries.zip c.hs).map (·.2) = c.hs := List.map_snd_zip (Nat.le_of_eq hlen)
      simpa [byStage, hsnd] using Comes.pure c
  | cons l ls ih =>
      obtain ⟨runs, hlayer, hcount, hfair⟩ := m.runLayer_run hslots entries c l
      have hzip : (entries.zip c.hs).length = entries.length := by simp [hlen]
      have hfst : (entries.zip c.hs).map (·.1) = entries := List.map_fst_zip (Nat.le_of_eq hlen.symm)
      have hlen' : (stageRow m.grid l (c.kv l) (entries.zip c.hs)).2.length = entries.length := by
        rw [Lib.length_stageRow, hzip]
      obtain ⟨runs', hrest, hcount', hfair'⟩ := ih (c :=
        { kv := Function.update c.kv l (stageRow m.grid l (c.kv l) (entries.zip c.hs)).1
          hs := (stageRow m.grid l (c.kv l) (entries.zip c.hs)).2
          runs := c.runs ++ runs }) hlen'
      refine ⟨runs ++ runs', ?_, ?_, ?_⟩
      · rw [List.foldlM_cons]
        simp only [byStage, hfst]
        rw [List.append_assoc] at hrest
        exact hlayer.bind hrest
      · rw [List.length_append, hcount, hcount', ← List.countP_append]
        rfl
      · intro run hrun
        rcases List.mem_append.mp hrun with hin | hin
        · rw [← hzip]
          exact hfair run hin
        · exact hfair' run hin

/-! ### `step_multi` -/

/-- The grid of a call, item by item. -/
def Stack.result (kv : Nat → Nat → Nat → V × V) (entries : List Entry) :
    (Nat → Nat → Nat → V × V) × List V :=
  byItem m.grid (List.range m.layers) kv (m.items entries)

theorem Stack.result_cons (kv : Nat → Nat → Nat → V × V) (e : Entry) (entries : List Entry) :
    m.result kv (e :: entries) =
      let r := column m.grid e (List.range m.layers) kv (m.embed e.token)
      ((m.result r.1 entries).1, r.2 :: (m.result r.1 entries).2) :=
  rfl

@[simp] theorem Stack.length_result (kv : Nat → Nat → Nat → V × V) (entries : List Entry) :
    (m.result kv entries).2.length = entries.length := by
  simp [result, items]

/-! ### The entries of one slot -/

/-- The entries of a slot come to what they come to without the others. -/
theorem Stack.result_filter {s : Nat} {kv kv' : Nat → Nat → Nat → V × V}
    (h : Lib.AgreeAt s kv kv') (entries : List Entry) :
    Lib.AgreeAt s (m.result kv entries).1 (m.result kv' (entries.filter (·.seq = s))).1 ∧
      (entries.zip (m.result kv entries).2).filter (·.1.seq = s) =
        (entries.filter (·.seq = s)).zip (m.result kv' (entries.filter (·.seq = s))).2 := by
  have hitems : (m.items entries).filter (fun i => i.1.seq = s) =
      m.items (entries.filter (·.seq = s)) := by
    rw [items, List.filter_map]
    rfl
  have hgrid := @Lib.byItem_filter _ _ _ _ _ _ _ m.call (·.seq) s kv kv' (List.range m.layers) h
    (m.items entries)
  rw [hitems, m.map_fst_items, m.map_fst_items] at hgrid
  exact hgrid

/-! ### The whole call -/

variable [LT F] [DecidableLT F]

/-- How an accepted call ends. -/
structure Stack.Done (d : Decoder V F) (entries : List Entry) (wantLogits : Bool)
    (d' : Decoder V F) (out : List Nat) : Prop where
  kv : d'.kv = (m.result d.kv entries).1
  hBuf : d'.hBuf = (m.result d.kv entries).2
  logits : wantLogits = true →
    d'.logitsMulti = m.entryLogits (entries.zip (m.result d.kv entries).2) ∧
    out = d'.logitsMulti.map (greedy m.f32Min)
  quiet : wantLogits = false → out = List.replicate entries.length 0

/-- A call leaves what its entries leave one after the other, and the logits
behind each slot's last. -/
theorem Stack.stepMulti_run (hslots : 1 ≤ m.pool.slots) (d : Decoder V F) (entries : List Entry)
    (h : m.Accepts entries) (wantLogits : Bool) :
    ∃ d' out runs, Comes Never (m.stepMulti d entries wantLogits) (d', out) ∧
      m.Done d entries wantLogits d' out ∧
      d'.runs = d.runs ++ runs ∧ runs.length = (List.range m.layers).countP m.routed ∧
      ∀ run ∈ runs, run.Fair m.pool.slots ∧ run.lanes.length = entries.length := by
  obtain ⟨hlen, hchecks⟩ := m.accepts_iff.mp h
  have hzip : entries.zip (entries.map (m.embed ·.token)) = m.items entries := by
    have hpairs := List.zip_map' (f := id) (g := fun e : Entry => m.embed e.token) (l := entries)
    rwa [List.map_id] at hpairs
  obtain ⟨runs, hrun, hcount, hfair⟩ := m.runLayers_run hslots (List.range m.layers)
    (c := { kv := d.kv, hs := entries.map (m.embed ·.token), runs := d.runs })
    (List.length_map _)
  rw [hzip, Lib.byStage_eq_byItem List.nodup_range] at hrun
  simp only [stepMulti, if_neg hlen, hchecks]
  cases wantLogits with
  | true =>
      exact ⟨_, _, runs, hrun.bind (.pure _), ⟨rfl, rfl, fun _ => ⟨rfl, rfl⟩, nofun⟩, rfl, hcount,
        hfair⟩
  | false =>
      exact ⟨_, _, runs, hrun.bind (.pure _), ⟨rfl, rfl, nofun, fun _ => rfl⟩, rfl, hcount, hfair⟩

end Layers

end LlmPager.Forward
