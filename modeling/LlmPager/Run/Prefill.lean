import LlmPager.Run.ForwardSpec

/-!
# LlmPager.Run.Prefill

Union prefill against token-by-token decode: a `step_multi` of several entries,
and the entries one at a time (slot 0 through `step`, the other slots through
`step_multi`). Both are the same grid of calls, so they leave the same KV caches,
hidden states and logits.

That is so of the calls that end well. Either run stops where the pager fails a
request, and `step` of the Qwen engine, which asks for all the experts of a
token at once, also where a token picks more of them than the cache has slots;
`step_multi` and Kimi's `step` go in waves.
-/

namespace LlmPager.Forward

open Lib (chunks column byItem AgreeAt)
open Serve (Entry ServeError chunkCap)

variable {V M F : Type} [AddCommMonoid V] [SMul F V]

/-! ### `step` of the Qwen engine -/

namespace Qwen.Model

variable (m : Model V M F)

/-- A request that the pager refuses: more picks than slots. -/
def Refused (err : StepError) : Prop :=
  ∃ l x, m.pool.capacity < (m.route l x).length ∧
    err = .request (m.route l x).length m.pool.capacity

theorem mlpOut (l : Nat) (h : V) :
    m.stack.mlpOut l h = h + ((m.route l (m.postNorm l h)).map
      (m.stack.term (packLayer l) (m.postNorm l h))).sum :=
  rfl

omit [AddCommMonoid V] [SMul F V] in
/-- One request for the picks of a token, if it is not refused. -/
theorem request_run (l : Nat) (x : V) :
    Comes m.Refused (request m.pool (packLayer l) ((m.route l x).map (·.1)))
      ((m.route l x).map fun p => ⟨packLayer l, p.1⟩) := by
  by_cases hle : (m.route l x).length ≤ m.pool.capacity
  · have hreq : Comes m.Refused _ _ :=
      request_of_le (packLayer l) ((m.route l x).map (·.1)) (by simpa using hle)
    rwa [List.map_map] at hreq
  · have hlt : m.pool.capacity < (m.route l x).length := Nat.not_le.mp hle
    exact request_of_lt _ _ (by simpa using hlt) ⟨l, x, hlt, by simp⟩ _

theorem stepLayer_run (e : Entry) (he : e.seq = 0) (kv : Nat → Nat → Nat → V × V) (h : V)
    (l : Nat) :
    Comes m.Refused (m.stepLayer e.pos (kv, h) l)
      (Function.update kv l (m.stack.grid l e (kv l) h).1, (m.stack.grid l e (kv l) h).2) := by
  let r := m.attention l (kv l 0) e.pos h
  let x := m.postNorm l r.2
  have hgrid : m.stack.grid l e (kv l) h = (Function.update (kv l) 0 r.1, m.stack.mlpOut l r.2) :=
    m.stack.grid_zero he l (kv l) h
  have hred := moeReduce_map (fun id => m.ke.expertFfn x ⟨packLayer l, id⟩) (m.route l x) r.2
  rw [hgrid, m.mlpOut]
  apply (m.request_run l x).bind
  show Comes m.Refused (pure (_, moeReduce (((m.route l x).map fun p =>
    ExpertHandle.mk (packLayer l) p.1).map (m.ke.expertFfn x)) ((m.route l x).map (·.2)) r.2)) _
  rw [List.map_map]
  show Comes m.Refused (pure (_, moeReduce ((m.route l x).map fun p =>
    m.ke.expertFfn x ⟨packLayer l, p.1⟩) ((m.route l x).map (·.2)) r.2)) _
  rw [hred]
  exact .pure _

/-- All layers: a column of the grid. -/
theorem stepLayers_run (e : Entry) (he : e.seq = 0) (ls : List Nat)
    (kv : Nat → Nat → Nat → V × V) (h : V) :
    Comes m.Refused (ls.foldlM (m.stepLayer e.pos) (kv, h)) (column m.stack.grid e ls kv h) := by
  induction ls generalizing kv h with
  | nil => exact .pure _
  | cons l ls ih =>
      rw [List.foldlM_cons]
      exact (m.stepLayer_run e he kv h l).bind (ih _ _)

end Qwen.Model

/-! ### `step` of the Kimi engine -/

namespace Kimi.Model

variable (m : Model V M F)

theorem stepWaves_run (packLayer : Nat) (x h : V) {waves : List (List (Nat × F))}
    (hle : ∀ wave ∈ waves, wave.length ≤ m.pool.slots) :
    Comes Never (waves.foldlM (m.stepWave packLayer x) h)
      (h + (waves.flatten.map (m.stack.term packLayer x)).sum) := by
  induction waves generalizing h with
  | nil => simpa using Comes.pure h
  | cons wave waves ih =>
      have hwave : Comes Never (m.stepWave packLayer x h wave)
          (h + (wave.map (m.stack.term packLayer x)).sum) := by
        have hlen : (wave.map (·.1)).length ≤ m.pool.capacity := by
          rw [List.length_map]
          exact (hle wave List.mem_cons_self).trans m.pool.slots_le
        have hred := moeReduce_map (fun id => m.ke.expertFfn x ⟨packLayer, id⟩) wave h
        apply (request_of_le packLayer (wave.map (·.1)) hlen).bind
        rw [List.map_map, List.map_map]
        show Comes Never (pure (moeReduce (wave.map fun p =>
          m.ke.expertFfn x ⟨packLayer, p.1⟩) (wave.map (·.2)) h)) _
        rw [hred]
        exact .pure _
      have hrest := ih (h + (wave.map (m.stack.term packLayer x)).sum)
        fun wave' hwave' => hle wave' (List.mem_cons_of_mem _ hwave')
      rw [List.foldlM_cons, List.flatten_cons, List.map_append, List.sum_append, ← add_assoc]
      exact hwave.bind hrest

theorem stepLayer_run (hslots : 1 ≤ m.pool.slots) (e : Entry) (he : e.seq = 0)
    (kv : Nat → Nat → Nat → V × V) (h : V) (l : Nat) :
    Comes Never (m.stepLayer e.pos (kv, h) l)
      (Function.update kv l (m.stack.grid l e (kv l) h).1, (m.stack.grid l e (kv l) h).2) := by
  let r := m.attention l (kv l 0) e.pos h
  let x := m.postNorm l r.2
  have hgrid : m.stack.grid l e (kv l) h = (Function.update (kv l) 0 r.1, m.stack.mlpOut l r.2) :=
    m.stack.grid_zero he l (kv l) h
  rw [hgrid]
  have hmax : max m.pool.slots 1 = m.pool.slots := Nat.max_eq_left hslots
  cases hmlp : (m.layer l).mlp with
  | dense gate up down =>
      have hlayer : (m.stack.layer l).mlp = .dense (m.ke.denseFfn gate up down) := by
        simp only [stack, hmlp]
      simp only [stepLayer, hmlp, m.stack.mlpOut_dense hlayer]
      exact .pure _
  | moe router routerBias gate up down =>
      have hlayer : (m.stack.layer l).mlp = .routed (some (m.ke.denseFfn gate up down))
          (m.route router routerBias) (m.packLayer l) := by
        simp only [stack, hmlp]
      have hwaves := m.stepWaves_run (m.packLayer l) x r.2 fun wave hwave =>
        Lib.length_le_of_mem_chunks (l := m.route router routerBias x) hwave
      rw [Lib.chunks_flatten hslots] at hwaves
      simp only [stepLayer, hmlp, hmax, m.stack.mlpOut_routed hlayer]
      apply hwaves.bind
      -- `step` adds the shared expert after the waves, `step_multi` before them
      show Comes Never (pure (_, r.2 + _ + m.ke.denseFfn gate up down x))
        (_, r.2 + m.ke.denseFfn gate up down x + _)
      rw [add_right_comm]
      exact .pure _

theorem stepLayers_run (hslots : 1 ≤ m.pool.slots) (e : Entry) (he : e.seq = 0) (ls : List Nat)
    (kv : Nat → Nat → Nat → V × V) (h : V) :
    Comes Never (ls.foldlM (m.stepLayer e.pos) (kv, h)) (column m.stack.grid e ls kv h) := by
  induction ls generalizing kv h with
  | nil => exact .pure _
  | cons l ls ih =>
      rw [List.foldlM_cons]
      exact (m.stepLayer_run hslots e he kv h l).bind (ih _ _)

end Kimi.Model

/-! ### One entry at a time -/

namespace AnyDecoder

/-- What `step_multi` runs. -/
def stack : AnyDecoder V M F → Stack V F
  | qwen m => m.stack
  | kimi m => m.stack

/-- The refusal that only `step` of the Qwen engine meets. -/
def Refused : AnyDecoder V M F → StepError → Prop
  | qwen m, err => m.Refused err
  | kimi _, _ => False

variable [LT F] [DecidableLT F] (m : AnyDecoder V M F)

theorem stepMulti_eq : m.stepMulti = m.stack.stepMulti := by
  cases m with
  | qwen m => rfl
  | kimi m => rfl

/-- `step`: a column of the grid, and its logits. -/
theorem step_run (hslots : 1 ≤ m.stack.pool.slots) (d : Decoder V F) (e : Entry) (he : e.seq = 0)
    (hpos : e.pos < m.stack.maxSeq) (wantLogits : Bool) :
    let r := column m.stack.grid e (List.range m.stack.layers) d.kv (m.stack.embed e.token)
    ∃ d', Comes m.Refused (m.step d e.token e.pos wantLogits)
          (d', if wantLogits then greedy m.stack.f32Min (m.stack.logits r.2) else 0) ∧
        d'.kv = r.1 ∧ d'.h = r.2 ∧ (wantLogits = true → d'.logitsHost = m.stack.logits r.2) := by
  cases m with
  | qwen m =>
      have hguard : ¬ m.maxSeq ≤ e.pos := Nat.not_le.mpr hpos
      have hrun := m.stepLayers_run e he (List.range m.cfg.layers) d.kv
        (m.ke.bf16Row m.embed e.token)
      simp only [step, Qwen.Model.step, if_neg hguard]
      cases wantLogits with
      | true => exact ⟨_, hrun.bind (.pure _), rfl, rfl, fun _ => rfl⟩
      | false => exact ⟨_, hrun.bind (.pure _), rfl, rfl, by simp⟩
  | kimi m =>
      have hguard : ¬ m.maxSeq ≤ e.pos := Nat.not_le.mpr hpos
      have hrun := m.stepLayers_run hslots e he (List.range m.cfg.layers) d.kv
        (m.ke.embedRow e.token)
      simp only [step, Kimi.Model.step, if_neg hguard]
      cases wantLogits with
      | true => exact ⟨_, hrun.bind (.pure _), rfl, rfl, fun _ => rfl⟩
      | false => exact ⟨_, hrun.bind (.pure _), rfl, rfl, by simp⟩

end AnyDecoder

/-- What an entry comes to when it is run by itself. -/
structure Outcome (V F : Type) where
  hidden : V
  logits : List F
  token : Nat
  deriving Repr, DecidableEq

namespace AnyDecoder

variable [LT F] [DecidableLT F] (m : AnyDecoder V M F)

/-- One entry by itself: `step` on slot 0, `step_multi` on the other slots. -/
def stepOne (d : Decoder V F) (e : Entry) : Paged (Decoder V F × Outcome V F) :=
  if e.seq = 0 then do
    let (d, token) ← m.step d e.token e.pos true
    return (d, { hidden := d.h, logits := d.logitsHost, token })
  else do
    let (d, out) ← m.stepMulti d [e] true
    return (d, { hidden := d.hBuf.headD 0, logits := d.logitsMulti.headD [], token := out.headD 0 })

/-- The entries one at a time, in order. -/
def oneByOne (d : Decoder V F) : List Entry → Paged (Decoder V F × List (Outcome V F))
  | [] => pure (d, [])
  | e :: rest => do
      let (d, o) ← m.stepOne d e
      let (d, os) ← oneByOne d rest
      return (d, o :: os)

/-- The outcome behind a hidden state. -/
def outcome (h : V) : Outcome V F :=
  { hidden := h, logits := m.stack.logits h, token := greedy m.stack.f32Min (m.stack.logits h) }

theorem stepOne_run (hslots : 1 ≤ m.stack.pool.slots) (d : Decoder V F) {e : Entry}
    (h : m.stack.Accepts [e]) :
    let r := column m.stack.grid e (List.range m.stack.layers) d.kv (m.stack.embed e.token)
    ∃ d', Comes m.Refused (m.stepOne d e) (d', m.outcome r.2) ∧ d'.kv = r.1 := by
  by_cases he : e.seq = 0
  · obtain ⟨d', hrun, hkv, hh, hlogits⟩ :=
      m.step_run hslots d e he (h.pos_lt e List.mem_cons_self) true
    refine ⟨d', ?_, hkv⟩
    rw [stepOne, if_pos he]
    apply hrun.bind
    simp only [hh, hlogits rfl]
    exact .pure _
  · obtain ⟨d', out, _, hrun, hdone, _⟩ := m.stack.stepMulti_run hslots d [e] h true
    obtain ⟨hmulti, hout⟩ := hdone.logits rfl
    refine ⟨d', ?_, hdone.kv⟩
    rw [stepOne, if_neg he, m.stepMulti_eq]
    apply (hrun.mono fun _ => False.elim).bind
    simp only [hdone.hBuf, hout, hmulti]
    exact .pure _

/-- The whole list: the grid, item by item. -/
theorem oneByOne_run (hslots : 1 ≤ m.stack.pool.slots) (d : Decoder V F) {entries : List Entry}
    (h : ∀ e ∈ entries, m.stack.Accepts [e]) :
    ∃ d', Comes m.Refused (m.oneByOne d entries)
        (d', (m.stack.result d.kv entries).2.map m.outcome) ∧
      d'.kv = (m.stack.result d.kv entries).1 := by
  induction entries generalizing d with
  | nil => exact ⟨d, .pure _, rfl⟩
  | cons e rest ih =>
      obtain ⟨d', hone, hkv⟩ := m.stepOne_run hslots d (h e List.mem_cons_self)
      obtain ⟨d'', hrest, hkv'⟩ := ih d' fun e' he' => h e' (List.mem_cons_of_mem _ he')
      rw [hkv] at hrest hkv'
      exact ⟨d'', hone.bind (hrest.bind (.pure _)), hkv'⟩

end AnyDecoder

/-! ### Union prefill and token-by-token decode -/

/-- What a `step_multi` and the entries one at a time leave alike. -/
structure Agrees (entries : List Entry) (wantLogits : Bool) (d : Decoder V F) (out : List Nat)
    (d₁ : Decoder V F) (os : List (Outcome V F)) : Prop where
  kv : d.kv = d₁.kv
  hidden : d.hBuf = os.map (·.hidden)
  /-- The logits, of the entries that are the last of their slot. -/
  last : wantLogits = true → ∀ t e o, entries[t]? = some e → os[t]? = some o →
    (∀ e' ∈ entries.drop (t + 1), e'.seq ≠ e.seq) →
    d.logitsMulti[t]? = some o.logits ∧ out[t]? = some o.token

/-- What two `step_multi` leave alike in a slot: its rows, and the hidden states
and logits of its entries. -/
structure AgreesIn (s : Nat) (wantLogits : Bool) (entries : List Entry) (d : Decoder V F)
    (out : List Nat) (entries' : List Entry) (d' : Decoder V F) (out' : List Nat) : Prop where
  kv : AgreeAt s d.kv d'.kv
  hidden : (entries.zip d.hBuf).filter (·.1.seq = s) = (entries'.zip d'.hBuf).filter (·.1.seq = s)
  logits : wantLogits = true →
    (entries.zip (d.logitsMulti.zip out)).filter (·.1.seq = s) =
      (entries'.zip (d'.logitsMulti.zip out')).filter (·.1.seq = s)

section Slots

variable [LT F] [DecidableLT F]

/-- Two calls with the same entries on a slot, from the same rows of it. -/
theorem Stack.Done.agreesIn {m : Stack V F} {s : Nat} {wantLogits : Bool}
    {d d₂ d' d₂' : Decoder V F} {entries entries₂ : List Entry} {out out₂ : List Nat}
    (h : m.Done d entries wantLogits d' out) (h₂ : m.Done d₂ entries₂ wantLogits d₂' out₂)
    (hstart : AgreeAt s d.kv d₂.kv)
    (hsame : entries.filter (·.seq = s) = entries₂.filter (·.seq = s)) :
    AgreesIn s wantLogits entries d' out entries₂ d₂' out₂ := by
  obtain ⟨hrows, hhidden⟩ := m.result_filter hstart entries
  obtain ⟨hrows₂, hhidden₂⟩ := m.result_filter (fun _ => rfl : AgreeAt s d₂.kv d₂.kv) entries₂
  rw [hsame] at hrows hhidden
  have heq : (entries.zip (m.result d.kv entries).2).filter (·.1.seq = s) =
      (entries₂.zip (m.result d₂.kv entries₂).2).filter (·.1.seq = s) :=
    hhidden.trans hhidden₂.symm
  constructor
  · rw [h.kv, h₂.kv]
    exact hrows.trans hrows₂.symm
  · rw [h.hBuf, h₂.hBuf]
    exact heq
  · intro hwant
    obtain ⟨hmulti, hout⟩ := h.logits hwant
    obtain ⟨hmulti₂, hout₂⟩ := h₂.logits hwant
    rw [hout, hout₂, hmulti, hmulti₂, m.zip_entryLogits (m.length_result _ _),
      m.zip_entryLogits (m.length_result _ _), List.filter_map, List.filter_map]
    have hentry := m.entryLogits_filter s (entries.zip (m.result d.kv entries).2)
    have hentry₂ := m.entryLogits_filter s (entries₂.zip (m.result d₂.kv entries₂).2)
    rw [heq, ← hentry₂] at hentry
    exact congrArg _ hentry

end Slots

namespace AnyDecoder

variable [LT F] [DecidableLT F] (m : AnyDecoder V M F)

/-- Union prefill is token-by-token decode. -/
theorem stepMulti_oneByOne (hslots : 1 ≤ m.stack.pool.slots) (d : Decoder V F)
    (entries : List Entry) (h : m.stack.Accepts entries) (wantLogits : Bool) :
    ∃ d' out runs, Comes Never (m.stepMulti d entries wantLogits) (d', out) ∧
      d'.runs = d.runs ++ runs ∧
      runs.length = (List.range m.stack.layers).countP m.stack.routed ∧
      (∀ run ∈ runs, run.Fair m.stack.pool.slots ∧ run.lanes.length = entries.length) ∧
      (∃ d₁ os, Comes m.Refused (m.oneByOne d entries) (d₁, os) ∧
        Agrees entries wantLogits d' out d₁ os) ∧
      ∀ s d₂ entries₂, m.stack.Accepts entries₂ → AgreeAt s d.kv d₂.kv →
        entries.filter (·.seq = s) = entries₂.filter (·.seq = s) →
        ∃ d₂' out₂, Comes Never (m.stepMulti d₂ entries₂ wantLogits) (d₂', out₂) ∧
          AgreesIn s wantLogits entries d' out entries₂ d₂' out₂ := by
  rw [m.stepMulti_eq]
  obtain ⟨d', out, runs, hrun, hdone, hruns, hcount, hfair⟩ :=
    m.stack.stepMulti_run hslots d entries h wantLogits
  refine ⟨d', out, runs, hrun, hruns, hcount, hfair, ?_, ?_⟩
  · obtain ⟨d₁, hone, hkv₁⟩ := m.oneByOne_run hslots d fun e he => h.singleton he
    refine ⟨d₁, _, hone, hdone.kv.trans hkv₁.symm, ?_, ?_⟩
    · rw [hdone.hBuf, List.map_map]
      exact (List.map_id _).symm
    · intro hwant t e o he ho hlast
      obtain ⟨hmulti, hout⟩ := hdone.logits hwant
      rw [List.getElem?_map, Option.map_eq_some_iff] at ho
      obtain ⟨hidden, hhidden, rfl⟩ := ho
      have hitem : (entries.zip (m.stack.result d.kv entries).2)[t]? = some (e, hidden) := by
        rw [List.getElem?_zip_eq_some]
        exact ⟨he, hhidden⟩
      have hfst : (entries.zip (m.stack.result d.kv entries).2).map (·.1) = entries :=
        List.map_fst_zip (by simp)
      have hlogit := m.stack.getElem?_entryLogits hitem (by
        intro i hi
        have hmem := List.mem_map_of_mem (f := (·.1)) hi
        rw [List.map_drop, hfst] at hmem
        exact hlast i.1 hmem)
      rw [hout, hmulti, List.getElem?_map, hlogit]
      exact ⟨rfl, rfl⟩
  · intro s d₂ entries₂ h₂ hstart hsame
    obtain ⟨d₂', out₂, _, hrun₂, hdone₂, _⟩ := m.stack.stepMulti_run hslots d₂ entries₂ h₂ wantLogits
    exact ⟨d₂', out₂, hrun₂, hdone.agreesIn hdone₂ hstart hsame⟩

end AnyDecoder

/-! ### A small model of each engine

Vectors, matrices and numbers are integers; the caches have one slot a layer. -/

def tinyKernels : Kernels Int Int Int where
  rmsnorm x weight _ _ := weight * x
  matGemv w x := w * x
  siluMul x y := x * y
  q4g64Gemv handle _ x := (handle.expert + 1) * x
  dtoh x := [x, x + 1]
  f32Min := -1000

/-- Two experts a token. -/
def tinyQwen : Qwen.Model Int Int Int where
  ke :=
    { tinyKernels with
      bf16Row := fun w token => w * token
      rope := fun x _ _ pos => x + pos
      kvElem := id
      attnDecode := fun q rows => q + (rows.map fun row => row.1 * row.2).sum }
  cfg :=
    { hidden := 1, layers := 1, heads := 1, kvHeads := 1, headDim := 1, topK := 2,
      normTopkProb := false }
  embed := 1
  layer _ :=
    { inputLn := 1, q := 1, k := 1, v := 1, o := 1, qNorm := 1, kNorm := 1, postLn := 1,
      router := 1 }
  finalNorm := 1
  lmHead := 1
  topKSoftmax logits k _ := (logits.zipIdx.map fun p => (p.2, p.1)).take k
  maxSeq := 8
  batchCap := 2
  pool := ⟨1, 1, by decide⟩

/-- A dense layer, and one with two experts a token. -/
def tinyKimi : Kimi.Model Int Int Int where
  ke :=
    { tinyKernels with
      embedRow := fun token => token
      mlaRope := fun x _ _ _ _ pos => x + pos
      stridedCopy := fun x _ off _ _ => x + off
      bf16GemvBatch := fun w x _ _ _ _ => w * x
      mlaAttnDecode := fun q rows => q.1 + q.2 + (rows.map fun row => row.1 * row.2).sum }
  cfg :=
    { hidden := 1, layers := 2, denseLayers := 1, heads := 1, qLora := 1, kvLora := 1, nope := 1,
      rope := 2, vHead := 1, topK := 2, normTopkProb := false, routedScaling := 1 }
  layer l :=
    { inputLn := 1, qA := 1, qALn := 1, qB := 1, kvA := 1, kvALn := 1, kt := 1, vw := 1, o := 1,
      postLn := 1
      mlp := if l < 1 then .dense 1 1 1 else .moe 1 [] 1 1 1 }
  dense_le l router routerBias gate up down h := by
    by_cases hl : l < 1
    · simp [hl] at h
    · exact Nat.not_lt.mp hl
  finalNorm := 1
  lmHead := 1
  minExpertWeight := 0
  sigmoidTopk logits _ k _ _ _ := (logits.zipIdx.map fun p => (p.2, p.1)).take k
  maxSeq := 8
  batchCap := 2
  pool := ⟨1, 1, by decide⟩

/-- Nothing has been decoded yet. -/
def blank : Decoder Int Int where
  kv _ _ _ := (0, 0)
  h := 0
  hBuf := []
  logitsHost := []
  logitsMulti := []
  runs := []

/-- A pager that serves every request. -/
def serving : Answers := fun _ => .served

/-- Two tokens on slot 0 and one on slot 1 between them, on the Kimi engine with
waves of one expert. -/
theorem tinyKimi_oneByOne :
    ∃ d' out rest d₁ os rest₁,
      (AnyDecoder.kimi tinyKimi).stepMulti blank [⟨3, 0, 0⟩, ⟨5, 0, 1⟩, ⟨4, 1, 0⟩] true serving =
        .ok ((d', out), rest) ∧
      (AnyDecoder.kimi tinyKimi).oneByOne blank [⟨3, 0, 0⟩, ⟨5, 0, 1⟩, ⟨4, 1, 0⟩] serving =
        .ok ((d₁, os), rest₁) ∧
      Agrees [⟨3, 0, 0⟩, ⟨5, 0, 1⟩, ⟨4, 1, 0⟩] true d' out d₁ os := by
  obtain ⟨d', out, _, hmulti, _, _, _, ⟨d₁, os, hone, hagrees⟩, _⟩ :=
    (AnyDecoder.kimi tinyKimi).stepMulti_oneByOne (by decide) blank
      [⟨3, 0, 0⟩, ⟨5, 0, 1⟩, ⟨4, 1, 0⟩]
      ⟨by decide, by decide, by decide, by decide⟩ true
  rcases hmulti.served (fun _ => rfl : ∀ n, serving n = .served) with ⟨rest, hrun⟩ | ⟨_, _, hno⟩
  · rcases hone.served (fun _ => rfl : ∀ n, serving n = .served) with ⟨rest₁, hrun₁⟩ | ⟨_, _, hno⟩
    · exact ⟨d', out, rest, d₁, os, rest₁, hrun, hrun₁, hagrees⟩
    · exact hno.elim
  · exact hno.elim

/-- A token of two experts on the Qwen engine with one slot a layer: `step_multi`
decodes it in two waves, `step` is refused. -/
theorem tinyQwen_refused :
    1 ≤ tinyQwen.pool.slots ∧ tinyQwen.stack.Accepts [⟨3, 0, 0⟩] ∧
      (∃ d' out rest, (AnyDecoder.qwen tinyQwen).stepMulti blank [⟨3, 0, 0⟩] true serving =
        .ok ((d', out), rest)) ∧
      (AnyDecoder.qwen tinyQwen).oneByOne blank [⟨3, 0, 0⟩] serving = .error (.request 2 1) := by
  have haccepts : tinyQwen.stack.Accepts [⟨3, 0, 0⟩] :=
    ⟨by decide, by decide, by decide, by decide⟩
  obtain ⟨d', out, _, hmulti, _⟩ :=
    tinyQwen.stack.stepMulti_run (by decide) blank [⟨3, 0, 0⟩] haccepts true
  rcases hmulti.served (fun _ => rfl : ∀ n, serving n = .served) with ⟨rest, hrun⟩ | ⟨_, _, hno⟩
  · exact ⟨by decide, haccepts, ⟨d', out, rest, hrun⟩, rfl⟩
  · exact hno.elim

end LlmPager.Forward
