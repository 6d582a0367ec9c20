import LlmPager.Run.Prefill
import LlmPager.Serve.DecoderSpec

/-!
# LlmPager.Run.Cells

The decoder that the server is modelled over (`Serve.Decoder`) is an abstraction
of the forward pass: a cell is the rows of all layers at one position, and the
two functions of `Serve.Arch` are one token taken through the layers behind the
cells before it (`Stack.arch`). A call of the forward pass that no request stops
is the same call of the abstract decoder on the abstracted caches, with the same
result (`Stack.stepMulti_refines`).

What makes this work is that attention is causal: it appends the row of its own
position and reads the rows before it.
-/

namespace LlmPager.Forward

open Lib (column byItem)
open Serve (Entry ServeError chunkCap)

variable {V M F : Type}

/-- An attention block with the semantics of `kv_append` and `attn_decode`. -/
structure Layer.Causal (lay : Layer V F) : Prop where
  /-- Only the row of the position is written. -/
  writes : ∀ rows pos h p, p ≠ pos → (lay.attention rows pos h).1 p = rows p
  /-- What is written, and the hidden state, depend on the rows before it. -/
  reads : ∀ rows rows' pos h, (∀ p < pos, rows p = rows' p) →
    (lay.attention rows pos h).1 pos = (lay.attention rows' pos h).1 pos ∧
      (lay.attention rows pos h).2 = (lay.attention rows' pos h).2

theorem attended_kvAppend {rows rows' : Nat → V × V} {pos : Nat} (row : V × V)
    (h : ∀ p < pos, rows p = rows' p) :
    attended (kvAppend rows pos row) pos = attended (kvAppend rows' pos row) pos := by
  apply List.map_congr_left
  intro p hp
  by_cases hpos : p = pos
  · subst hpos
    simp [kvAppend]
  · have hlt : p < pos := by
      have := List.mem_range.mp hp
      omega
    simp [kvAppend, Function.update_of_ne hpos, h p hlt]

section Causal

variable [AddCommMonoid V]

theorem Qwen.Model.causal (m : Qwen.Model V M F) (l : Nat) : (m.stack.layer l).Causal where
  writes rows pos h p hp := Function.update_of_ne hp _ _
  reads rows rows' pos h hrows := by
    constructor
    · show Function.update rows pos _ pos = Function.update rows' pos _ pos
      rw [Function.update_self, Function.update_self]
    · show h + m.ke.matGemv _ (m.ke.attnDecode _ (attended (kvAppend rows pos _) pos)) =
        h + m.ke.matGemv _ (m.ke.attnDecode _ (attended (kvAppend rows' pos _) pos))
      rw [attended_kvAppend _ hrows]

theorem Kimi.Model.causal (m : Kimi.Model V M F) (l : Nat) : (m.stack.layer l).Causal where
  writes rows pos h p hp := Function.update_of_ne hp _ _
  reads rows rows' pos h hrows := by
    constructor
    · show Function.update rows pos _ pos = Function.update rows' pos _ pos
      rw [Function.update_self, Function.update_self]
    · show h + m.ke.matGemv _ (m.ke.bf16GemvBatch _
          (m.ke.mlaAttnDecode _ (attended (kvAppend rows pos _) pos)) _ _ _ _) =
        h + m.ke.matGemv _ (m.ke.bf16GemvBatch _
          (m.ke.mlaAttnDecode _ (attended (kvAppend rows' pos _) pos)) _ _ _ _)
      rw [attended_kvAppend _ hrows]

theorem AnyDecoder.causal [SMul F V] (m : AnyDecoder V M F) (l : Nat) :
    (m.stack.layer l).Causal := by
  cases m with
  | qwen m => exact m.causal l
  | kimi m => exact m.causal l

end Causal

/-! ### Columns of causal layers -/

section Columns

variable [AddCommMonoid V] [SMul F V] {m : Stack V F} {ls : List Nat}
  {kv kv' : Nat → Nat → Nat → V × V}

/-- A column writes the position of its entry only. -/
theorem Stack.column_writes {e : Entry} {h : V} (hcausal : ∀ l ∈ ls, (m.layer l).Causal) {s p : Nat}
    (hsp : ¬(s = e.seq ∧ p = e.pos)) (l : Nat) :
    (column m.grid e ls kv h).1 l s p = kv l s p := by
  induction ls generalizing kv h with
  | nil => rfl
  | cons l' ls ih =>
      rw [column, ih fun l hl => hcausal l (List.mem_cons_of_mem _ hl)]
      by_cases hl : l = l'
      · subst hl
        rw [Function.update_self]
        by_cases hs : s = e.seq
        · subst hs
          have hp : p ≠ e.pos := fun heq => hsp ⟨rfl, heq⟩
          show Function.update (kv l) e.seq _ e.seq p = _
          rw [Function.update_self]
          exact (hcausal l List.mem_cons_self).writes _ _ _ _ hp
        · exact congrFun (Function.update_of_ne hs _ _) p
      · rw [Function.update_of_ne hl]

/-- A column depends on the rows of its slot before its position: it may as well
run in another slot that holds the same rows. -/
theorem Stack.column_reads (e e' : Entry) (h : V) (hcausal : ∀ l ∈ ls, (m.layer l).Causal)
    (hnd : ls.Nodup) (hpos : e'.pos = e.pos)
    (hrows : ∀ l ∈ ls, ∀ p < e.pos, kv l e.seq p = kv' l e'.seq p) :
    (column m.grid e ls kv h).2 = (column m.grid e' ls kv' h).2 ∧
      ∀ l ∈ ls, (column m.grid e ls kv h).1 l e.seq e.pos =
        (column m.grid e' ls kv' h).1 l e'.seq e.pos := by
  induction ls generalizing kv kv' h with
  | nil => exact ⟨rfl, nofun⟩
  | cons l ls ih =>
      obtain ⟨hl, hnd⟩ := List.nodup_cons.mp hnd
      obtain ⟨hrow, hout⟩ := (hcausal l List.mem_cons_self).reads (kv l e.seq) (kv' l e'.seq) e.pos
        h (hrows l List.mem_cons_self)
      have hvalue : (m.grid l e' (kv' l) h).2 = (m.grid l e (kv l) h).2 := by
        show m.mlpOut l ((m.layer l).attention (kv' l e'.seq) e'.pos h).2 =
          m.mlpOut l ((m.layer l).attention (kv l e.seq) e.pos h).2
        rw [hpos, hout]
      have hrest := @ih (Function.update kv l (m.grid l e (kv l) h).1)
        (Function.update kv' l (m.grid l e' (kv' l) h).1) (m.grid l e (kv l) h).2
        (fun l' hl' => hcausal l' (List.mem_cons_of_mem _ hl')) hnd (by
          intro l' hl' p hp
          have hne : l' ≠ l := fun heq => hl (heq ▸ hl')
          rw [Function.update_of_ne hne, Function.update_of_ne hne]
          exact hrows l' (List.mem_cons_of_mem _ hl') p hp)
      simp only [column, hvalue]
      refine ⟨hrest.1, fun l' hl' => ?_⟩
      rcases List.mem_cons.mp hl' with rfl | hl'
      · rw [Lib.column_apply hl, Lib.column_apply hl, Function.update_self, Function.update_self]
        show Function.update (kv l') e.seq _ e.seq e.pos =
          Function.update (kv' l') e'.seq _ e'.seq e.pos
        rw [Function.update_self, Function.update_self]
        show _ = ((m.layer l').attention (kv' l' e'.seq) e'.pos h).1 e.pos
        rw [hpos]
        exact hrow
      · exact hrest.2 l' hl'

end Columns

/-! ### The abstract decoder -/

section Refinement

variable [AddCommMonoid V] [SMul F V]

/-- What one position of a slot holds: a row in every layer. -/
def cellAt (layers : Nat) (kv : Nat → Nat → Nat → V × V) (s p : Nat) : List (V × V) :=
  (List.range layers).map fun l => kv l s p

/-- Caches that hold the given cells, in every slot. -/
def rowsOf (cells : List (List (V × V))) : Nat → Nat → Nat → V × V :=
  fun l _ p => (cells.getD p []).getD l 0

namespace Stack

variable (m : Stack V F)

/-- A token taken through the layers behind the given cells. -/
def behind (cells : List (List (V × V))) (token : Nat) : (Nat → Nat → Nat → V × V) × V :=
  column m.grid { token, pos := cells.length, seq := 0 } (List.range m.layers) (rowsOf cells)
    (m.embed token)

/-- The caches and the cells of an abstract decoder are the same. -/
def Simulates (kv : Nat → Nat → Nat → V × V) (d : Serve.Decoder (List (V × V)) (List F)) : Prop :=
  ∀ s p, d.kv s p = cellAt m.layers kv s p

/-- The forward pass as the server's model of it. -/
def arch [LT F] [DecidableLT F] (kvBytesPerToken : Nat) (eos : List Nat) :
    Serve.Arch (List (V × V)) (List F) where
  batch := m.batchCap
  maxSeq := m.maxSeq
  kvBytesPerToken
  eos
  cell cells token := cellAt m.layers (m.behind cells token).1 0 cells.length
  logits cells token := m.logits (m.behind cells token).2
  argmax := greedy m.f32Min
  fails _ := none
  junk _ _ _ := []

variable {m} {kv : Nat → Nat → Nat → V × V} {d : Serve.Decoder (List (V × V)) (List F)}

/-- An entry's column, read off the cells before it. -/
theorem Simulates.behind (hcausal : ∀ l, (m.layer l).Causal) (hsim : m.Simulates kv d) (e : Entry) :
    (column m.grid e (List.range m.layers) kv (m.embed e.token)).2 =
        (m.behind (d.read e.seq e.pos) e.token).2 ∧
      cellAt m.layers (column m.grid e (List.range m.layers) kv (m.embed e.token)).1 e.seq e.pos =
        cellAt m.layers (m.behind (d.read e.seq e.pos) e.token).1 0 e.pos := by
  have hread : ∀ l ∈ List.range m.layers, ∀ p < e.pos,
      kv l e.seq p = rowsOf (d.read e.seq e.pos) l 0 p := by
    intro l hl p hp
    have hcell : (d.read e.seq e.pos).getD p [] = cellAt m.layers kv e.seq p := by
      rw [List.getD_eq_getElem?_getD, Serve.Decoder.getElem?_read, if_pos hp, hsim]
      rfl
    rw [rowsOf, hcell, cellAt, List.getD_eq_getElem?_getD, List.getElem?_map,
      List.getElem?_range (List.mem_range.mp hl)]
    rfl
  obtain ⟨hout, hrows⟩ := Stack.column_reads e
    { token := e.token, pos := (d.read e.seq e.pos).length, seq := 0 } (m.embed e.token)
    (fun l _ => hcausal l) List.nodup_range (by simp) hread
  exact ⟨hout, List.map_congr_left hrows⟩

variable [LT F] [DecidableLT F] (kvBytesPerToken : Nat) (eos : List Nat)

/-- One entry: its column, and `stepEntry`. -/
theorem Simulates.stepEntry (hcausal : ∀ l, (m.layer l).Causal) (hsim : m.Simulates kv d)
    (e : Entry) :
    m.Simulates (column m.grid e (List.range m.layers) kv (m.embed e.token)).1
      (d.stepEntry (m.arch kvBytesPerToken eos) e) := by
  intro s p
  by_cases hsp : s = e.seq ∧ p = e.pos
  · obtain ⟨rfl, rfl⟩ := hsp
    rw [(hsim.behind hcausal e).2]
    show (if e.seq = e.seq ∧ e.pos = e.pos then _ else _) = _
    rw [if_pos ⟨rfl, rfl⟩]
    show cellAt m.layers (m.behind (d.read e.seq e.pos) e.token).1 0 (d.read e.seq e.pos).length = _
    rw [Serve.Decoder.length_read]
  · show (if s = e.seq ∧ p = e.pos then _ else d.kv s p) = _
    rw [if_neg hsp, hsim]
    apply List.map_congr_left
    intro l _
    exact (Stack.column_writes (fun l _ => hcausal l) hsp l).symm

/-- The entries of a call, one after the other. -/
theorem Simulates.foldl (hcausal : ∀ l, (m.layer l).Causal) (hsim : m.Simulates kv d)
    (entries : List Entry) :
    m.Simulates (m.result kv entries).1
      (entries.foldl (Serve.Decoder.stepEntry (m.arch kvBytesPerToken eos)) d) := by
  induction entries generalizing kv d with
  | nil => exact hsim
  | cons e entries ih => exact ih (hsim.stepEntry kvBytesPerToken eos hcausal e)

/-- The logits of a call. -/
theorem Simulates.entryLogits (hcausal : ∀ l, (m.layer l).Causal) (hsim : m.Simulates kv d)
    (entries : List Entry) :
    (Serve.Decoder.entryLogits (m.arch kvBytesPerToken eos)
        (entries.foldl (Serve.Decoder.stepEntry (m.arch kvBytesPerToken eos)) d) entries).map
          (·.getD []) =
      m.entryLogits (entries.zip (m.result kv entries).2) := by
  induction entries generalizing kv d with
  | nil => rfl
  | cons e entries ih =>
      have hrest := ih (hsim.stepEntry kvBytesPerToken eos hcausal e)
      have hout := (hsim.behind hcausal e).1
      rw [m.result_cons]
      generalize column m.grid e (List.range m.layers) kv (m.embed e.token) = r at hrest hout
      have hfst : (entries.zip (m.result r.1 entries).2).map (·.1) = entries :=
        List.map_fst_zip (by simp)
      have hall : (entries.zip (m.result r.1 entries).2).all (·.1.seq ≠ e.seq) =
          entries.all (·.seq ≠ e.seq) := by
        conv_rhs => rw [← hfst, List.all_map]
        rfl
      simp only [List.foldl_cons, Serve.Decoder.entryLogits, List.map_cons, List.zip_cons_cons,
        Stack.entryLogits]
      congr 1
      by_cases hlast : entries.all (·.seq ≠ e.seq) = true
      · have hne : ∀ e' ∈ entries, e'.seq ≠ e.seq := by simpa using hlast
        rw [if_pos hlast]
        rw [← hall] at hlast
        rw [if_pos hlast, hout]
        show m.logits (m.behind (((e :: entries).foldl _ d).read e.seq e.pos) e.token).2 = _
        rw [Serve.Decoder.read_foldl_last _ d e hne]
      · rw [if_neg hlast]
        rw [← hall] at hlast
        rw [if_neg hlast]
        rfl

/-- Both decoders check their entries alike. -/
theorem entryError_arch (hbatch : 1 ≤ m.batchCap) :
    Serve.Decoder.entryError (m.arch kvBytesPerToken eos) = m.entryError := by
  have hcap : (m.arch kvBytesPerToken eos).batchCap = m.batchCap := Nat.max_eq_left hbatch
  funext e
  rw [Serve.Decoder.entryError, hcap]
  rfl

/-- `step_multi` of the forward pass is `step_multi` of the abstract decoder, but
for the requests that fail in the pager. -/
theorem stepMulti_refines (hslots : 1 ≤ m.pool.slots) (hbatch : 1 ≤ m.batchCap)
    (hcausal : ∀ l, (m.layer l).Causal) (fd : Decoder V F) (hsim : m.Simulates fd.kv d)
    (entries : List Entry) (wantLogits : Bool) (answers : Answers) :
    match m.stepMulti fd entries wantLogits answers with
    | .ok ((fd', out), _) => ∃ d',
        Serve.Decoder.stepMulti (m.arch kvBytesPerToken eos) entries wantLogits d = .ok out d' ∧
        m.Simulates fd'.kv d' ∧
        (wantLogits = true → d'.logitsMulti.map (·.getD []) = fd'.logitsMulti)
    | .error err => err.inPager = true ∧ (∃ n, answers n ≠ .served) ∨ ∃ e, err = .refused e ∧
        Serve.Decoder.stepMulti (m.arch kvBytesPerToken eos) entries wantLogits d = .error e d := by
  have herror := entryError_arch kvBytesPerToken eos hbatch (m := m)
  by_cases hn : entries.length = 0 ∨ chunkCap < entries.length
  · simp only [stepMulti, Serve.Decoder.stepMulti, if_pos hn]
    exact .inr ⟨_, rfl, rfl⟩
  cases hcheck : entries.findSome? m.entryError with
  | some e =>
      simp only [stepMulti, Serve.Decoder.stepMulti, if_neg hn, herror, hcheck]
      exact .inr ⟨_, rfl, rfl⟩
  | none =>
      have haccepts : m.Accepts entries := m.accepts_iff.mpr ⟨hn, hcheck⟩
      obtain ⟨fd', out, _, hrun, hdone, _⟩ := m.stepMulti_run hslots fd entries haccepts wantLogits
      have hcalled : m.Simulates fd.kv { d with calls := d.calls + 1 } := hsim
      have hsim' := hcalled.foldl kvBytesPerToken eos hcausal entries
      have hlogits := hcalled.entryLogits kvBytesPerToken eos hcausal entries
      have hmulti : wantLogits = true →
          (Serve.Decoder.stepped (m.arch kvBytesPerToken eos) d entries wantLogits).logitsMulti.map
            (·.getD []) = fd'.logitsMulti := by
        intro hwant
        subst hwant
        rw [(hdone.logits rfl).1, ← hlogits]
        rfl
      rcases hrun answers with ⟨n, hok⟩ | ⟨err, herr, hno | hpager⟩
      · rw [hok]
        refine ⟨_, ?_, ?_, hmulti⟩
        · rw [Serve.Decoder.stepMulti_accepted _ hn (by rw [herror, hcheck]) rfl]
          congr 1
          cases wantLogits with
          | true =>
              rw [if_pos rfl, (hdone.logits rfl).2, ← hmulti rfl, List.map_map]
              apply List.map_congr_left
              intro l _
              cases l with
              | none => rfl
              | some logits => rfl
          | false => exact (hdone.quiet rfl).symm
        · intro s p
          rw [Serve.Decoder.stepped_kv, hdone.kv]
          exact hsim' s p
      · exact hno.elim
      · rw [herr]
        exact .inl hpager

end Stack

namespace AnyDecoder

variable [LT F] [DecidableLT F] (m : AnyDecoder V M F)

/-- `step_multi` of either engine is `step_multi` of the abstract decoder. -/
theorem stepMulti_refines (kvBytesPerToken : Nat) (eos : List Nat)
    (hslots : 1 ≤ m.stack.pool.slots) (hbatch : 1 ≤ m.stack.batchCap) (fd : Decoder V F)
    {d : Serve.Decoder (List (V × V)) (List F)} (hsim : m.stack.Simulates fd.kv d)
    (entries : List Entry) (wantLogits : Bool) (answers : Answers) :
    match m.stepMulti fd entries wantLogits answers with
    | .ok ((fd', out), _) => ∃ d',
        Serve.Decoder.stepMulti (m.stack.arch kvBytesPerToken eos) entries wantLogits d =
          .ok out d' ∧
        m.stack.Simulates fd'.kv d' ∧
        (wantLogits = true → d'.logitsMulti.map (·.getD []) = fd'.logitsMulti)
    | .error err => err.inPager = true ∧ (∃ n, answers n ≠ .served) ∨ ∃ e, err = .refused e ∧
        Serve.Decoder.stepMulti (m.stack.arch kvBytesPerToken eos) entries wantLogits d =
          .error e d := by
  rw [m.stepMulti_eq]
  exact Stack.stepMulti_refines kvBytesPerToken eos hslots hbatch m.causal fd hsim entries
    wantLogits answers

/-- `step` of either engine is `step` of the abstract decoder, but for the
requests that the pager refuses or fails. -/
theorem step_refines (kvBytesPerToken : Nat) (eos : List Nat) (hslots : 1 ≤ m.stack.pool.slots)
    (fd : Decoder V F) {d : Serve.Decoder (List (V × V)) (List F)}
    (hsim : m.stack.Simulates fd.kv d) (token pos : Nat) (wantLogits : Bool)
    (answers : Answers) :
    match m.step fd token pos wantLogits answers with
    | .ok ((fd', next), _) => ∃ d',
        Serve.Decoder.step (m.stack.arch kvBytesPerToken eos) token pos wantLogits d =
          .ok next d' ∧
        m.stack.Simulates fd'.kv d' ∧ (wantLogits = true → d'.lastLogits = fd'.logitsHost)
    | .error err => m.Refused err ∨ err.inPager = true ∧ (∃ n, answers n ≠ .served) ∨
        ∃ e, err = .refused e ∧
          Serve.Decoder.step (m.stack.arch kvBytesPerToken eos) token pos wantLogits d =
            .error e d := by
  by_cases hpos : m.stack.maxSeq ≤ pos
  · have hfull : m.step fd token pos wantLogits answers =
        .error (.refused (.position pos m.stack.maxSeq)) := by
      cases m with
      | qwen m => exact congrFun (if_pos hpos) answers
      | kimi m => exact congrFun (if_pos hpos) answers
    rw [hfull]
    refine .inr (.inr ⟨_, rfl, ?_⟩)
    show (if m.stack.maxSeq ≤ pos then _ else _ : EStateM _ _ _) d = _
    rw [if_pos hpos]
    rfl
  let e : Entry := { token, pos, seq := 0 }
  have hcalled : m.stack.Simulates fd.kv { d with calls := d.calls + 1 } := hsim
  obtain ⟨fd', hrun, hkv, -, hlogits⟩ :=
    m.step_run hslots fd e rfl (Nat.not_le.mp hpos) wantLogits
  rcases hrun answers with ⟨n, hok⟩ | ⟨err, herr, hwhy⟩
  · have hout := (hcalled.behind m.causal e).1
    have hsim' := hcalled.stepEntry kvBytesPerToken eos m.causal e
    have habstract := @Serve.Decoder.step_accepted _ _ (m.stack.arch kvBytesPerToken eos) token pos
      d (Nat.not_le.mp hpos) rfl wantLogits
    rw [hok, hout]
    rw [← hkv] at hsim'
    refine ⟨_, habstract, hsim', ?_⟩
    intro hwant
    rw [hlogits hwant, hout, if_pos hwant]
    rfl
  · rw [herr]
    exact hwhy.imp_right .inl

end AnyDecoder

end Refinement

end LlmPager.Forward
