import LlmPager.Serve.Decoder

/-!
# LlmPager.Serve.DecoderSpec

What each decoder call can do to the sequence slots, said once: `step_multi` and
`step` write at the positions of their entries and nowhere else, whether they
succeed or fail; a chunk that continues the tokens a slot holds leaves it
holding the longer list; `kv_export` writes nothing, and `kv_import` restores the
exported cells or fails with anything in the positions it was writing.
-/

namespace LlmPager.Serve.Decoder

open LlmPager.Lib

variable {Cell Logits : Type} (arch : Arch Cell Logits)

/-! ### Frames -/

/-- Only positions in `touched` may differ, and no copy was made. -/
structure ChangesOnly (touched : Nat → Nat → Prop) (d d' : Decoder Cell Logits) : Prop where
  kv : ∀ s p, ¬touched s p → d'.kv s p = d.kv s p
  copies : d'.copies = d.copies

section ChangesOnly

variable {touched touched' : Nat → Nat → Prop} {d d' d'' : Decoder Cell Logits}

theorem ChangesOnly.rfl : ChangesOnly touched d d := ⟨fun _ _ _ => Eq.refl _, Eq.refl _⟩

theorem ChangesOnly.trans (h : ChangesOnly touched d d') (h' : ChangesOnly touched d' d'') :
    ChangesOnly touched d d'' :=
  ⟨fun s p hsp => (h'.kv s p hsp).trans (h.kv s p hsp), h'.copies.trans h.copies⟩

theorem ChangesOnly.mono (h : ChangesOnly touched d d')
    (hsub : ∀ s p, touched s p → touched' s p) : ChangesOnly touched' d d' :=
  ⟨fun s p hsp => h.kv s p fun hs => hsp (hsub s p hs), h.copies⟩

/-- What a slot holds outside the touched positions stays. -/
theorem Holds.of_changesOnly {seq : Nat} {tokens : List Nat} (hd : d.Holds arch seq tokens)
    (h : ChangesOnly touched d d') (hsep : ∀ p < tokens.length, ¬touched seq p) :
    d'.Holds arch seq tokens :=
  hd.congr fun p hp => h.kv seq p (hsep p hp)

end ChangesOnly

/-- The positions a list of entries writes. -/
def OnEntries (entries : List Entry) (s p : Nat) : Prop :=
  ∃ e ∈ entries, e.seq = s ∧ e.pos = p

/-! ### Steps -/

theorem stepEntry_changesOnly (d : Decoder Cell Logits) (e : Entry) :
    ChangesOnly (OnEntries [e]) d (d.stepEntry arch e) := by
  refine ⟨fun s p hsp => ?_, rfl⟩
  show (if s = e.seq ∧ p = e.pos then _ else d.kv s p) = d.kv s p
  rw [if_neg]
  rintro ⟨rfl, rfl⟩
  exact hsp ⟨e, List.mem_singleton.mpr rfl, rfl, rfl⟩

theorem foldl_stepEntry_changesOnly (entries : List Entry) (d : Decoder Cell Logits) :
    ChangesOnly (OnEntries entries) d (entries.foldl (stepEntry arch) d) := by
  induction entries generalizing d with
  | nil => exact .rfl
  | cons e entries ih =>
      have hhead : ChangesOnly (OnEntries (e :: entries)) d (d.stepEntry arch e) :=
        (stepEntry_changesOnly arch d e).mono fun s p ⟨e', he', h⟩ =>
          ⟨e', List.mem_cons.mpr (.inl (List.mem_singleton.mp he')), h⟩
      have htail : ChangesOnly (OnEntries (e :: entries)) (d.stepEntry arch e)
          (entries.foldl (stepEntry arch) (d.stepEntry arch e)) :=
        (ih (d.stepEntry arch e)).mono fun s p ⟨e', he', h⟩ =>
          ⟨e', List.mem_cons_of_mem _ he', h⟩
      exact hhead.trans htail

/-- The entries behind the last one of a slot leave the rows before it alone. -/
theorem read_foldl_last (d : Decoder Cell Logits) (e : Entry) {entries : List Entry}
    (hlast : ∀ e' ∈ entries, e'.seq ≠ e.seq) :
    ((e :: entries).foldl (stepEntry arch) d).read e.seq e.pos = d.read e.seq e.pos := by
  apply read_congr
  intro p hp
  have hrest := (foldl_stepEntry_changesOnly arch entries (d.stepEntry arch e)).kv e.seq p
    fun ⟨e', he', hseq, _⟩ => hlast e' he' hseq
  have hhead : (d.stepEntry arch e).kv e.seq p = d.kv e.seq p :=
    if_neg fun h => Nat.ne_of_lt hp h.2
  exact hrest.trans hhead

theorem scramble_changesOnly (d : Decoder Cell Logits) {touched : Nat → Nat → Bool}
    {on : Nat → Nat → Prop} (h : ∀ s p, touched s p = true → on s p) :
    ChangesOnly on d (d.scramble arch touched) := by
  refine ⟨fun s p hsp => ?_, rfl⟩
  show (if touched s p then _ else d.kv s p) = d.kv s p
  exact if_neg fun ht => hsp (h s p ht)

/-- The decoder after a `step_multi` that succeeds. -/
def stepped (d : Decoder Cell Logits) (entries : List Entry) (wantLogits : Bool) :
    Decoder Cell Logits :=
  let d' := entries.foldl (stepEntry arch) { d with calls := d.calls + 1 }
  if wantLogits then d'.withLogits arch entries else d'

/-- Entries `step_multi` refuses. -/
def Refuses (entries : List Entry) : Prop :=
  entries = [] ∨ chunkCap < entries.length ∨
    ∃ e ∈ entries, arch.maxSeq ≤ e.pos ∨ arch.batchCap ≤ e.seq

theorem findSome?_entryError {entries : List Entry} :
    entries.findSome? (entryError arch) = none ↔
      ∀ e ∈ entries, e.pos < arch.maxSeq ∧ e.seq < arch.batchCap := by
  rw [List.findSome?_eq_none_iff]
  refine forall₂_congr fun e _ => ?_
  unfold entryError
  by_cases hpos : arch.maxSeq ≤ e.pos
  · simp [hpos]
  · by_cases hseq : arch.batchCap ≤ e.seq
    · simp [hpos, hseq]
    · simp only [hpos, hseq, if_false, true_iff]
      omega

/-- Which entries are refused, by the checks in their order. -/
theorem refuses_iff {entries : List Entry} :
    Refuses arch entries ↔ (entries.length = 0 ∨ chunkCap < entries.length) ∨
      entries.findSome? (entryError arch) ≠ none := by
  rw [Ne, findSome?_entryError, Refuses, or_assoc, List.length_eq_zero_iff]
  refine or_congr_right (or_congr_right ?_)
  constructor
  · intro ⟨e, he, hbound⟩ hall
    have := hall e he
    omega
  · intro hnot
    by_contra hnone
    apply hnot
    intro e he
    by_contra hbound
    exact hnone ⟨e, he, by omega⟩

/-- An accepted call whose device call succeeds. -/
theorem stepMulti_accepted {entries : List Entry} {d : Decoder Cell Logits}
    (hn : ¬(entries.length = 0 ∨ chunkCap < entries.length))
    (hcheck : entries.findSome? (entryError arch) = none) (hfail : arch.fails d.calls = none)
    (wantLogits : Bool) :
    stepMulti arch entries wantLogits d =
      .ok (if wantLogits then (stepped arch d entries wantLogits).logitsMulti.map
          (fun l => (l.map arch.argmax).getD 0) else List.replicate entries.length 0)
        (stepped arch d entries wantLogits) := by
  simp only [stepMulti, if_neg hn, hcheck, bind, EStateM.bind, deviceCall, hfail]
  cases wantLogits with
  | true => rfl
  | false => rfl

/-- What a `step_multi` does: it refuses its entries, fails on the device, or
steps the entries one after the other. -/
theorem stepMulti_cases (entries : List Entry) (wantLogits : Bool) (d : Decoder Cell Logits) :
    (∃ err, stepMulti arch entries wantLogits d = .error err d ∧ Refuses arch entries) ∨
      (∃ text, stepMulti arch entries wantLogits d = .error (.device text)
          (scramble arch { d with calls := d.calls + 1 }
            fun s p => entries.any fun e => e.seq = s ∧ e.pos = p) ∧
        arch.fails d.calls = some text) ∨
      stepMulti arch entries wantLogits d =
          .ok (if wantLogits then (stepped arch d entries wantLogits).logitsMulti.map
              (fun l => (l.map arch.argmax).getD 0) else List.replicate entries.length 0)
            (stepped arch d entries wantLogits) ∧
        ¬Refuses arch entries := by
  rw [refuses_iff]
  by_cases hn : entries.length = 0 ∨ chunkCap < entries.length
  · left
    simp only [stepMulti, if_pos hn]
    exact ⟨_, rfl, .inl hn⟩
  cases hcheck : entries.findSome? (entryError arch) with
  | some err =>
      left
      simp only [stepMulti, if_neg hn, hcheck]
      exact ⟨err, rfl, .inr nofun⟩
  | none =>
      right
      cases hfail : arch.fails d.calls with
      | some text =>
          left
          simp only [stepMulti, if_neg hn, hcheck, bind, EStateM.bind, deviceCall, hfail]
          exact ⟨text, rfl, rfl⟩
      | none =>
          right
          refine ⟨stepMulti_accepted arch hn hcheck hfail wantLogits, ?_⟩
          exact fun hrefused => hrefused.elim hn fun hne => hne rfl

/-- Inversion of a `step_multi` that succeeds. -/
theorem stepMulti_ok {entries : List Entry} {wantLogits : Bool} {d d' : Decoder Cell Logits}
    {out : List Nat} (h : stepMulti arch entries wantLogits d = .ok out d') :
    d' = stepped arch d entries wantLogits ∧
      out = if wantLogits then d'.logitsMulti.map (fun l => (l.map arch.argmax).getD 0)
        else List.replicate entries.length 0 := by
  rcases stepMulti_cases arch entries wantLogits d with ⟨_, herr, _⟩ | ⟨_, herr, _⟩ | ⟨hok, _⟩
  · rw [herr] at h
    cases h
  · rw [herr] at h
    cases h
  · rw [hok] at h
    cases h
    exact ⟨rfl, rfl⟩

/-- Inversion of a `step_multi` that fails: refused, or failed on the device. -/
theorem stepMulti_error {entries : List Entry} {wantLogits : Bool} {d d' : Decoder Cell Logits}
    {err : ServeError} (h : stepMulti arch entries wantLogits d = .error err d') :
    d' = d ∨ d' = scramble arch { d with calls := d.calls + 1 }
      fun s p => entries.any fun e => e.seq = s ∧ e.pos = p := by
  rcases stepMulti_cases arch entries wantLogits d with ⟨_, herr, _⟩ | ⟨_, herr, _⟩ | ⟨hok, _⟩
  · rw [herr] at h
    cases h
    exact .inl rfl
  · rw [herr] at h
    cases h
    exact .inr rfl
  · rw [hok] at h
    cases h

/-- The same as a triple. -/
theorem stepMulti_spec (entries : List Entry) (wantLogits : Bool) (d : Decoder Cell Logits) :
    Triple (· = d) (stepMulti arch entries wantLogits)
      (fun out d' => ¬Refuses arch entries ∧ d' = stepped arch d entries wantLogits ∧
        out = if wantLogits then d'.logitsMulti.map (fun l => (l.map arch.argmax).getD 0)
          else List.replicate entries.length 0)
      (fun _ _ => Refuses arch entries ∨ arch.Faulty) := by
  intro s hs
  subst hs
  rcases stepMulti_cases arch entries wantLogits s with
    ⟨_, herr, hrefused⟩ | ⟨_, herr, hfail⟩ | ⟨hok, haccepted⟩
  · rw [herr]
    exact .inl hrefused
  · rw [herr]
    exact .inr ⟨s.calls, by simp [hfail]⟩
  · rw [hok]
    exact ⟨haccepted, rfl, rfl⟩

theorem stepped_kv (d : Decoder Cell Logits) (entries : List Entry) (wantLogits : Bool) :
    (stepped arch d entries wantLogits).kv =
      (entries.foldl (stepEntry arch) { d with calls := d.calls + 1 }).kv := by
  cases wantLogits <;> rfl

theorem stepped_changesOnly (d : Decoder Cell Logits) (entries : List Entry) (wantLogits : Bool) :
    ChangesOnly (OnEntries entries) d (stepped arch d entries wantLogits) := by
  have h := foldl_stepEntry_changesOnly arch entries { d with calls := d.calls + 1 }
  cases wantLogits <;> exact ⟨h.kv, h.copies⟩

/-- `step_multi` writes at the positions of its entries only, also when it
fails. -/
theorem stepMulti_frame (entries : List Entry) (wantLogits : Bool) :
    Rel (ChangesOnly (OnEntries entries)) (stepMulti arch entries wantLogits) := by
  intro d
  refine .of_runs ?_ ?_
  · intro _ out d' hd h
    subst hd
    rw [(stepMulti_ok arch h).1]
    exact stepped_changesOnly arch _ entries wantLogits
  · intro s err d' hd h
    subst hd
    rcases stepMulti_error arch h with rfl | rfl
    · exact .rfl
    · let touched : Nat → Nat → Bool := fun s p => entries.any fun e => e.seq = s ∧ e.pos = p
      have htouched : ∀ s p, touched s p = true → OnEntries entries s p := by
        simp [touched, OnEntries]
      have := scramble_changesOnly arch { s with calls := s.calls + 1 } htouched
      exact ⟨this.kv, this.copies⟩

/-! ### Chunks -/

theorem chunkEntries_concat (tokens : List Nat) (token start seq : Nat) :
    chunkEntries (tokens ++ [token]) start seq =
      chunkEntries tokens start seq ++ [{ token, pos := start + tokens.length, seq }] := by
  simp [chunkEntries, List.mapIdx_append]

@[simp] theorem length_chunkEntries (tokens : List Nat) (start seq : Nat) :
    (chunkEntries tokens start seq).length = tokens.length := by
  simp [chunkEntries]

/-- A chunk writes positions `start ..` of its slot. -/
theorem onEntries_chunk {tokens : List Nat} {start seq s p : Nat}
    (h : OnEntries (chunkEntries tokens start seq) s p) :
    s = seq ∧ start ≤ p := by
  obtain ⟨e, he, rfl, rfl⟩ := h
  obtain ⟨i, hi, rfl⟩ := List.mem_mapIdx.mp he
  exact ⟨rfl, Nat.le_add_right _ _⟩

/-- One more token behind the tokens a slot holds. -/
theorem stepEntry_holds {d : Decoder Cell Logits} {seq : Nat} {tokens : List Nat} (token : Nat)
    (h : d.Holds arch seq tokens) :
    (d.stepEntry arch { token, pos := tokens.length, seq }).Holds arch seq (tokens ++ [token]) := by
  have hbefore : (d.stepEntry arch { token, pos := tokens.length, seq }).read seq tokens.length =
      arch.kvOf tokens := by
    refine (read_congr fun p hp => ?_).trans h
    exact if_neg fun hsp => Nat.ne_of_lt hp hsp.2
  have hat : (d.stepEntry arch { token, pos := tokens.length, seq }).kv seq tokens.length =
      arch.cell (arch.kvOf tokens) token := by
    show (if seq = seq ∧ tokens.length = tokens.length then
      arch.cell (d.read seq tokens.length) token else _) = _
    rw [if_pos ⟨rfl, rfl⟩, show d.read seq tokens.length = arch.kvOf tokens from h]
  show Decoder.read _ seq (tokens ++ [token]).length = arch.kvOf (tokens ++ [token])
  rw [List.length_append, List.length_singleton, read_succ, hbefore, hat, Arch.kvOf_concat]

theorem foldl_chunkEntries_holds {d : Decoder Cell Logits} {seq : Nat} {tokens : List Nat}
    (chunk : List Nat) (h : d.Holds arch seq tokens) :
    ((chunkEntries chunk tokens.length seq).foldl (stepEntry arch) d).Holds arch seq
      (tokens ++ chunk) := by
  induction chunk using List.reverseRecOn with
  | nil => simpa [chunkEntries] using h
  | append_singleton chunk token ih =>
      rw [chunkEntries_concat, List.foldl_append, ← List.append_assoc, ← List.length_append]
      exact stepEntry_holds arch token ih

theorem stepped_chunk {d : Decoder Cell Logits} {seq : Nat} {tokens : List Nat} (chunk : List Nat)
    (wantLogits : Bool) (hd : d.Holds arch seq tokens) :
    (stepped arch d (chunkEntries chunk tokens.length seq) wantLogits).Holds arch seq
      (tokens ++ chunk) := by
  have hfold := foldl_chunkEntries_holds arch (d := { d with calls := d.calls + 1 }) chunk hd
  exact hfold.congr fun p _ => by rw [stepped_kv]

/-- The last entry of a call is the last of its slot. -/
theorem entryLogits_concat (d : Decoder Cell Logits) (entries : List Entry) (e : Entry) :
    ∃ front, entryLogits arch d (entries ++ [e]) =
      front ++ [some (arch.logits (d.read e.seq e.pos) e.token)] := by
  induction entries with
  | nil => exact ⟨[], by simp [entryLogits]⟩
  | cons e' entries ih =>
      obtain ⟨front, hfront⟩ := ih
      exact ⟨_ :: front, by rw [List.cons_append, entryLogits, hfront, List.cons_append]⟩

/-- What the last entry of a call leaves in the logits buffers and returns. -/
structure Offers (logits : Logits) (out : List Nat) (d : Decoder Cell Logits) : Prop where
  out : out.getLast? = some (arch.argmax logits)
  multi : d.logitsMulti.getLast?.join = some logits
  last : d.lastLogits = logits

theorem entryLogits_congr {d d' : Decoder Cell Logits} (h : d'.kv = d.kv) (entries : List Entry) :
    entryLogits arch d' entries = entryLogits arch d entries := by
  induction entries with
  | nil => rfl
  | cons e entries ih =>
      have hread : d'.read e.seq e.pos = d.read e.seq e.pos := by simp [read, h]
      rw [entryLogits, entryLogits, ih, hread]

theorem stepped_logitsMulti (d : Decoder Cell Logits) (entries : List Entry) :
    (stepped arch d entries true).logitsMulti =
      entryLogits arch (stepped arch d entries true) entries :=
  (entryLogits_congr arch (stepped_kv arch d entries true) entries).symm

@[simp] theorem length_entryLogits (d : Decoder Cell Logits) (entries : List Entry) :
    (entryLogits arch d entries).length = entries.length := by
  induction entries with
  | nil => rfl
  | cons e entries ih => simp [entryLogits, ih]

/-- A call returns a token and leaves a logits buffer for every entry. -/
theorem stepMulti_length (entries : List Entry) :
    Triple (fun _ => True) (stepMulti arch entries true)
      (fun out d => out.length = entries.length ∧ d.logitsMulti.length = entries.length)
      (fun _ _ => True) := by
  intro d _
  refine (stepMulti_spec arch entries true d).weaken (fun _ hs => hs) ?_ (fun _ _ _ => trivial) d rfl
  rintro out d' ⟨-, rfl, rfl⟩
  simp [stepped_logitsMulti]

theorem stepped_offers (d : Decoder Cell Logits) (entries : List Entry) (e : Entry)
    {tokens : List Nat} (hpos : e.pos = tokens.length)
    (h : (stepped arch d (entries ++ [e]) true).Holds arch e.seq (tokens ++ [e.token])) :
    Offers arch (arch.logitsOf (tokens ++ [e.token]))
      ((stepped arch d (entries ++ [e]) true).logitsMulti.map fun l => (l.map arch.argmax).getD 0)
      (stepped arch d (entries ++ [e]) true) := by
  have hread : (stepped arch d (entries ++ [e]) true).read e.seq e.pos = arch.kvOf tokens := by
    have hfront := h.take tokens.length
    rw [List.take_left] at hfront
    rw [hpos]
    exact hfront
  obtain ⟨front, hfront⟩ := entryLogits_concat arch (stepped arch d (entries ++ [e]) true) entries e
  rw [← stepped_logitsMulti, hread, ← Arch.logitsOf_concat] at hfront
  refine ⟨by simp [hfront], by simp [hfront], ?_⟩
  show ((stepped arch d (entries ++ [e]) true).logitsMulti.reduceOption.getLast?).getD _ = _
  rw [hfront]
  simp [List.reduceOption, List.filterMap_append]

/-- A chunk that continues the tokens a slot holds, with all that it leaves. -/
theorem stepMulti_chunk_spec (seq : Nat) (tokens : List Nat) {chunk : List Nat} (wantLogits : Bool)
    (hne : chunk ≠ []) (hcap : chunk.length ≤ chunkCap) :
    Triple (fun d => d.Holds arch seq tokens)
      (stepMulti arch (chunkEntries chunk tokens.length seq) wantLogits)
      (fun out d => d.Holds arch seq (tokens ++ chunk) ∧
        tokens.length + chunk.length ≤ arch.maxSeq ∧
        (wantLogits = true → Offers arch (arch.logitsOf (tokens ++ chunk)) out d))
      (fun _ _ => arch.maxSeq < tokens.length + chunk.length ∨ arch.batchCap ≤ seq ∨
        arch.Faulty) := by
  intro d hd
  refine (stepMulti_spec arch _ wantLogits d).weaken (fun _ hs => hs) ?_ ?_ d rfl
  · rintro out d' ⟨hok, rfl, rfl⟩
    have hholds := stepped_chunk arch chunk wantLogits hd
    obtain ⟨front, token, rfl⟩ := (List.eq_nil_or_concat' chunk).resolve_left hne
    rw [chunkEntries_concat] at hok hholds ⊢
    refine ⟨hholds, ?_, ?_⟩
    · -- the last entry was accepted
      by_contra hlen
      refine hok (.inr (.inr ⟨{ token, pos := tokens.length + front.length, seq }, by simp, .inl ?_⟩))
      simp at hlen ⊢
      omega
    · rintro rfl
      rw [← List.append_assoc] at hholds ⊢
      exact stepped_offers arch d _ _ (by simp) hholds
  · rintro _ _ ((hnil | hcap' | ⟨e, he, hbound⟩) | hfault)
    · exact absurd (by simpa [chunkEntries] using hnil) hne
    · rw [length_chunkEntries] at hcap'
      omega
    · obtain ⟨i, hi, rfl⟩ := List.mem_mapIdx.mp he
      simp only at hbound
      omega
    · exact .inr (.inr hfault)

/-! ### Entries of different slots -/

/-- What an entry of a call writes when no other entry has its slot. -/
theorem foldl_stepEntry_distinct {entries : List Entry}
    (hdist : entries.Pairwise fun e e' => e.seq ≠ e'.seq) (d : Decoder Cell Logits) {e : Entry}
    (he : e ∈ entries) :
    (entries.foldl (stepEntry arch) d).read e.seq e.pos = d.read e.seq e.pos ∧
      (entries.foldl (stepEntry arch) d).kv e.seq e.pos =
        arch.cell (d.read e.seq e.pos) e.token := by
  induction entries generalizing d with
  | nil => cases he
  | cons e' entries ih =>
      rw [List.pairwise_cons] at hdist
      rw [List.foldl_cons]
      rcases List.mem_cons.mp he with rfl | he
      · -- the entries behind it leave its slot alone
        have hframe := foldl_stepEntry_changesOnly arch entries (d.stepEntry arch e)
        have hslot : ∀ p, (entries.foldl (stepEntry arch) (d.stepEntry arch e)).kv e.seq p =
            (d.stepEntry arch e).kv e.seq p := by
          intro p
          refine hframe.kv e.seq p ?_
          intro ⟨e', he', hseq, _⟩
          exact hdist.1 e' he' hseq.symm
        refine ⟨read_congr fun p hp => ?_, ?_⟩
        · rw [hslot p]
          exact if_neg fun h => Nat.ne_of_lt hp h.2
        · rw [hslot e.pos]
          exact if_pos ⟨rfl, rfl⟩
      · have hread : (d.stepEntry arch e').read e.seq e.pos = d.read e.seq e.pos :=
          read_congr fun p _ => if_neg fun h => hdist.1 e he h.1.symm
        have hrest := ih hdist.2 (d.stepEntry arch e') he
        rw [hread] at hrest
        exact hrest

/-- Every entry of such a call is the last of its slot. -/
theorem entryLogits_distinct {entries : List Entry}
    (hdist : entries.Pairwise fun e e' => e.seq ≠ e'.seq) (d : Decoder Cell Logits) :
    entryLogits arch d entries =
      entries.map fun e => some (arch.logits (d.read e.seq e.pos) e.token) := by
  induction entries with
  | nil => rfl
  | cons e entries ih =>
      rw [List.pairwise_cons] at hdist
      have hlast : (entries.all (·.seq ≠ e.seq)) = true := by
        simpa using fun e' he' => (hdist.1 e' he').symm
      rw [entryLogits, if_pos hlast, ih hdist.2, List.map_cons]

/-- A call whose entries have different slots: each slot gets its token behind
what it holds, and the logits are those of each slot. -/
theorem stepped_distinct {entries : List Entry}
    (hdist : entries.Pairwise fun e e' => e.seq ≠ e'.seq) (d : Decoder Cell Logits) :
    (stepped arch d entries true).logitsMulti =
        entries.map (fun e => some (arch.logits (d.read e.seq e.pos) e.token)) ∧
      ∀ e ∈ entries, ∀ tokens, e.pos = tokens.length → d.Holds arch e.seq tokens →
        (stepped arch d entries true).Holds arch e.seq (tokens ++ [e.token]) := by
  have hfold := fun e he =>
    foldl_stepEntry_distinct arch hdist { d with calls := d.calls + 1 } (e := e) he
  have hread : ∀ e ∈ entries, (stepped arch d entries true).read e.seq e.pos =
      d.read e.seq e.pos := by
    intro e he
    rw [← show Decoder.read { d with calls := d.calls + 1 } e.seq e.pos = d.read e.seq e.pos from rfl,
      ← (hfold e he).1]
    exact read_congr fun p _ => by rw [stepped_kv]
  constructor
  · rw [stepped_logitsMulti, entryLogits_distinct arch hdist]
    exact List.map_congr_left fun e he => by rw [hread e he]
  · intro e he tokens hpos hholds
    have hbefore : (stepped arch d entries true).read e.seq tokens.length = arch.kvOf tokens := by
      rw [← hpos, hread e he, hpos]
      exact hholds
    have hat : (stepped arch d entries true).kv e.seq tokens.length =
        arch.cell (arch.kvOf tokens) e.token := by
      rw [← hpos, stepped_kv, (hfold e he).2, hpos]
      exact congrArg (arch.cell · e.token) hholds
    show Decoder.read _ e.seq (tokens ++ [e.token]).length = arch.kvOf (tokens ++ [e.token])
    rw [List.length_append, List.length_singleton, read_succ, hbefore, hat, Arch.kvOf_concat]

theorem stepChunk_spec {tokens chunk : List Nat} (wantLogits : Bool) (hne : chunk ≠ [])
    (hcap : chunk.length ≤ chunkCap) :
    Triple (fun d => d.Holds arch 0 tokens) (stepChunk arch chunk tokens.length wantLogits)
      (fun next d => d.Holds arch 0 (tokens ++ chunk) ∧
        tokens.length + chunk.length ≤ arch.maxSeq ∧
        (wantLogits = true → next = arch.argmax (arch.logitsOf (tokens ++ chunk)) ∧
          d.lastLogits = arch.logitsOf (tokens ++ chunk)))
      (fun _ _ => True) := by
  refine .bind ((stepMulti_chunk_spec arch 0 tokens wantLogits hne hcap).weaken (fun _ h => h)
    (fun _ _ h => h) fun _ _ _ => trivial) fun out => .pure fun d hd => ?_
  refine ⟨hd.1, hd.2.1, fun hwant => ⟨?_, (hd.2.2 hwant).last⟩⟩
  rw [(hd.2.2 hwant).out, Option.getD_some]

/-! ### The single-token step -/

/-- A `step` in range whose device call succeeds. -/
theorem step_accepted {token pos : Nat} {d : Decoder Cell Logits} (hpos : pos < arch.maxSeq)
    (hfail : arch.fails d.calls = none) (wantLogits : Bool) :
    step arch token pos wantLogits d =
      .ok (if wantLogits then arch.argmax (arch.logits (d.read 0 pos) token) else 0)
        { Decoder.stepEntry arch { d with calls := d.calls + 1 } { token, pos, seq := 0 } with
          lastLogits := if wantLogits then arch.logits (d.read 0 pos) token else d.lastLogits } := by
  have hread : (Decoder.stepEntry arch { d with calls := d.calls + 1 }
      { token, pos, seq := 0 }).read 0 pos = d.read 0 pos :=
    @read_foldl_last _ _ arch { d with calls := d.calls + 1 } { token, pos, seq := 0 } [] nofun
  simp only [step, if_neg (Nat.not_le.mpr hpos), bind, EStateM.bind, deviceCall, hfail]
  cases wantLogits with
  | true =>
      rw [if_pos rfl, if_pos rfl, ← hread]
      rfl
  | false => rfl

/-- What a `step` does: it is out of range, fails on the device, or steps. -/
theorem step_cases (token pos : Nat) (wantLogits : Bool) (d : Decoder Cell Logits) :
    (∃ err, step arch token pos wantLogits d = .error err d) ∨
      (∃ text, step arch token pos wantLogits d = .error (.device text)
        (scramble arch { d with calls := d.calls + 1 } fun s p => s = 0 ∧ p = pos)) ∨
      ∃ out last, step arch token pos wantLogits d = .ok out
          { Decoder.stepEntry arch { d with calls := d.calls + 1 } { token, pos, seq := 0 } with
            lastLogits := last } ∧
        (wantLogits = true → last = arch.logits (d.read 0 pos) token ∧ out = arch.argmax last) := by
  by_cases hpos : arch.maxSeq ≤ pos
  · left
    simp only [step, if_pos hpos]
    exact ⟨_, rfl⟩
  right
  cases hfail : arch.fails d.calls with
  | some text =>
      left
      simp only [step, if_neg hpos, bind, EStateM.bind, deviceCall, hfail]
      exact ⟨text, rfl⟩
  | none =>
      right
      refine ⟨_, _, step_accepted arch (Nat.not_le.mp hpos) hfail wantLogits, ?_⟩
      intro hwant
      rw [if_pos hwant, if_pos hwant]
      exact ⟨rfl, rfl⟩

/-- `step` writes at its position of slot 0 only, also when it fails. -/
theorem step_frame (token pos : Nat) (wantLogits : Bool) :
    Rel (ChangesOnly fun s p => s = 0 ∧ p = pos) (step arch token pos wantLogits) := by
  intro d s hs
  subst hs
  rcases step_cases arch token pos wantLogits s with
    ⟨_, herr⟩ | ⟨_, herr⟩ | ⟨_, _, hok, _⟩
  · rw [herr]
    exact .rfl
  · rw [herr]
    refine ⟨fun s' p hsp => ?_, rfl⟩
    exact if_neg fun h => hsp (of_decide_eq_true h)
  · rw [hok]
    refine ⟨fun s' p hsp => ?_, rfl⟩
    exact if_neg hsp

/-- A step that continues the tokens slot 0 holds. -/
theorem step_spec {tokens : List Nat} (token : Nat) :
    Triple (fun d => d.Holds arch 0 tokens) (step arch token tokens.length true)
      (fun greedy d => d.Holds arch 0 (tokens ++ [token]) ∧
        greedy = arch.argmax (arch.logitsOf (tokens ++ [token])) ∧
        d.lastLogits = arch.logitsOf (tokens ++ [token]))
      (fun _ _ => True) := by
  intro s hd
  rcases step_cases arch token tokens.length true s with
    ⟨_, herr⟩ | ⟨_, herr⟩ | ⟨out, last, hok, hlast⟩
  · rw [herr]
    trivial
  · rw [herr]
    trivial
  · obtain ⟨hlogits, hout⟩ := hlast rfl
    have hread : s.read 0 tokens.length = arch.kvOf tokens := hd
    rw [hread, ← Arch.logitsOf_concat] at hlogits
    subst hlogits
    rw [hok]
    have hholds : (stepEntry arch { s with calls := s.calls + 1 }
        { token, pos := tokens.length, seq := 0 }).Holds arch 0 (tokens ++ [token]) :=
      stepEntry_holds arch token hd
    exact ⟨hholds, hout, rfl⟩

/-! ### Copies -/

/-- What a `kv_export` does: it copies the positions asked for and records a
copy that worked, or records one that failed. The slots stay as they are. -/
theorem kvExport_spec (seq len : Nat) (d : Decoder Cell Logits) :
    Triple (· = d) (kvExport arch seq len)
      (fun blob d' => blob = ⟨d.read seq len, arch.kvBytesPerToken * len⟩ ∧ d'.kv = d.kv ∧
        d'.copies = d.copies ++ [⟨.kvExport, seq, len, true⟩])
      (fun _ d' => d'.kv = d.kv ∧ d'.copies = d.copies ++ [⟨.kvExport, seq, len, false⟩]) := by
  intro s hs
  subst hs
  unfold kvExport
  cases hgeo : kvGeometry arch seq len with
  | some err => exact ⟨rfl, rfl⟩
  | none =>
      cases hfail : arch.fails s.calls with
      | some text =>
          simp only [bind, EStateM.bind, deviceCall, hfail]
          exact ⟨rfl, rfl⟩
      | none =>
          simp only [bind, EStateM.bind, deviceCall, hfail]
          exact ⟨rfl, rfl, rfl⟩

/-- What a `kv_import` does: it restores the blob's cells and records a copy that
worked, or records one that failed; only positions `[0, len)` of the slot can
change. -/
theorem kvImport_spec (seq len : Nat) (blob : Blob Cell) (d : Decoder Cell Logits) :
    Triple (· = d) (kvImport arch seq len blob)
      (fun _ d' => d'.kv = (d.restored seq len blob).kv ∧
        d'.copies = d.copies ++ [⟨.kvImport, seq, len, true⟩])
      (fun _ d' => (∀ s p, ¬(s = seq ∧ p < len) → d'.kv s p = d.kv s p) ∧
        d'.copies = d.copies ++ [⟨.kvImport, seq, len, false⟩]) := by
  intro s hs
  subst hs
  unfold kvImport
  cases hgeo : kvGeometry arch seq len with
  | some err => exact ⟨fun _ _ _ => rfl, rfl⟩
  | none =>
      simp only
      by_cases hbytes : blob.nbytes ≠ arch.kvBytesPerToken * len
      · rw [if_pos hbytes]
        exact ⟨fun _ _ _ => rfl, rfl⟩
      rw [if_neg hbytes]
      cases hfail : arch.fails s.calls with
      | some text =>
          simp only [bind, EStateM.bind, deviceCall, hfail]
          exact ⟨fun s' p hsp => if_neg fun h => hsp (of_decide_eq_true h), rfl⟩
      | none =>
          simp only [bind, EStateM.bind, deviceCall, hfail]
          exact ⟨rfl, rfl⟩

/-- A slot restored from the cells of a token list holds that list. -/
theorem restored_holds {d : Decoder Cell Logits} {seq : Nat} {tokens : List Nat}
    {blob : Blob Cell} (h : blob.cells = arch.kvOf tokens) :
    (d.restored seq tokens.length blob).Holds arch seq tokens := by
  show Decoder.read _ seq tokens.length = arch.kvOf tokens
  refine List.ext_getElem (by simp) fun p hp hp' => ?_
  have hlt : p < tokens.length := by simpa using hp
  have hcell : (d.restored seq tokens.length blob).kv seq p =
      blob.cells.getD p (d.kv seq p) := if_pos ⟨rfl, hlt⟩
  simp only [read, List.getElem_map, List.getElem_range, hcell, h]
  rw [List.getD_eq_getElem?_getD, List.getElem?_eq_getElem hp', Option.getD_some]

end LlmPager.Serve.Decoder
