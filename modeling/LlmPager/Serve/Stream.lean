import LlmPager.Lib.Utf8
import LlmPager.Serve.Decoder

/-!
# LlmPager.Serve.Stream

Streaming: each generated token extends the answer, the answer so far is decoded
again, and what lies behind the text already printed is passed on (`on_delta` in
`generate` and `generate_session` of `llmpager-serve/src/main.rs`, `print!` in
`llmpager-run/src/main.rs`).

With a byte-level tokenizer the fragments reassemble the answer exactly when no
token boundary splits a character: a split character shows as U+FFFD first, and
that text is not a prefix of the final one.
-/

namespace LlmPager.Serve

open LlmPager.Lib.Utf8

/-- The tokenizer, as `encode(text, false)` and `decode(ids, true)`. -/
structure Tokenizer where
  encode : String → Except String (List Nat)
  decode : List Nat → Except String String

/-- A byte-level tokenizer: every token is a byte string. -/
def Tokenizer.byteLevel (encode : String → Except String (List Nat))
    (bytes : Nat → List UInt8) : Tokenizer where
  encode := encode
  decode ids := .ok (String.ofList (decodeLossy (ids.flatMap bytes)))

def Tokenizer.decodeIds (tok : Tokenizer) (ids : List Nat) : Except ServeError String :=
  (tok.decode ids).mapError .decode

/-- `&full[printed.len()..]`. -/
def unprinted (full printed : String) : Except ServeError String :=
  match sliceFrom full printed.utf8ByteSize with
  | some fragment => .ok fragment
  | none => .error .sliceBoundary

/-- The streaming lines of `generate` and `generate_session`: the fragment for
`on_delta`, if any, and what is printed after it. -/
def nextDelta (tok : Tokenizer) (outIds : List Nat) (printed : String) :
    Except ServeError (Option String × String) := do
  let full ← tok.decodeIds outIds
  if printed.utf8ByteSize < full.utf8ByteSize then do
    let fragment ← unprinted full printed
    pure (some fragment, full)
  else pure (none, printed)

/-- The printing lines of `llmpager-run`. -/
def nextPrint (tok : Tokenizer) (outIds : List Nat) (printed : String) :
    Except ServeError (Option String × String) := do
  let full ← tok.decodeIds outIds
  let fragment ← unprinted full printed
  pure (some fragment, full)

/-- The variables of a streaming loop. -/
structure Stream where
  outIds : List Nat
  printed : String
  sent : List String
  deriving DecidableEq

/-- One round of a streaming loop. -/
def Stream.push (next : List Nat → String → Except ServeError (Option String × String))
    (st : Stream) (token : Nat) : Except ServeError Stream := do
  let outIds := st.outIds ++ [token]
  let (fragment, printed) ← next outIds st.printed
  pure { outIds, printed, sent := st.sent ++ fragment.toList }

/-- A streaming loop over the generated tokens. -/
def streamed (next : List Nat → String → Except ServeError (Option String × String))
    (tokens : List Nat) : Except ServeError Stream :=
  tokens.foldlM (Stream.push next) { outIds := [], printed := "", sent := [] }

/-- The loop slices at character boundaries only, and its fragments put together
are the answer that is returned without streaming. -/
def Reassembles (tok : Tokenizer)
    (next : List Nat → String → Except ServeError (Option String × String))
    (tokens : List Nat) : Prop :=
  ∃ st, streamed next tokens = .ok st ∧ tok.decode tokens = .ok (String.join st.sent)

/-- No token boundary lies inside the encoding of a character other than U+FFFD. -/
def KeepsCharacters (bytes : Nat → List UInt8) (tokens : List Nat) : Prop :=
  ∀ k c, Splits (tokens.flatMap bytes) ((tokens.take k).flatMap bytes).length c → c = replacement

/-! ### One round -/

/-- What both loops do when the new text continues the printed one. -/
def Continues (tok : Tokenizer)
    (next : List Nat → String → Except ServeError (Option String × String)) : Prop :=
  ∀ outIds printed more, tok.decode outIds = .ok (printed ++ more) →
    ∃ fragment, next outIds printed = .ok (fragment, printed ++ more) ∧ fragment.getD "" = more

theorem unprinted_append (printed more : String) : unprinted (printed ++ more) printed = .ok more := by
  simp [unprinted, sliceFrom_append]

theorem nextPrint_continues (tok : Tokenizer) : Continues tok (nextPrint tok) := by
  intro outIds printed more h
  refine ⟨some more, ?_, rfl⟩
  simp [nextPrint, Tokenizer.decodeIds, h, Except.mapError, bind, Except.bind, unprinted_append,
    pure, Except.pure]

theorem nextDelta_continues (tok : Tokenizer) : Continues tok (nextDelta tok) := by
  intro outIds printed more h
  have hdec : tok.decodeIds outIds = .ok (printed ++ more) := by
    simp [Tokenizer.decodeIds, h, Except.mapError]
  by_cases hlt : printed.utf8ByteSize < (printed ++ more).utf8ByteSize
  · refine ⟨some more, ?_, rfl⟩
    simp only [nextDelta, hdec, bind, Except.bind, hlt, if_true, unprinted_append, pure, Except.pure]
  · -- nothing new: the texts are equal
    have hmore : more = "" := by
      rw [String.utf8ByteSize_append] at hlt
      exact String.utf8ByteSize_eq_zero_iff.mp (by omega)
    subst hmore
    refine ⟨none, ?_, rfl⟩
    simp [nextDelta, hdec, bind, Except.bind, pure, Except.pure]

theorem streamed_concat (next : List Nat → String → Except ServeError (Option String × String))
    (tokens : List Nat) (token : Nat) :
    streamed next (tokens ++ [token]) =
      (do let st ← streamed next tokens; st.push next token) := by
  simp [streamed, List.foldlM_append]

/-! ### Whole answers -/

section ByteLevel

variable {encode : String → Except String (List Nat)} {bytes : Nat → List UInt8}
variable {next : List Nat → String → Except ServeError (Option String × String)}

/-- What byte-level tokens decode to. -/
def text (bytes : Nat → List UInt8) (tokens : List Nat) : String :=
  String.ofList (decodeLossy (tokens.flatMap bytes))

/-- One round while the text decoded so far continues. -/
theorem push_text (hnext : Continues (.byteLevel encode bytes) next) {done : List Nat} {token : Nat}
    {sent : List String} (hsent : String.join sent = text bytes done)
    (hfront : (text bytes done).toList <+: (text bytes (done ++ [token])).toList) :
    ∃ sent', Stream.push next ⟨done, text bytes done, sent⟩ token =
        .ok ⟨done ++ [token], text bytes (done ++ [token]), sent'⟩ ∧
      String.join sent' = text bytes (done ++ [token]) := by
  obtain ⟨cs, hcs⟩ := hfront
  have hmore : text bytes (done ++ [token]) = text bytes done ++ String.ofList cs := by
    rw [← String.toList_inj, String.toList_append, String.toList_ofList, hcs]
  obtain ⟨fragment, hfrag, hget⟩ := hnext (done ++ [token]) (text bytes done) (String.ofList cs)
    (congrArg Except.ok hmore)
  refine ⟨sent ++ fragment.toList, ?_, ?_⟩
  · simp only [Stream.push, hfrag, bind, Except.bind, pure, Except.pure, hmore]
  · rw [hmore, ← hsent, ← hget]
    cases fragment <;> simp [String.join_append]

variable {tokens : List Nat}

/-- What the tokens passed so far decode to is how the whole answer begins. -/
def Begins (bytes : Nat → List UInt8) (tokens done : List Nat) : Prop :=
  (text bytes done).toList <+: (text bytes tokens).toList

/-- As long as every earlier text is how the answer begins, what was sent is
the text decoded last. -/
theorem streamed_text (hnext : Continues (.byteLevel encode bytes) next) {done : List Nat}
    (hdone : done <+: tokens)
    (hbegins : ∀ before token, before ++ [token] <+: done → Begins bytes tokens before) :
    ∃ sent, streamed next done = .ok ⟨done, text bytes done, sent⟩ ∧
      String.join sent = text bytes done := by
  induction done using List.reverseRecOn with
  | nil => exact ⟨[], rfl, rfl⟩
  | append_singleton done token ih =>
      obtain ⟨sent, hrun, hsent⟩ := ih ((List.prefix_append _ _).trans hdone)
        fun before t h => hbegins before t (h.trans (List.prefix_append _ _))
      obtain ⟨rest, rfl⟩ := hdone
      have hbetween : (text bytes done).toList <+: (text bytes (done ++ [token])).toList := by
        have h := hbegins done token (List.prefix_refl _)
        simp only [Begins, text, String.toList_ofList, List.flatMap_append] at h ⊢
        exact prefix_between h
      rw [streamed_concat, hrun]
      exact push_text hnext hsent hbetween

/-- What was sent is never taken back. -/
theorem streamed_append {done rest : List Nat} {st : Stream}
    (h : streamed next (done ++ rest) = .ok st) :
    ∃ before, streamed next done = .ok before ∧
      (String.join before.sent).toList <+: (String.join st.sent).toList := by
  induction rest using List.reverseRecOn generalizing st with
  | nil => exact ⟨st, by simpa using h, List.prefix_refl _⟩
  | append_singleton rest token ih =>
      rw [← List.append_assoc, streamed_concat] at h
      cases hmid : streamed next (done ++ rest) with
      | error err => simp [hmid, bind, Except.bind] at h
      | ok mid =>
          obtain ⟨before, hbefore, hfront⟩ := ih hmid
          refine ⟨before, hbefore, hfront.trans ?_⟩
          simp only [hmid, bind, Except.bind, Stream.push] at h
          cases hround : next (mid.outIds ++ [token]) mid.printed with
          | error err => simp [hround] at h
          | ok res =>
              simp only [hround, pure, Except.pure, Except.ok.injEq] at h
              subst h
              simp [String.join_append]

/-- The fragments reassemble the answer exactly when every text decoded on the
way is how the answer begins. -/
theorem reassembles_iff_begins (hnext : Continues (.byteLevel encode bytes) next) :
    Reassembles (.byteLevel encode bytes) next tokens ↔
      ∀ done, done <+: tokens → Begins bytes tokens done := by
  constructor
  · intro ⟨st, hrun, hdec⟩
    have hfinal : text bytes tokens = String.join st.sent := Except.ok.inj hdec
    -- once all earlier texts begin the answer, the text of `done` has been sent as a whole
    suffices h : ∀ done, done <+: tokens → ∀ before, before <+: done → Begins bytes tokens before by
      intro done hdone
      exact h done hdone done (List.prefix_refl _)
    intro done hdone
    induction done using List.reverseRecOn with
    | nil =>
        intro before hbefore
        rw [List.prefix_nil.mp hbefore]
        exact List.nil_prefix
    | append_singleton done token ih =>
        have hearlier := ih ((List.prefix_append _ _).trans hdone)
        intro before hbefore
        obtain h | h := List.prefix_concat_iff.mp hbefore
        · subst h
          obtain ⟨sent, hok, hsent⟩ := streamed_text hnext hdone fun before t h => by
            obtain h | h := List.prefix_concat_iff.mp h
            · exact hearlier before (by simp [(List.append_inj' h rfl).1])
            · exact hearlier before ((List.prefix_append _ _).trans h)
          obtain ⟨rest, rfl⟩ := hdone
          obtain ⟨st', hok', hfront⟩ := streamed_append hrun
          rw [hok] at hok'
          cases hok'
          rw [hsent, ← hfinal] at hfront
          exact hfront
        · exact hearlier before h
  · intro h
    obtain ⟨sent, hok, hsent⟩ := streamed_text hnext (List.prefix_refl tokens) fun before t hb =>
      h before ((List.prefix_append _ _).trans hb)
    exact ⟨_, hok, congrArg Except.ok hsent.symm⟩

theorem keepsCharacters_iff :
    KeepsCharacters bytes tokens ↔ ∀ done, done <+: tokens → Begins bytes tokens done := by
  have hsplit : ∀ done rest, done ++ rest = tokens →
      (Begins bytes tokens done ↔
        ∀ c, Splits (tokens.flatMap bytes) (done.flatMap bytes).length c → c = replacement) := by
    rintro done rest rfl
    simp only [Begins, text, String.toList_ofList, List.flatMap_append]
    exact prefix_iff
  constructor
  · intro h done ⟨rest, hrest⟩
    refine (hsplit done rest hrest).mpr fun c hc => h done.length c ?_
    rwa [← hrest, List.take_left, hrest]
  · intro h k c
    exact (hsplit (tokens.take k) _ (List.take_append_drop k tokens)).mp (h _ (List.take_prefix k _)) c

/-- **Streaming.** For every byte-level tokenizer and every list of generated
tokens, the server's loops and the printing loop of `llmpager-run` slice at
character boundaries and send the answer exactly when no token boundary splits
a character other than U+FFFD. -/
theorem reassembles_iff (encode : String → Except String (List Nat)) (bytes : Nat → List UInt8)
    (tokens : List Nat) :
    (Reassembles (.byteLevel encode bytes) (nextDelta (.byteLevel encode bytes)) tokens ↔
        KeepsCharacters bytes tokens) ∧
      (Reassembles (.byteLevel encode bytes) (nextPrint (.byteLevel encode bytes)) tokens ↔
        KeepsCharacters bytes tokens) := by
  constructor
  · rw [keepsCharacters_iff]
    exact reassembles_iff_begins (nextDelta_continues _)
  · rw [keepsCharacters_iff]
    exact reassembles_iff_begins (nextPrint_continues _)

end ByteLevel

/-! ### Split characters -/

/-- A character of four bytes over two tokens, and one of three bytes over two. -/
def splitBytes : Nat → List UInt8
  | 0 => [0xF0, 0x9F, 0x98]
  | 1 => [0x80]
  | 2 => [0xE2, 0x82]
  | _ => [0xAC]

def splitTokenizer : Tokenizer := .byteLevel (fun _ => .ok []) splitBytes

/-- The first ends in a panic, of the second only U+FFFD is ever sent. -/
theorem split_characters :
    streamed (nextDelta splitTokenizer) [0, 1] = .error .sliceBoundary ∧
      streamed (nextPrint splitTokenizer) [0, 1] = .error .sliceBoundary ∧
      streamed (nextDelta splitTokenizer) [2, 3] = .ok ⟨[2, 3], "\uFFFD", ["\uFFFD"]⟩ ∧
      splitTokenizer.decode [2, 3] = .ok "€" ∧
      ¬Reassembles splitTokenizer (nextDelta splitTokenizer) [0, 1] ∧
      ¬Reassembles splitTokenizer (nextPrint splitTokenizer) [0, 1] ∧
      ¬Reassembles splitTokenizer (nextDelta splitTokenizer) [2, 3] := by
  have hdelta : streamed (nextDelta splitTokenizer) [0, 1] = .error .sliceBoundary := by decide
  have hprint : streamed (nextPrint splitTokenizer) [0, 1] = .error .sliceBoundary := by decide
  have heuro : streamed (nextDelta splitTokenizer) [2, 3] =
      .ok ⟨[2, 3], "\uFFFD", ["\uFFFD"]⟩ := by decide
  have hanswer : splitTokenizer.decode [2, 3] = .ok "€" := by decide
  refine ⟨hdelta, hprint, heuro, hanswer, ?_, ?_, ?_⟩
  · rintro ⟨st, hrun, -⟩
    simp [hdelta] at hrun
  · rintro ⟨st, hrun, -⟩
    simp [hprint] at hrun
  · intro ⟨st, hrun, hdec⟩
    rw [heuro] at hrun
    cases hrun
    rw [hanswer] at hdec
    exact absurd hdec (by decide)

end LlmPager.Serve
