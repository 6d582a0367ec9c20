import LlmPager.Lib.Frames
import LlmPager.Lib.Json
import LlmPager.Serve.Handle

/-!
# LlmPager.Serve.EventStream

The streamed answers of `llmpager-serve/src/main.rs`: a generation thread sends one event
after the other through an `mpsc` channel of byte chunks, and `ChannelReader` bridges the
channel into the body of the HTTP response.

The thread is the engine's generation with an `on_delta` that sends (`streamEvents`), from
the point where the model is warm. Thread, channel and reader step in any order, and the
HTTP layer reads with buffers of any size; a client may hang up (`streamSystem`).
-/

namespace LlmPager.Serve

open LlmPager.Lib

variable {Cell Logits : Type}

/-! ### Events -/

/-- `b'\n'`. -/
def newline : UInt8 := 0x0A

/-- The session accounting of the final event. -/
structure SessionInfo where
  session : String
  slot : Nat
  promptTokensReused : Nat
  promptTokensPrefilled : Nat

/-- The counts of the final event. -/
structure Finish where
  promptTokens : Nat
  completionTokens : Nat
  session : Option SessionInfo

inductive Event
  | role
  | delta (piece : String)
  | finish (counts : Finish)
  | error (message : String)
  | done

/-- What the events of one request have in common, and the two timings of the final one. -/
structure EventForm where
  chat : Bool
  model : String
  /-- The bits of two `f64`. -/
  seconds : UInt64
  tokPerSec : UInt64

namespace Event

def count (n : Nat) : Json := .num (UInt64.ofNat n)

variable (form : EventForm)

def chunkObject (choice : Json) (more : List (String × Json)) : Json :=
  .object ([("object", .str (if form.chat then "chat.completion.chunk" else "text_completion")),
    ("model", .str form.model), ("choices", .arr [choice])] ++ more)

/-- `perf`, extended by the fields of `sess_info`. -/
def perf (info : Option SessionInfo) : Json :=
  .object ([("seconds", .float form.seconds), ("tok_per_sec", .float form.tokPerSec)] ++
    match info with
    | some i =>
        [("session", .str i.session), ("slot", count i.slot),
          ("prompt_tokens_reused", count i.promptTokensReused),
          ("prompt_tokens_prefilled", count i.promptTokensPrefilled)]
    | none => [])

def usage (counts : Finish) : Json :=
  .object [("prompt_tokens", count counts.promptTokens),
    ("completion_tokens", count counts.completionTokens),
    ("total_tokens", count (counts.promptTokens + counts.completionTokens))]

def roleChoice : Json := .object [("index", count 0), ("delta", .object [("role", .str "assistant")])]

def deltaChoice (piece : String) : Json :=
  if form.chat then .object [("index", count 0), ("delta", .object [("content", .str piece)])]
  else .object [("index", count 0), ("text", .str piece)]

def finishChoice : Json :=
  if form.chat then
    .object [("index", count 0), ("delta", .object []), ("finish_reason", .str "stop")]
  else .object [("index", count 0), ("text", .str ""), ("finish_reason", .str "stop")]

/-- The value that `send` prints; the last event is no JSON. -/
def json : Event → Option Json
  | role => some (chunkObject form roleChoice [])
  | delta piece => some (chunkObject form (deltaChoice form piece) [])
  | finish counts =>
      some (chunkObject form (finishChoice form)
        [("usage", usage counts), ("llmpager", perf form counts.session)])
  | error message => some (.object [("error", .object [("message", .str message)])])
  | done => none

/-- `[DONE]`. -/
def doneBytes : List UInt8 := [0x5B, 0x44, 0x4F, 0x4E, 0x45, 0x5D]

/-- `data: `. -/
def dataField : List UInt8 := [0x64, 0x61, 0x74, 0x61, 0x3A, 0x20]

variable (codec : JsonCodec)

/-- An event without the blank line that ends it. -/
def frame (ev : Event) : List UInt8 :=
  dataField ++
    match ev.json form with
    | some v => codec.toVec v
    | none => doneBytes

/-- What goes into the channel: `format!("data: {v}\n\n")`. -/
def chunk (ev : Event) : List UInt8 := Frames.wire newline (ev.frame form codec)

end Event

/-! ### The generation thread -/

/-- Errors that unwind the thread: nothing is sent about them. -/
def ServeError.panics : ServeError → Bool
  | sliceBoundary => true
  | indexOutOfRange => true
  | _ => false

def ServeError.events (err : ServeError) : List Event :=
  if err.panics then [] else [.error err.message]

/-- The engine as a request finds it: no fragment has been handed out yet. -/
def Engine.fresh (e : Engine Cell Logits) : Engine Cell Logits := { e with sent := [] }

namespace Engine

/-- The events of a generation: one for each fragment, and how it ended. -/
def answerEvents (generation : EStateM ServeError (Engine Cell Logits) Finish)
    (e : Engine Cell Logits) : List Event :=
  match generation e with
  | .ok counts e' => e'.sent.map .delta ++ [.finish counts, .done]
  | .error err e' => e'.sent.map .delta ++ err.events

variable (arch : Arch Cell Logits) (tok : Tokenizer) (req : CompletionRequest Logits)

def streamGenerate (prompt : String) : EStateM ServeError (Engine Cell Logits) Finish := do
  let (_, promptTokens, completionTokens) ←
    generate arch tok req.sampling prompt req.tokenLimit true
  pure { promptTokens, completionTokens, session := none }

/-- `tokenize` and `acquire_session`. -/
def streamAcquire (sid prompt : String) :
    EStateM ServeError (Engine Cell Logits) (List Nat × Nat × Nat) := do
  let ids ← tokenize tok prompt
  let (slot, reuse) ← acquire arch sid ids
  pure (ids, slot, reuse)

def streamSession (sid : String) (ids : List Nat) (slot reuse : Nat) :
    EStateM ServeError (Engine Cell Logits) Finish := do
  let (_, context, prefilled, completionTokens) ←
    generateSession arch tok req.sampling slot reuse ids req.tokenLimit true
  onSessions fun st => st.commit sid context
  pure
    { promptTokens := ids.length, completionTokens,
      session := some { session := sid, slot, promptTokensReused := reuse,
                        promptTokensPrefilled := prefilled } }

/-- Everything the thread sends for a request. -/
def streamEvents (prompt : String) (e : Engine Cell Logits) : List Event :=
  let opening : List Event := if req.chat then [.role] else []
  match req.sessionName with
  | none => opening ++ answerEvents (streamGenerate arch tok req prompt) e.fresh
  | some sid =>
      match streamAcquire arch tok sid prompt e.fresh with
      | .error err _ => err.events
      | .ok (ids, slot, reuse) e' =>
          opening ++ answerEvents (streamSession arch tok req sid ids slot reuse) e'

end Engine

/-! ### The channel and its reader -/

/-- The receiver of an `mpsc` channel. -/
structure Receiver where
  queue : List (List UInt8)
  /-- The sender has not been dropped. -/
  sender : Bool

structure ChannelReader where
  rx : Receiver
  buf : List UInt8
  pos : Nat

namespace ChannelReader

def copy (r : ChannelReader) (room : Nat) : List UInt8 × ChannelReader :=
  let n := min (r.buf.length - r.pos) room
  ((r.buf.drop r.pos).take n, { r with pos := r.pos + n })

/-- `read` into a buffer of `room` bytes; nothing while `recv` blocks. -/
def read (r : ChannelReader) (room : Nat) : Option (List UInt8 × ChannelReader) :=
  if r.buf.length ≤ r.pos then
    match r.rx.queue with
    | chunk :: queue =>
        some (copy { rx := { r.rx with queue }, buf := chunk, pos := 0 } room)
    | [] => if r.rx.sender then none else some ([], r)
  else some (r.copy room)

/-- What is on its way to the client. -/
def left (r : ChannelReader) : List UInt8 := r.buf.drop r.pos ++ r.rx.queue.flatten

end ChannelReader

/-- A streamed response. -/
structure StreamState where
  /-- What the thread has not sent yet. -/
  unsent : List (List UInt8)
  reader : ChannelReader
  /-- The client is there, and with it the reader. -/
  connected : Bool
  received : List UInt8
  /-- A read into a buffer found nothing: the end of the body. -/
  ended : Bool

inductive StreamAct
  | send
  /-- The thread ends and drops its sender. -/
  | drop
  | read (room : Nat)
  | hangUp

namespace StreamState

def send (s : StreamState) : Option StreamState :=
  match s.unsent with
  | [] => none
  | chunk :: unsent =>
      -- without a receiver the chunk is lost, which the thread ignores
      let queue := if s.connected then s.reader.rx.queue ++ [chunk] else s.reader.rx.queue
      some { s with unsent, reader := { s.reader with rx := { s.reader.rx with queue } } }

def dropSender (s : StreamState) : Option StreamState :=
  if s.unsent = [] then
    some { s with reader := { s.reader with rx := { s.reader.rx with sender := false } } }
  else none

def readBody (s : StreamState) (room : Nat) : Option StreamState :=
  if s.connected then
    match s.reader.read room with
    | none => none
    | some (bytes, reader) =>
        some { s with reader, received := s.received ++ bytes,
                      ended := s.ended || decide (bytes = [] ∧ 0 < room) }
  else none

def step (s : StreamState) : StreamAct → Option StreamState
  | .send => s.send
  | .drop => s.dropSender
  | .read room => s.readBody room
  | .hangUp => some { s with connected := false }

/-- `Resp::Stream`, when the thread is about to send these chunks. -/
def start (chunks : List (List UInt8)) : StreamState where
  unsent := chunks
  reader := { rx := { queue := [], sender := true }, buf := [], pos := 0 }
  connected := true
  received := []
  ended := false

end StreamState

def streamSystem (chunks : List (List UInt8)) : System StreamState StreamAct :=
  .ofPartial (· = .start chunks) StreamState.step

/-! ### The client -/

/-- The text that a decoded event adds to the answer. -/
def eventText (v : Json) : String :=
  match (v.get "choices").asArray with
  | some (choice :: _) =>
      match ((choice.get "delta").get "content").asStr with
      | some content => content
      | none => ((choice.get "text").asStr).getD ""
  | _ => ""

def frameText (codec : JsonCodec) (frame : List UInt8) : String :=
  ((codec.fromSlice (frame.drop Event.dataField.length)).map eventText).getD ""

/-- The answer as a client puts it together from the bytes of the body. -/
def clientText (codec : JsonCodec) (body : List UInt8) : String :=
  String.join ((Frames.cut newline body).1.map (frameText codec))

/-- What `serde_json` does with these events: a value is printed on one line, decoding it
keeps its strings, and `[DONE]` is no JSON. -/
structure Event.Prints (form : EventForm) (codec : JsonCodec) (events : List Event) : Prop where
  oneLine : ∀ ev ∈ events, ∀ v, ev.json form = some v → newline ∉ codec.toVec v
  text : ∀ ev ∈ events, ∀ v, ev.json form = some v →
    (codec.fromSlice (codec.toVec v)).map eventText = some (eventText v)
  notJson : codec.fromSlice Event.doneBytes = none

namespace Event

def text : Event → String
  | delta piece => piece
  | _ => ""

variable {form : EventForm}

theorem get_chunkObject (choice : Json) {more : List (String × Json)}
    (h : (["object", "model", "choices"] ++ more.map Prod.fst).Nodup) :
    (chunkObject form choice more).get "choices" = .arr [choice] :=
  Json.get_object (by simpa using h) (by simp)

theorem eventText_chunkObject (choice : Json) {more : List (String × Json)}
    (h : (["object", "model", "choices"] ++ more.map Prod.fst).Nodup) :
    eventText (chunkObject form choice more) =
      match ((choice.get "delta").get "content").asStr with
      | some content => content
      | none => ((choice.get "text").asStr).getD "" := by
  rw [eventText, get_chunkObject choice h]
  rfl

theorem eventText_json {ev : Event} {v : Json} (h : ev.json form = some v) :
    eventText v = ev.text := by
  cases ev with
  | role =>
      cases h
      rw [eventText_chunkObject _ (by simp)]
      rfl
  | delta piece =>
      cases h
      rw [eventText_chunkObject _ (by simp)]
      cases hchat : form.chat with
      | true =>
          have hdelta : (Json.object [("index", count 0),
              ("delta", Json.object [("content", .str piece)])]).get "delta" =
              Json.object [("content", .str piece)] := Json.get_object (by simp) (by simp)
          have hcontent : (Json.object [("content", .str piece)]).get "content" = .str piece :=
            Json.get_object (by simp) (by simp)
          rw [deltaChoice, hchat, if_pos rfl, hdelta, hcontent]
          rfl
      | false =>
          have hnone : (Json.object [("index", count 0), ("text", .str piece)]).get "delta" = .null :=
            Json.get_object_of_notMem (by simp) (by simp)
          have htext : (Json.object [("index", count 0), ("text", .str piece)]).get "text" =
              .str piece := Json.get_object (by simp) (by simp)
          rw [deltaChoice, hchat, if_neg Bool.false_ne_true, hnone, htext]
          rfl
  | finish counts =>
      cases h
      rw [eventText_chunkObject _ (by simp)]
      unfold finishChoice
      cases form.chat <;> rfl
  | error message =>
      cases h
      rfl
  | done => cases h

variable {codec : JsonCodec} {events : List Event}

theorem newline_notMem_frame (h : Prints form codec events) {ev : Event} (hev : ev ∈ events) :
    newline ∉ ev.frame form codec := by
  have hdata : newline ∉ dataField := by decide
  cases hjson : ev.json form with
  | none => simp [frame, hjson, hdata, show newline ∉ doneBytes by decide]
  | some v => simp [frame, hjson, hdata, h.oneLine ev hev v hjson]

theorem frameText_frame (h : Prints form codec events) {ev : Event} (hev : ev ∈ events) :
    frameText codec (ev.frame form codec) = ev.text := by
  unfold frameText frame
  rw [List.drop_left]
  cases hjson : ev.json form with
  | none =>
      simp only [h.notJson, Option.map_none, Option.getD_none]
      cases ev <;> simp_all [json, text]
  | some v => simp [h.text ev hev v hjson, eventText_json hjson]

/-- Only the last event of a generation that ends well is `[DONE]`. -/
theorem frame_eq_done_iff (h : Prints form codec events) {ev : Event} (hev : ev ∈ events) :
    ev.frame form codec = done.frame form codec ↔ ev = done := by
  constructor
  · intro heq
    cases hjson : ev.json form with
    | none => cases ev <;> first | rfl | cases hjson
    | some v =>
        have htext := h.text ev hev v hjson
        have hbytes : codec.toVec v = doneBytes := by
          unfold frame at heq
          rw [hjson] at heq
          exact List.append_cancel_left heq
        simp [hbytes, h.notJson] at htext
  · rintro rfl
    rfl

end Event

/-! ### The body is what was sent -/

namespace ChannelReader

variable {r r' : ChannelReader} {room : Nat} {bytes : List UInt8}

theorem left_copy (r : ChannelReader) (room : Nat) :
    r.left = (r.copy room).1 ++ (r.copy room).2.left := by
  have hdrop : (r.buf.drop r.pos).drop (min (r.buf.length - r.pos) room) =
      r.buf.drop (r.pos + min (r.buf.length - r.pos) room) := by
    rw [List.drop_drop]
  simp only [left, copy]
  rw [← List.append_assoc, ← hdrop, List.take_append_drop]

/-- Nothing is copied only where there is nothing or no room. -/
theorem copy_eq_nil (h : (r.copy room).1 = []) (hroom : 0 < room) : r.buf.length ≤ r.pos := by
  have hlen := congrArg List.length h
  simp only [copy, List.length_take, List.length_drop, List.length_nil] at hlen
  omega

/-- A read passes on the next bytes, and finds nothing only at the end. -/
theorem read_spec (h : r.read room = some (bytes, r')) :
    r.left = bytes ++ r'.left ∧ r'.rx.sender = r.rx.sender ∧ r'.rx.queue <:+ r.rx.queue ∧
      (bytes = [] → 0 < room → (∀ chunk ∈ r.rx.queue, chunk ≠ []) →
        r.rx.sender = false ∧ r.left = []) := by
  unfold read at h
  split at h
  · rename_i hout
    have hbuf : r.buf.drop r.pos = [] := List.drop_eq_nil_of_le hout
    split at h
    · rename_i chunk queue hqueue
      cases h
      refine ⟨?_, rfl, ?_, fun hnil hroom hfull => ?_⟩
      · refine .trans ?_ (left_copy _ room)
        simp [left, hbuf, hqueue]
      · exact ⟨[chunk], hqueue.symm⟩
      · have hlen := copy_eq_nil hnil hroom
        simp only [Nat.le_zero, List.length_eq_zero_iff] at hlen
        exact absurd hlen (hfull chunk (hqueue ▸ List.mem_cons_self))
    · rename_i hqueue
      split at h
      · cases h
      · rename_i hsender
        cases h
        have hleft : r.left = [] := by simp [left, hbuf, hqueue]
        exact ⟨rfl, rfl, List.suffix_refl _, fun _ _ _ => ⟨by simpa using hsender, hleft⟩⟩
  · rename_i hout
    cases h
    exact ⟨left_copy r room, rfl, List.suffix_refl _, fun hnil hroom _ =>
      absurd (copy_eq_nil hnil hroom) hout⟩

end ChannelReader

/-- What holds between any two steps of a response. -/
structure StreamInv (chunks : List (List UInt8)) (s : StreamState) : Prop where
  sent : ∃ sent, chunks = sent ++ s.unsent ∧ s.received <+: sent.flatten ∧
    (s.connected = true → sent.flatten = s.received ++ s.reader.left)
  full : ∀ chunk ∈ s.reader.rx.queue, chunk ≠ []
  dropped : s.reader.rx.sender = false → s.unsent = []
  ended : s.ended = true → s.received = chunks.flatten

section Body

variable {chunks : List (List UInt8)} {s t : StreamState}

theorem StreamInv.start (chunks : List (List UInt8)) : StreamInv chunks (.start chunks) where
  sent := ⟨[], rfl, List.prefix_refl _, fun _ => rfl⟩
  full := by simp [StreamState.start]
  dropped h := by cases h
  ended h := by cases h

theorem StreamInv.send (h : StreamInv chunks s) (hchunks : ∀ chunk ∈ chunks, chunk ≠ [])
    (hst : s.send = some t) : StreamInv chunks t := by
  obtain ⟨sent, hsplit, hfront, hleft⟩ := h.sent
  unfold StreamState.send at hst
  split at hst
  · cases hst
  · rename_i chunk unsent hunsent
    cases hst
    rw [hunsent] at hsplit
    refine ⟨⟨sent ++ [chunk], by simp [hsplit], ?_, fun hconn => ?_⟩, fun c hc => ?_, fun hdrop => ?_,
      h.ended⟩
    · rw [List.flatten_append]
      exact hfront.trans (List.prefix_append _ _)
    · have hconn' : s.connected = true := hconn
      simp [hleft hconn', ChannelReader.left, hconn']
    · simp only at hc
      split at hc
      · rcases List.mem_append.mp hc with hc | hc
        · exact h.full c hc
        · rw [List.mem_singleton.mp hc]
          exact hchunks chunk (by simp [hsplit])
      · exact h.full c hc
    · have := h.dropped hdrop
      simp [hunsent] at this

theorem StreamInv.dropSender (h : StreamInv chunks s) (hst : s.dropSender = some t) :
    StreamInv chunks t := by
  unfold StreamState.dropSender at hst
  split at hst
  · rename_i hunsent
    cases hst
    exact ⟨h.sent, h.full, fun _ => hunsent, h.ended⟩
  · cases hst

theorem StreamInv.readBody (h : StreamInv chunks s) {room : Nat}
    (hst : s.readBody room = some t) : StreamInv chunks t := by
  obtain ⟨sent, hsplit, hfront, hleft⟩ := h.sent
  unfold StreamState.readBody at hst
  split at hst
  · rename_i hconn
    split at hst
    · cases hst
    · rename_i bytes reader hread
      cases hst
      obtain ⟨hbytes, hsender, hqueue, hnil⟩ := ChannelReader.read_spec hread
      have hall : sent.flatten = (s.received ++ bytes) ++ reader.left := by
        rw [hleft hconn, hbytes, List.append_assoc]
      have hfront' : s.received ++ bytes <+: chunks.flatten := by
        rw [hsplit, List.flatten_append, hall]
        exact ⟨reader.left ++ s.unsent.flatten, by simp⟩
      refine ⟨⟨sent, hsplit, ⟨_, hall.symm⟩, fun _ => hall⟩, fun c hc => h.full c (hqueue.mem hc),
        fun hdrop => h.dropped (hsender ▸ hdrop), fun hended => ?_⟩
      rcases (Bool.or_eq_true ..).mp hended with hwas | hnow
      · -- the end was found before: what comes now is empty
        refine hfront'.eq_of_length_le ?_
        simp [← h.ended hwas]
      · obtain ⟨hbytes', hroom⟩ := of_decide_eq_true hnow
        obtain ⟨hgone, hnone⟩ := hnil hbytes' hroom h.full
        have hall' : sent = chunks := by simp [hsplit, h.dropped hgone]
        rw [← hall', hleft hconn, hnone, hbytes']
  · cases hst

theorem StreamInv.step (hchunks : ∀ chunk ∈ chunks, chunk ≠ []) (h : StreamInv chunks s)
    {a : StreamAct} (hst : s.step a = some t) : StreamInv chunks t := by
  cases a with
  | send => exact h.send hchunks hst
  | drop => exact h.dropSender hst
  | read room => exact h.readBody hst
  | hangUp =>
      cases hst
      obtain ⟨sent, hsplit, hfront, -⟩ := h.sent
      exact ⟨⟨sent, hsplit, hfront, fun hconn => by cases hconn⟩, h.full, h.dropped, h.ended⟩

/-- In every order of steps, what was received is how the chunks begin, and at the end of
the body it is all of them. -/
theorem StreamInv.reachable {C : StreamState → StreamAct → Prop}
    (hchunks : ∀ chunk ∈ chunks, chunk ≠ []) (h : (streamSystem chunks).Reachable C s) :
    StreamInv chunks s :=
  h.invariant (fun _ hs => hs ▸ .start chunks) fun _ _ _ hinv _ hst => hinv.step hchunks hst

theorem StreamInv.begins (h : StreamInv chunks s) : s.received <+: chunks.flatten := by
  obtain ⟨sent, hsplit, hfront, -⟩ := h.sent
  rw [hsplit, List.flatten_append]
  exact hfront.trans (List.prefix_append _ _)

end Body

/-! ### What the thread sends -/

theorem ServeError.join_events (err : ServeError) :
    String.join (err.events.map Event.text) = "" := by
  unfold ServeError.events
  split <;> rfl

theorem ServeError.done_notMem_events (err : ServeError) : Event.done ∉ err.events := by
  unfold ServeError.events
  split <;> simp

namespace Engine

variable (arch : Arch Cell Logits) (tok : Tokenizer)

theorem onSessions_sent (f : SessionStore Cell → SessionStore Cell) :
    Rel SameSent (onSessions f : EStateM ServeError (Engine Cell Logits) Unit) :=
  .modify fun _ => rfl

theorem park_sent (id : String) : Rel SameSent (park arch id) := by
  refine .get fun e => ?_
  cases e.sessions.find id with
  | none => exact .pure _
  | some s =>
      cases hslot : s.slot with
      | none =>
          simp only [hslot]
          exact .pure _
      | some slot =>
          simp only [hslot]
          exact .bind (.ite (.bind (onDecoder_sent _) fun _ => .pure _) (.pure _)) fun _ =>
            onSessions_sent _

theorem claimSlot_sent (forId : String) : Rel SameSent (claimSlot arch forId) := by
  refine .get fun e => ?_
  dsimp only
  cases e.sessions.freeSlot with
  | some i => exact .bind (onSessions_sent _) fun _ => .pure _
  | none =>
      cases e.sessions.victim with
      | none => exact .throw _
      | some victim =>
          refine .bind (park_sent arch victim) fun _ => .get fun e' => ?_
          cases e'.sessions.freeSlot with
          | none => exact .throw _
          | some i => exact .bind (onSessions_sent _) fun _ => .pure _

theorem restore_sent (slot storedLen reuse : Nat) (parked : Option (Blob Cell)) :
    Rel SameSent (restore arch slot storedLen reuse parked) := by
  cases parked with
  | none => exact .pure _
  | some blob => exact .ite (.bind (onDecoder_sent _) fun _ => .pure _) (.pure _)

/-- Claiming a slot hands out no fragment. -/
theorem acquire_sent (id : String) (prompt : List Nat) : Rel SameSent (acquire arch id prompt) := by
  refine .get fun e => .ite (.throw _) (.get fun e' => .bind (onSessions_sent _) fun _ => ?_)
  cases (e'.sessions.tick.entry id).slot with
  | some slot => exact .bind (onSessions_sent _) fun _ => .pure _
  | none =>
      exact .bind (onSessions_sent _) fun _ => .bind (claimSlot_sent arch id) fun slot =>
        .bind (restore_sent arch slot _ _ _) fun _ => .bind (onSessions_sent _) fun _ => .pure _

section Outcome

variable {α β : Type} (m : EStateM ServeError (Engine Cell Logits) α) (e : Engine Cell Logits)

/-- A call that ends well. -/
def EndsWell : Prop := ∃ a e', m e = .ok a e'

theorem after_map (f : α → β) : after (m >>= fun a => pure (f a)) e = after m e := by
  have hbind : (m >>= fun a => pure (f a)) e = EStateM.bind m (fun a => pure (f a)) e := rfl
  unfold after
  rw [hbind, EStateM.bind]
  cases m e <;> rfl

theorem endsWell_map (f : α → β) : EndsWell (m >>= fun a => pure (f a)) e ↔ EndsWell m e := by
  have hbind : (m >>= fun a => pure (f a)) e = EStateM.bind m (fun a => pure (f a)) e := rfl
  unfold EndsWell
  rw [hbind, EStateM.bind]
  cases m e with
  | ok a e' => exact ⟨fun _ => ⟨a, e', rfl⟩, fun _ => ⟨f a, e', rfl⟩⟩
  | error err e' => simp

theorem bind_of_ok {f : α → EStateM ServeError (Engine Cell Logits) β} {a : α}
    {e' : Engine Cell Logits} (h : m e = .ok a e') : (m >>= f) e = f a e' := by
  have hbind : (m >>= f) e = EStateM.bind m f e := rfl
  rw [hbind, EStateM.bind, h]

theorem bind_of_error {f : α → EStateM ServeError (Engine Cell Logits) β} {err : ServeError}
    {e' : Engine Cell Logits} (h : m e = .error err e') : (m >>= f) e = .error err e' := by
  have hbind : (m >>= f) e = EStateM.bind m f e := rfl
  rw [hbind, EStateM.bind, h]

end Outcome

theorem streamAcquire_sent (sid prompt : String) :
    Rel SameSent (streamAcquire arch tok sid prompt) :=
  .bind (tokenize_sent tok prompt) fun ids => .bind (acquire_sent arch sid ids) fun _ => .pure _

/-- The events of a generation carry its fragments, and end in `[DONE]` if it ends well. -/
theorem answerEvents_spec (generation : EStateM ServeError (Engine Cell Logits) Finish)
    (e : Engine Cell Logits) :
    String.join ((answerEvents generation e).map Event.text) =
        String.join (after generation e).sent ∧
      (∀ opening : List Event, .done ∉ opening →
        ((opening ++ answerEvents generation e).getLast? = some .done ↔ EndsWell generation e)) := by
  have hdeltas : ∀ sent : List String, (sent.map Event.delta).map Event.text = sent := by
    intro sent
    simp [Function.comp_def, Event.text]
  unfold answerEvents EndsWell after
  cases generation e with
  | ok counts e' =>
      constructor
      · simp [hdeltas, String.join_append, Event.text]
      · intro opening _
        simp
  | error err e' =>
      constructor
      · simp [hdeltas, String.join_append, ServeError.join_events]
      · intro opening hopening
        have hnone : Event.done ∉ opening ++ (e'.sent.map .delta ++ err.events) := by
          simp [hopening, err.done_notMem_events]
        exact ⟨fun h => absurd (List.mem_of_getLast? h) hnone, by simp⟩

variable {req : CompletionRequest Logits}

theorem single_eq_generate (hstream : req.stream = true) (hsession : req.sessionName = none)
    (prompt : String) : single arch tok req prompt = streamGenerate arch tok req prompt >>=
      fun counts => pure (.single "" counts.promptTokens counts.completionTokens) := by
  simp [single, streamGenerate, hstream, hsession]

theorem single_eq_session (hstream : req.stream = true) {sid : String}
    (hsession : req.sessionName = some sid) (prompt : String) :
    single arch tok req prompt = (streamAcquire arch tok sid prompt >>= fun got =>
      streamSession arch tok req sid got.1 got.2.1 got.2.2) >>=
        fun counts => pure (.single "" counts.promptTokens counts.completionTokens) := by
  simp [single, sessionTurn, streamAcquire, streamSession, hstream, hsession]

/-- **The thread.** Its events carry the fragments of the generation, whichever way the
request ends, and the last one is `[DONE]` exactly if the request ends well. -/
theorem streamEvents_spec (hstream : req.stream = true) (prompt : String)
    (e : Engine Cell Logits) :
    String.join ((streamEvents arch tok req prompt e).map Event.text) =
        String.join (after (single arch tok req prompt) e.fresh).sent ∧
      ((streamEvents arch tok req prompt e).getLast? = some .done ↔
        EndsWell (single arch tok req prompt) e.fresh) := by
  have hopening : Event.done ∉ (if req.chat then [Event.role] else []) := by split <;> simp
  have htext : ∀ events : List Event,
      String.join (((if req.chat then [Event.role] else []) ++ events).map Event.text) =
        String.join (events.map Event.text) := by
    intro events
    split <;> simp [Event.text]
  unfold streamEvents
  cases hsession : req.sessionName with
  | none =>
      obtain ⟨hjoin, hlast⟩ := answerEvents_spec (streamGenerate arch tok req prompt) e.fresh
      rw [single_eq_generate arch tok hstream hsession, after_map, endsWell_map]
      exact ⟨(htext _).trans hjoin, hlast _ hopening⟩
  | some sid =>
      rw [single_eq_session arch tok hstream hsession, after_map, endsWell_map]
      cases hgot : streamAcquire arch tok sid prompt e.fresh with
      | error err e' =>
          have hsent : e'.sent = [] := (streamAcquire_sent arch tok sid prompt e.fresh).error rfl hgot
          simp only [after, EndsWell, hgot, bind_of_error _ _ hgot, hsent]
          refine ⟨err.join_events, fun h => ?_, by simp⟩
          exact absurd (List.mem_of_getLast? h) err.done_notMem_events
      | ok got e' =>
          obtain ⟨hjoin, hlast⟩ :=
            answerEvents_spec (streamSession arch tok req sid got.1 got.2.1 got.2.2) e'
          simp only [after, EndsWell, hgot, bind_of_ok _ _ hgot]
          exact ⟨(htext _).trans hjoin, hlast _ hopening⟩

/-- The fragments of a generation on slot 0 are those of the streaming loop over its answer. -/
theorem generate_streamed (sampling : Sampling Logits) (prompt : String) (maxTokens : Nat) :
    Triple (fun e => e.sent = []) (generate arch tok sampling prompt maxTokens true)
      (fun _ e => ∃ ids st, tok.encode prompt = .ok ids ∧
        streamed (nextDelta tok) (soloAnswer arch sampling ids maxTokens) = .ok st ∧
        e.sent = st.sent)
      (fun _ _ => True) := by
  refine .bind (((tokenize_spec tok prompt).and (keeps_sent (tokenize_sent tok prompt) [])).weaken
    (fun _ h => ⟨h, h⟩) (fun _ _ h => h) fun _ _ _ => trivial) fun ids =>
      .of_pre (fun e he => he.1.2) fun ⟨hids, hne⟩ => ?_
  refine .bind (((prefill_spec arch hne).and (keeps_sent (prefill_sent arch ids) [])).weaken
    (fun _ h => ⟨trivial, h.2⟩) (fun _ _ h => h) fun _ _ _ => trivial) fun first =>
      .get fun e he => ?_
  obtain ⟨⟨hholds, -, hnext, hlogits⟩, hsent⟩ := he
  have hfirst : (if sampling.plainGreedy then (first.1, sampleRng sampling.seed)
      else sampling.sample e.dec.lastLogits [] (sampleRng sampling.seed)) =
      firstChoice arch sampling ids := by
    rw [firstChoice, choose, hnext, hlogits]
  simp only [hfirst]
  refine .bind (((tokenLoop_spec arch sampling tok (stepNext_feeds arch sampling) true ids maxTokens
    _ rfl).and (tokenLoop_sent arch tok (stepNext_sent arch sampling) [] _ _ _)).weaken
      (fun s hs => ?_) (fun _ _ h => h) fun _ _ _ => trivial) fun g => ?_
  · subst hs
    exact ⟨by simpa using hholds, sent_nil tok rfl rfl hsent⟩
  refine .of_pre (fun s hs => hs.1.1) fun hg => ?_
  refine .bind ((decodeText_spec tok g.outIds).weaken (fun _ h => h.2) (fun _ _ h => h.1)
    fun _ _ _ => trivial) fun text => .pure fun s hs => ?_
  obtain ⟨sent, hstreamed, hsent⟩ := hs
  rw [hg] at hstreamed
  exact ⟨ids, _, hids, hstreamed, hsent⟩

theorem single_streamed (hstream : req.stream = true) (hsession : req.sessionName = none)
    (prompt : String) :
    Triple (fun e => e.sent = []) (single arch tok req prompt)
      (fun _ e => ∃ ids st, tok.encode prompt = .ok ids ∧
        streamed (nextDelta tok) (soloAnswer arch req.sampling ids req.tokenLimit) = .ok st ∧
        e.sent = st.sent)
      (fun _ _ => True) := by
  rw [single_eq_generate arch tok hstream hsession, streamGenerate, bind_assoc]
  exact .bind (generate_streamed arch tok req.sampling prompt req.tokenLimit) fun _ =>
    .pure fun _ h => h

end Engine

/-! ### A client's view -/

section Client

variable {form : EventForm} {codec : JsonCodec} {events : List Event}

theorem Event.join_frameText (h : Event.Prints form codec events) :
    String.join ((events.map (Event.frame form codec)).map (frameText codec)) =
      String.join (events.map Event.text) := by
  rw [List.map_map]
  exact congrArg String.join (List.map_congr_left fun ev hev => Event.frameText_frame h hev)

/-- A client that cuts the body at blank lines gets the events, one after the other. -/
theorem StreamInv.cut_received (hprints : Event.Prints form codec events) {s : StreamState}
    (h : StreamInv (events.map (Event.chunk form codec)) s) :
    (Frames.cut newline s.received).1 <+: events.map (Event.frame form codec) ∧
      (s.ended = true →
        Frames.cut newline s.received = (events.map (Event.frame form codec), [])) := by
  have hwires : (events.map (Event.chunk form codec)).flatten =
      (events.map (Event.frame form codec)).flatMap (Frames.wire newline) := by
    rw [List.flatMap_map]
    rfl
  have hlines : ∀ frame ∈ events.map (Event.frame form codec), newline ∉ frame := by
    intro frame hframe
    obtain ⟨ev, hev, rfl⟩ := List.mem_map.mp hframe
    exact Event.newline_notMem_frame hprints hev
  have hcut := Frames.cut_wires hlines
  constructor
  · have hfront := h.begins
    rw [hwires] at hfront
    have hframes : (Frames.cut newline s.received).1 <+: _ := Frames.cut_prefix hfront
    rwa [hcut] at hframes
  · intro hended
    rw [h.ended hended, hwires, hcut]

theorem Event.chunk_ne_nil {chunk : List UInt8} (h : chunk ∈ events.map (Event.chunk form codec)) :
    chunk ≠ [] := by
  obtain ⟨ev, -, rfl⟩ := List.mem_map.mp h
  simp [Event.chunk, Frames.wire]

variable {arch : Arch Cell Logits} {tok : Tokenizer} {req : CompletionRequest Logits}
  {prompt : String} {e : Engine Cell Logits} {s : StreamState}

/-- What a client has at the end of the body: all the text of the generation. -/
theorem clientText_ended (hstream : req.stream = true)
    (hprints : Event.Prints form codec (Engine.streamEvents arch tok req prompt e))
    (h : StreamInv ((Engine.streamEvents arch tok req prompt e).map (Event.chunk form codec)) s)
    (hended : s.ended = true) :
    clientText codec s.received =
      String.join (Engine.after (Engine.single arch tok req prompt) e.fresh).sent := by
  rw [clientText, (h.cut_received hprints).2 hended, Event.join_frameText hprints]
  exact (Engine.streamEvents_spec arch tok hstream prompt e).1

/-- **Streamed responses.** In every order in which the generation thread sends, the HTTP
layer reads with buffers of any size and the client stays or leaves, the events that a client
can cut out of the body so far are the first events of the thread, each once and in order. A
read finds the end of the body only when all of them have been received; then the text the
client has put together is that of all fragments the generation handed out, and the last
event is `[DONE]` exactly if the request ended well. -/
theorem reachable_stream (hstream : req.stream = true)
    (hprints : Event.Prints form codec (Engine.streamEvents arch tok req prompt e))
    (h : (streamSystem ((Engine.streamEvents arch tok req prompt e).map
      (Event.chunk form codec))).Reachable System.anyStep s) :
    (Frames.cut newline s.received).1 <+:
        (Engine.streamEvents arch tok req prompt e).map (Event.frame form codec) ∧
      (s.ended = true →
        Frames.cut newline s.received =
            ((Engine.streamEvents arch tok req prompt e).map (Event.frame form codec), []) ∧
          clientText codec s.received =
            String.join (Engine.after (Engine.single arch tok req prompt) e.fresh).sent ∧
          ((Frames.cut newline s.received).1.getLast? = some (Event.done.frame form codec) ↔
            ∃ answer e', Engine.single arch tok req prompt e.fresh = .ok answer e')) := by
  have hinv := StreamInv.reachable (fun _ => Event.chunk_ne_nil) h
  obtain ⟨hfront, hall⟩ := hinv.cut_received hprints
  refine ⟨hfront, fun hended => ⟨hall hended, clientText_ended hstream hprints hinv hended, ?_⟩⟩
  rw [hall hended, List.getLast?_map]
  refine .trans ?_ (Engine.streamEvents_spec arch tok hstream prompt e).2
  constructor
  · intro hlast
    obtain ⟨ev, hev, hframe⟩ := Option.map_eq_some_iff.mp hlast
    rw [hev, (Event.frame_eq_done_iff hprints (List.mem_of_getLast? hev)).mp hframe]
  · intro hlast
    rw [hlast]
    rfl

variable {encode : String → Except String (List Nat)} {bytes : Nat → List UInt8}

/-- **The streamed answer.** A client of a byte-level model that has read a streamed response
to its end holds the text that the same request gets without streaming exactly when no token
boundary of the answer splits a character other than U+FFFD. -/
theorem streamed_answer_iff (hstream : req.stream = true) (hsession : req.sessionName = none)
    (hprints : Event.Prints form codec
      (Engine.streamEvents arch (.byteLevel encode bytes) req prompt e))
    (h : (streamSystem ((Engine.streamEvents arch (.byteLevel encode bytes) req prompt e).map
      (Event.chunk form codec))).Reachable System.anyStep s) (hended : s.ended = true)
    {answer : Answer} {e' : Engine Cell Logits}
    (hwell : Engine.single arch (.byteLevel encode bytes) req prompt e.fresh = .ok answer e')
    {text : String} {counts : Nat × Nat} {e₁ e₂ : Engine Cell Logits}
    (hplain : Engine.generate arch (.byteLevel encode bytes) req.sampling prompt req.tokenLimit
      false e₁ = .ok (text, counts) e₂) :
    ∃ ids, encode prompt = .ok ids ∧ (clientText codec s.received = text ↔
      KeepsCharacters bytes (soloAnswer arch req.sampling ids req.tokenLimit)) := by
  have hinv := StreamInv.reachable (fun _ => Event.chunk_ne_nil) h
  have htext := clientText_ended hstream hprints hinv hended
  rw [Engine.after, hwell] at htext
  obtain ⟨ids, st, hids, hstreamed, hsent⟩ :=
    (Engine.single_streamed arch _ hstream hsession prompt).ok rfl hwell
  obtain ⟨ids', hids', -, -, hdecode, -⟩ :=
    (Engine.generate_spec arch req.sampling (.byteLevel encode bytes) prompt req.tokenLimit
      false).ok trivial hplain
  cases hids.symm.trans hids'
  refine ⟨ids, hids, ?_⟩
  rw [← (reassembles_iff encode bytes _).1, htext, hsent]
  constructor
  · rintro rfl
    exact ⟨st, hstreamed, hdecode⟩
  · intro hall
    obtain ⟨st', hstreamed', hjoin⟩ := hall
    cases hstreamed.symm.trans hstreamed'
    exact Except.ok.inj (hjoin.symm.trans hdecode)

end Client

/-! ### A streamed completion -/

/-- Tokens are bytes. -/
def asciiTokenizer : Tokenizer :=
  .byteLevel (fun text => .ok (text.toList.map Char.toNat)) fun token => [UInt8.ofNat token]

/-- Two tokens behind a prompt. -/
def streamRequest : CompletionRequest Nat where
  chat := false
  stream := true
  maxTokens := some 2
  session := none
  sessionId := none
  prompt := .text "a"
  n := none
  messages := none
  sampling := greedy

def streamForm : EventForm where
  chat := false
  model := "m"
  seconds := 0
  tokPerSec := 0

/-- The text of the event that carries `text`. -/
def streamLine (text : String) : List UInt8 :=
  let line :=
    if text = "" then
      "\x7b\"choices\":[\x7b\"finish_reason\":\"stop\",\"index\":0,\"text\":\"\"\x7d]," ++
        "\"llmpager\":\x7b\"seconds\":0.0,\"tok_per_sec\":0.0\x7d," ++
        "\"model\":\"m\",\"object\":\"text_completion\"," ++
        "\"usage\":\x7b\"completion_tokens\":2,\"prompt_tokens\":1,\"total_tokens\":3\x7d\x7d"
    else if text = "b" then
      "\x7b\"choices\":[\x7b\"index\":0,\"text\":\"b\"\x7d]," ++
        "\"model\":\"m\",\"object\":\"text_completion\"\x7d"
    else
      "\x7b\"choices\":[\x7b\"index\":0,\"text\":\"c\"\x7d]," ++
        "\"model\":\"m\",\"object\":\"text_completion\"\x7d"
  line.toList.map fun c => UInt8.ofNat c.toNat

def finishCounts : Finish := { promptTokens := 1, completionTokens := 2, session := none }

/-- The codec, of which only the texts of these events are known. -/
def streamCodec : JsonCodec where
  toVec v := streamLine (eventText v)
  fromSlice bs :=
    if bs = streamLine "b" then (Event.delta "b").json streamForm
    else if bs = streamLine "c" then (Event.delta "c").json streamForm
    else if bs = streamLine "" then (Event.finish finishCounts).json streamForm
    else none

theorem streamEvents_two :
    Engine.streamEvents (countingArch 1) asciiTokenizer streamRequest "a" (freshEngine 1) =
      [.delta "b", .delta "c", .finish finishCounts, .done] := rfl

theorem streamCodec_prints :
    Event.Prints streamForm streamCodec
      (Engine.streamEvents (countingArch 1) asciiTokenizer streamRequest "a" (freshEngine 1)) where
  oneLine ev hev v hv := by
    show newline ∉ streamLine (eventText v)
    unfold streamLine
    dsimp only
    split
    · decide +kernel
    · split <;> decide +kernel
  text ev hev v hv := by
    have hcb : streamLine "c" ≠ streamLine "b" := by decide +kernel
    have hb : streamLine "" ≠ streamLine "b" := by decide +kernel
    have hc : streamLine "" ≠ streamLine "c" := by decide +kernel
    show (streamCodec.fromSlice (streamLine (eventText v))).map eventText = some (eventText v)
    rw [Event.eventText_json hv, streamCodec]
    rw [streamEvents_two] at hev
    fin_cases hev
    · simp only [Event.text, if_true]
      exact congrArg some (show eventText _ = (Event.delta "b").text from Event.eventText_json rfl)
    · simp only [Event.text, if_neg hcb, if_true]
      exact congrArg some (show eventText _ = (Event.delta "c").text from Event.eventText_json rfl)
    · simp only [Event.text, if_neg hb, if_neg hc, if_true]
      exact congrArg some
        (show eventText _ = (Event.finish finishCounts).text from Event.eventText_json rfl)
    · cases hv
  notJson := by decide +kernel

/-- The client reads between the events, with room for ten bytes once. -/
theorem exists_stream_ended :
    ∃ s, (streamSystem ((Engine.streamEvents (countingArch 1) asciiTokenizer streamRequest "a"
        (freshEngine 1)).map (Event.chunk streamForm streamCodec))).Reachable System.anyStep s ∧
      s.ended = true :=
  System.exists_reachable StreamState.step
    [.send, .read 10, .send, .read 512, .send, .send, .drop, .read 512, .read 512, .read 512, .read 1]
    StreamState.ended rfl (fun _ _ _ => trivial) (by decide +kernel)

theorem reachable_stream_two :
    ∃ s : StreamState, s.ended = true ∧
      (Frames.cut newline s.received).1 <+:
        (Engine.streamEvents (countingArch 1) asciiTokenizer streamRequest "a"
          (freshEngine 1)).map (Event.frame streamForm streamCodec) ∧
      (s.ended = true →
        Frames.cut newline s.received =
            ((Engine.streamEvents (countingArch 1) asciiTokenizer streamRequest "a"
              (freshEngine 1)).map (Event.frame streamForm streamCodec), []) ∧
          clientText streamCodec s.received =
            String.join (Engine.after (Engine.single (countingArch 1) asciiTokenizer streamRequest
              "a") (freshEngine 1).fresh).sent ∧
          ((Frames.cut newline s.received).1.getLast? =
              some (Event.done.frame streamForm streamCodec) ↔
            ∃ answer e', Engine.single (countingArch 1) asciiTokenizer streamRequest "a"
              (freshEngine 1).fresh = .ok answer e')) := by
  obtain ⟨s, h, hended⟩ := exists_stream_ended
  exact ⟨s, hended, reachable_stream rfl streamCodec_prints h⟩

theorem streamed_answer_iff_two :
    ∃ (s : StreamState) (ids : List Nat), s.ended = true ∧ (clientText streamCodec s.received = "bc" ↔
      KeepsCharacters (fun token => [UInt8.ofNat token])
        (soloAnswer (countingArch 1) greedy ids 2)) := by
  obtain ⟨s, h, hended⟩ := exists_stream_ended
  obtain ⟨e₂, hplain⟩ : ∃ e₂, Engine.generate (countingArch 1) asciiTokenizer greedy "a" 2 false
      (freshEngine 1) = .ok ("bc", 1, 2) e₂ := ⟨_, rfl⟩
  obtain ⟨ids, -, hiff⟩ := streamed_answer_iff rfl rfl streamCodec_prints h hended rfl hplain
  exact ⟨s, ids, hended, hiff⟩

end LlmPager.Serve
