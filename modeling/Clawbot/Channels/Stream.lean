import Clawbot.Python.Value

/-!
# Streaming requests of `OpenAPIChannel`

`_handle_stream` prepares an SSE response and installs a `stream_callback` that puts each chunk
on an unbounded `asyncio.Queue`, followed by `None` when the chunk is final. It publishes the
message and then loops on `asyncio.wait_for(chunk_queue.get(), timeout=config.timeout)`: on a
timeout it writes an error frame and leaves the loop, on `None` it leaves the loop, and on a
chunk it writes one `chat.completion.chunk` frame. After the loop it writes `data: [DONE]`.

`put` on an unbounded queue never suspends, so one call of the callback is one atomic `Event`;
taking an item and writing for it is another. The chunks come from the agent, outside `src/`:
any chunk may come at any time, also after a final one. A write completes while the client is
connected; once the client is gone the write raises, so does the `except` branch's own write,
and the handler raises. A frame is the dict that `json.dumps` encodes and a client's
`json.loads` gives back.

Beside what the handler holds, a `State` records the chunks delivered so far, the chunks
framed with the `created` of their frame, and whether a wait has exceeded `config.timeout`.
-/

namespace Clawbot.Channels.Stream

open Clawbot.Python

/-- A `StreamChunk` of the bus. -/
structure StreamChunk where
  content : String
  isFinal : Bool
  finishReason : Option String
  deriving DecidableEq, Repr

/-- `chunk.finish_reason or "stop"` -/
def orStop : Option String → String
  | some r => if r = "" then "stop" else r
  | none => "stop"

/-- `sse_data` for `chunk`. `choices[0]` starts as `{"index": 0, "delta": {}, "finish_reason":
None}`; a non-empty content is set in the delta, and a final chunk sets the finish reason and
replaces the delta by `{}`. -/
def sseData (requestId : String) (created : Int) (modelName : String) (chunk : StreamChunk) :
    PyVal :=
  let delta : List (String × PyVal) :=
    if chunk.content = "" then [] else [("content", .str chunk.content)]
  let choice : List (String × PyVal) :=
    if chunk.isFinal then
      [("index", .int 0), ("delta", .dict []), ("finish_reason", .str (orStop chunk.finishReason))]
    else [("index", .int 0), ("delta", .dict delta), ("finish_reason", .none)]
  .dict [("id", .str requestId), ("object", .str "chat.completion.chunk"),
    ("created", .int created), ("model", .str modelName), ("choices", .list [.dict choice])]

/-- The error envelope written when a wait exceeds `config.timeout`. -/
def timeoutError : PyVal :=
  .dict [("error", .dict [("message", .str "Stream timeout"), ("type", .str "timeout_error")])]

/-- One SSE event of the body: `data: {json}` or `data: [DONE]`. -/
inductive Frame
  | data (v : PyVal)
  | done

/-- What one call of `stream_callback(chunk)` puts on the queue. -/
def enqueued (chunk : StreamChunk) : List (Option StreamChunk) :=
  some chunk :: if chunk.isFinal then [none] else []

/-- The queue items a sequence of callbacks puts. -/
def expand (chunks : List StreamChunk) : List (Option StreamChunk) := chunks.flatMap enqueued

/-- Where `_handle_stream` stands: awaiting `self.bus.publish_inbound(msg)`, in the loop
awaiting the queue, returned with the response complete, or raised. -/
inductive Phase
  | publishing
  | reading
  | returned
  | raised
  deriving DecidableEq, Repr

/-- The handler's state: `chunk_queue`, the frames written, where it stands, whether the client
is connected; and, for the proofs, every chunk passed to `stream_callback`, the chunks the loop
framed with the `created` of their frames, and whether a wait exceeded `config.timeout`. -/
structure State where
  chunkQueue : List (Option StreamChunk)
  body : List Frame
  phase : Phase
  connected : Bool
  delivered : List StreamChunk
  written : List (Int × StreamChunk)
  timedOut : Bool

/-- What happens next: `await stream_callback(chunk)`; `publish_inbound` returns or raises;
the wait returns the queue's head and the loop writes for it at `int(time.time())`;
`config.timeout` elapses while the queue is empty; the client closes the connection. -/
inductive Event
  | callback (chunk : StreamChunk)
  | published
  | publishRaises
  | get (created : Int)
  | timeout
  | disconnect

/-- The handler after `response.prepare(request)`. -/
def init : State := ⟨[], [], .publishing, true, [], [], false⟩

section Handler

variable (requestId modelName : String)

/-- The frame of a chunk taken at `created`. -/
def chunkFrame (p : Int × StreamChunk) : Frame := .data (sseData requestId p.1 modelName p.2)

def step (st : State) : Event → State
  | .callback c =>
    { st with chunkQueue := st.chunkQueue ++ enqueued c, delivered := st.delivered ++ [c] }
  | .published => if st.phase = .publishing then { st with phase := .reading } else st
  | .publishRaises => if st.phase = .publishing then { st with phase := .raised } else st
  | .get created =>
    match st.phase, st.chunkQueue with
    | .reading, item :: rest =>
      if st.connected then
        match item with
        | none => { st with chunkQueue := rest, body := st.body ++ [.done], phase := .returned }
        | some c =>
          { st with
            chunkQueue := rest
            body := st.body ++ [chunkFrame requestId modelName (created, c)]
            written := st.written ++ [(created, c)] }
      else { st with chunkQueue := rest, phase := .raised }
    | _, _ => st
  | .timeout =>
    if st.phase = .reading ∧ st.chunkQueue = [] then
      if st.connected then
        { st with
          body := st.body ++ [.data timeoutError, .done]
          phase := .returned
          timedOut := true }
      else { st with phase := .raised }
    else st
  | .disconnect => { st with connected := false }

def run (es : List Event) : State := es.foldl (step requestId modelName) init

theorem run_append (es es' : List Event) :
    run requestId modelName (es ++ es') =
      es'.foldl (step requestId modelName) (run requestId modelName es) :=
  List.foldl_append _ _ _ _

end Handler

/-! ## What a client reads -/

/-- `choices[0]` of a decoded event, when the event has one. -/
def firstChoice : PyVal → Option (List (String × PyVal))
  | .dict members =>
    match PyVal.lookup members "choices" .none with
    | .list (.dict choice :: _) => some choice
    | _ => none
  | _ => none

/-- `choices[0]["delta"].get("content", "")` of a decoded event, `""` where a field is
missing. -/
def deltaContent (v : PyVal) : String :=
  match firstChoice v with
  | some choice =>
    match PyVal.lookup choice "delta" .none with
    | .dict delta =>
      match PyVal.lookup delta "content" (.str "") with
      | .str s => s
      | _ => ""
    | _ => ""
  | none => ""

/-- `choices[0]["finish_reason"]` of a frame. -/
def finishReasonOf : Frame → Option PyVal
  | .data v => (firstChoice v).map fun choice => PyVal.lookup choice "finish_reason" .none
  | .done => none

/-- What a client reads from the body: it splits it into `data:` events, decodes each one
before `[DONE]` and concatenates their `choices[0].delta.content`. -/
def clientText : List Frame → String
  | [] => ""
  | .done :: _ => ""
  | .data v :: frames => deltaContent v ++ clientText frames

/-- A final chunk's frame carries no content. -/
theorem deltaContent_sseData (requestId modelName : String) (created : Int) (c : StreamChunk) :
    deltaContent (sseData requestId created modelName c) = if c.isFinal then "" else c.content := by
  cases hf : c.isFinal <;> by_cases hc : c.content = "" <;>
    simp [sseData, deltaContent, firstChoice, PyVal.lookup, hf, hc]

/-- Only a final chunk's frame has a finish reason. -/
theorem finishReasonOf_chunkFrame (requestId modelName : String) (p : Int × StreamChunk) :
    finishReasonOf (chunkFrame requestId modelName p) =
      if p.2.isFinal then some (.str (orStop p.2.finishReason)) else some .none := by
  cases hf : p.2.isFinal <;>
    simp [chunkFrame, sseData, finishReasonOf, firstChoice, PyVal.lookup, hf]

theorem string_join_cons (a : String) (l : List String) :
    String.join (a :: l) = a ++ String.join l := by
  suffices h : ∀ b, l.foldl (· ++ ·) b = b ++ l.foldl (· ++ ·) "" from
    (h a).trans (by simp [String.join])
  induction l with
  | nil => simp
  | cons x l ih => intro b; simp only [List.foldl_cons, String.empty_append, ih (b ++ x), ih x,
      String.append_assoc]

theorem clientText_chunkFrames (requestId modelName : String) (ws : List (Int × StreamChunk))
    (rest : List Frame) :
    clientText (ws.map (chunkFrame requestId modelName) ++ rest) =
      String.join ((ws.map Prod.snd).map fun c => if c.isFinal then "" else c.content) ++
        clientText rest := by
  induction ws with
  | nil => simp [String.join]
  | cons p ws ih =>
    rw [List.map_cons, List.cons_append, chunkFrame, clientText, deltaContent_sseData,
      List.map_cons, List.map_cons, string_join_cons, String.append_assoc]
    exact congrArg _ ih

/-! ## The queue -/

@[simp] theorem expand_nil : expand [] = [] := rfl

@[simp] theorem expand_singleton (c : StreamChunk) : expand [c] = enqueued c := by
  simp [expand]

theorem expand_append (a b : List StreamChunk) : expand (a ++ b) = expand a ++ expand b :=
  List.flatMap_append _ _ _

theorem expand_cons_final {c : StreamChunk} (h : c.isFinal = true) (cs : List StreamChunk) :
    expand (c :: cs) = some c :: none :: expand cs := by
  simp [expand, enqueued, h]

theorem expand_cons_of_not_final {c : StreamChunk} (h : c.isFinal = false)
    (cs : List StreamChunk) : expand (c :: cs) = some c :: expand cs := by
  simp [expand, enqueued, h]

theorem mem_expand {x : Option StreamChunk} {cs : List StreamChunk} :
    x ∈ expand cs ↔ ∃ c ∈ cs, x = some c ∨ (x = none ∧ c.isFinal = true) := by
  simp only [expand, List.mem_flatMap, enqueued]
  refine exists_congr fun c => and_congr_right fun _ => ?_
  cases c.isFinal <;> simp

@[simp] theorem some_mem_expand {c : StreamChunk} {cs : List StreamChunk} :
    some c ∈ expand cs ↔ c ∈ cs := by
  simp [mem_expand]

theorem none_mem_expand {cs : List StreamChunk} :
    none ∈ expand cs ↔ ∃ c ∈ cs, c.isFinal = true := by
  simp [mem_expand]

/-- Taking items up to a `None` takes the chunks through the first final one. -/
theorem expand_prefix_none {xs ds : List StreamChunk} (h : xs.map some ++ [none] <+: expand ds) :
    ∃ pre f rest, ds = pre ++ f :: rest ∧ xs = pre ++ [f] ∧
      (∀ c ∈ pre, c.isFinal = false) ∧ f.isFinal = true := by
  induction ds generalizing xs with
  | nil => simp at h
  | cons d ds ih =>
    cases xs with
    | nil => cases hd : d.isFinal <;> simp [expand, enqueued, hd] at h
    | cons x xs =>
      cases hd : d.isFinal with
      | true =>
        rw [expand_cons_final hd] at h
        obtain ⟨hx, h⟩ := List.cons_prefix_cons.mp h
        obtain rfl := Option.some.inj hx
        cases xs with
        | nil => exact ⟨[], x, ds, rfl, rfl, by simp, hd⟩
        | cons y ys => simp at h
      | false =>
        rw [expand_cons_of_not_final hd] at h
        obtain ⟨hx, ht⟩ := List.cons_prefix_cons.mp h
        obtain rfl := Option.some.inj hx
        obtain ⟨pre, f, rest, rfl, rfl, hpre, hf⟩ := ih ht
        exact ⟨x :: pre, f, rest, rfl, rfl, List.forall_mem_cons.mpr ⟨hd, hpre⟩, hf⟩

/-- Taking items that are no `None` takes a prefix of the chunks delivered. -/
theorem prefix_of_expand {xs ds : List StreamChunk} (h : xs.map some <+: expand ds)
    (hx : ∀ x ∈ xs, x.isFinal = false) : xs <+: ds := by
  induction xs generalizing ds with
  | nil => exact List.nil_prefix
  | cons x xs ih =>
    cases ds with
    | nil => simp at h
    | cons d ds =>
      have hxd : x = d := Option.some.inj (List.cons_prefix_cons.mp
        (by simpa only [List.map_cons, expand, List.flatMap_cons, enqueued, List.cons_append]
          using h)).1
      subst hxd
      rw [expand_cons_of_not_final (hx x (List.mem_cons_self _ _))] at h
      obtain ⟨-, h⟩ := List.cons_prefix_cons.mp h
      exact List.cons_prefix_cons.mpr ⟨rfl, ih h fun y hy => hx y (List.mem_cons_of_mem _ hy)⟩

/-! ## What every run keeps -/

/-- The queue items the loop has taken. -/
def State.taken (st : State) : List (Option StreamChunk) :=
  st.written.map (some ·.2) ++ if st.phase = .returned ∧ st.timedOut = false then [none] else []

/-- What the loop wrote after its chunk frames. -/
def State.trailer (st : State) : List Frame :=
  if st.phase = .returned then
    if st.timedOut then [.data timeoutError, .done] else [.done]
  else []

section Handler

variable (requestId modelName : String)

/-- What one `get` can do: nothing outside the loop or on an empty queue; otherwise it takes the
head and, while the client is connected, ends the response on `None` or frames the chunk. -/
theorem step_get_cases (st : State) (created : Int) :
    ((st.phase ≠ .reading ∨ st.chunkQueue = []) ∧
      step requestId modelName st (.get created) = st) ∨
    (∃ rest, st.phase = .reading ∧ st.chunkQueue = none :: rest ∧ st.connected = true ∧
      step requestId modelName st (.get created) =
        { st with chunkQueue := rest, body := st.body ++ [.done], phase := .returned }) ∨
    (∃ c rest, st.phase = .reading ∧ st.chunkQueue = some c :: rest ∧ st.connected = true ∧
      step requestId modelName st (.get created) =
        { st with
          chunkQueue := rest
          body := st.body ++ [chunkFrame requestId modelName (created, c)]
          written := st.written ++ [(created, c)] }) ∨
    (∃ item rest, st.phase = .reading ∧ st.chunkQueue = item :: rest ∧
      st.connected = false ∧ step requestId modelName st (.get created) =
        { st with chunkQueue := rest, phase := .raised }) := by
  simp only [step]
  split
  · rename_i item rest hp hq
    split
    · rename_i hc
      cases item
      · exact .inr (.inl ⟨rest, hp, hq, hc, rfl⟩)
      · exact .inr (.inr (.inl ⟨_, rest, hp, hq, hc, rfl⟩))
    · rename_i hc
      exact .inr (.inr (.inr ⟨item, rest, hp, hq, by simpa using hc, rfl⟩))
  · rename_i hne
    refine .inl ⟨?_, rfl⟩
    by_cases hp : st.phase = .reading
    · cases hq : st.chunkQueue with
      | nil => exact .inr rfl
      | cons item rest => exact (hne item rest hp hq).elim
    · exact .inl hp

/-- What a timeout can do: nothing unless the loop waits on an empty queue; then, while the
client is connected, it ends the response with the error frame. -/
theorem step_timeout_cases (st : State) :
    step requestId modelName st .timeout = st ∨
    (st.phase = .reading ∧ st.chunkQueue = [] ∧ st.connected = true ∧
      step requestId modelName st .timeout =
        { st with
          body := st.body ++ [.data timeoutError, .done]
          phase := .returned
          timedOut := true }) ∨
    (st.phase = .reading ∧ st.chunkQueue = [] ∧ st.connected = false ∧
      step requestId modelName st .timeout = { st with phase := .raised }) := by
  simp only [step]
  split
  · rename_i hw
    split
    · rename_i hc
      exact .inr (.inl ⟨hw.1, hw.2, hc, rfl⟩)
    · rename_i hc
      exact .inr (.inr ⟨hw.1, hw.2, by simpa using hc, rfl⟩)
  · exact .inl rfl

/-- What holds of every state a run reaches: the queue holds what the callbacks put and the
loop has not taken; the body is one frame per chunk taken, then what follows the loop; a timeout
ends the handler, and only while no final chunk had come. -/
structure Inv (st : State) : Prop where
  queue : st.phase ≠ .raised → expand st.delivered = st.taken ++ st.chunkQueue
  body : st.body = st.written.map (chunkFrame requestId modelName) ++ st.trailer
  timedOut : st.timedOut = true →
    st.phase = .returned ∧ ∀ p ∈ st.written, p.2.isFinal = false

theorem inv_init : Inv requestId modelName init :=
  ⟨fun _ => rfl, rfl, fun h => absurd h (by decide)⟩

variable {requestId modelName}

theorem Inv.timedOut_eq_false {st : State} (h : Inv requestId modelName st)
    (hp : st.phase ≠ .returned) : st.timedOut = false := by
  cases ht : st.timedOut
  · rfl
  · exact absurd (h.timedOut ht).1 hp

/-- While the loop reads, the queue is what the callbacks put past the chunks framed. -/
theorem Inv.reading {st : State} (h : Inv requestId modelName st) (hp : st.phase = .reading) :
    st.timedOut = false ∧ expand st.delivered = st.written.map (some ·.2) ++ st.chunkQueue ∧
      st.body = st.written.map (chunkFrame requestId modelName) := by
  have hto := h.timedOut_eq_false (by simp [hp])
  refine ⟨hto, ?_, ?_⟩
  · simpa [State.taken, hp] using h.queue (by simp [hp])
  · simpa [State.trailer, hp] using h.body

theorem Inv.callback {st : State} (h : Inv requestId modelName st) (c : StreamChunk) :
    Inv requestId modelName (step requestId modelName st (.callback c)) := by
  refine ⟨fun hr => ?_, h.body, h.timedOut⟩
  simp only [step, expand_append, h.queue hr, List.append_assoc, expand_singleton]
  rfl

theorem Inv.get {st : State} (h : Inv requestId modelName st) (created : Int) :
    Inv requestId modelName (step requestId modelName st (.get created)) := by
  rcases step_get_cases requestId modelName st created with
    ⟨-, he⟩ | ⟨rest, hp, hq, -, he⟩ | ⟨c, rest, hp, hq, -, he⟩ |
      ⟨item, rest, hp, hq, -, he⟩ <;> rw [he]
  · exact h
  · obtain ⟨hto, hq', hb⟩ := h.reading hp
    refine ⟨fun _ => ?_, ?_, fun ht => absurd ht (by simp [hto])⟩
    · simpa [State.taken, hto, hq] using hq'
    · simpa [State.trailer, hto] using hb
  · obtain ⟨hto, hq', hb⟩ := h.reading hp
    refine ⟨fun _ => ?_, ?_, fun ht => absurd ht (by simp [hto])⟩
    · simpa [State.taken, hp, hq] using hq'
    · simp [State.trailer, hp, hb, chunkFrame]
  · obtain ⟨hto, -, hb⟩ := h.reading hp
    exact ⟨fun hr => absurd rfl hr, by simpa [State.trailer] using hb,
      fun ht => absurd ht (by simp [hto])⟩

theorem Inv.timeout {st : State} (h : Inv requestId modelName st) :
    Inv requestId modelName (step requestId modelName st .timeout) := by
  rcases step_timeout_cases requestId modelName st with
    he | ⟨hp, hq, -, he⟩ | ⟨hp, -, -, he⟩ <;> rw [he]
  · exact h
  · obtain ⟨-, hq', hb⟩ := h.reading hp
    rw [hq, List.append_nil] at hq'
    refine ⟨fun _ => by simpa [State.taken, hq] using hq', by simp [State.trailer, hb],
      fun _ => ⟨rfl, fun p hp' => ?_⟩⟩
    -- a final chunk would have put a `None` that the loop never took
    have hd : p.2 ∈ st.delivered :=
      some_mem_expand.mp (hq' ▸ List.mem_map_of_mem (some ·.2) hp')
    by_contra hf
    have hn := none_mem_expand.mpr ⟨p.2, hd, by simpa using hf⟩
    simp [hq'] at hn
  · obtain ⟨hto, -, hb⟩ := h.reading hp
    exact ⟨fun hr => absurd rfl hr, by simpa [State.trailer] using hb,
      fun ht => absurd ht (by simp [hto])⟩

theorem Inv.next {st : State} (h : Inv requestId modelName st) :
    ∀ e, Inv requestId modelName (step requestId modelName st e)
  | .callback c => h.callback c
  | .get created => h.get created
  | .timeout => h.timeout
  | .disconnect => ⟨h.queue, h.body, h.timedOut⟩
  | .published => by
    by_cases hp : st.phase = .publishing
    · have hto := h.timedOut_eq_false (by simp [hp])
      simp only [step, if_pos hp]
      refine ⟨fun _ => ?_, ?_, fun ht => absurd ht (by simp [hto])⟩
      · simpa [State.taken, hp] using h.queue (by simp [hp])
      · simpa [State.trailer, hp] using h.body
    · simpa [step, hp] using h
  | .publishRaises => by
    by_cases hp : st.phase = .publishing
    · have hto := h.timedOut_eq_false (by simp [hp])
      simp only [step, if_pos hp]
      exact ⟨fun hr => absurd rfl hr, by simpa [State.trailer, hp] using h.body,
        fun ht => absurd ht (by simp [hto])⟩
    · simpa [step, hp] using h

theorem inv_foldl {st : State} (h : Inv requestId modelName st) (es : List Event) :
    Inv requestId modelName (es.foldl (step requestId modelName) st) := by
  induction es generalizing st with
  | nil => exact h
  | cons e es ih => exact ih (h.next e)

theorem inv_run (es : List Event) : Inv requestId modelName (run requestId modelName es) :=
  inv_foldl (inv_init requestId modelName) es

end Handler

/-! ## The body of a run -/

/-- `frames` are the frames the loop writes for `chunks`, one each, at some `created` each. -/
def Framed (requestId modelName : String) (chunks : List StreamChunk) (frames : List Frame) :
    Prop :=
  List.Forall₂ (fun c f => ∃ created, f = .data (sseData requestId created modelName c))
    chunks frames

theorem framed_written (requestId modelName : String) (ws : List (Int × StreamChunk)) :
    Framed requestId modelName (ws.map Prod.snd) (ws.map (chunkFrame requestId modelName)) := by
  induction ws with
  | nil => exact .nil
  | cons p ws ih => exact .cons ⟨p.1, rfl⟩ ih

/-- On the chunks through the first final one, what depends on finality takes its final branch
only at the last chunk. -/
theorem map_chunks_through_final {β : Type} (a b : StreamChunk → β) {pre : List StreamChunk}
    {f : StreamChunk} (hpre : ∀ c ∈ pre, c.isFinal = false) (hf : f.isFinal = true) :
    (pre ++ [f]).map (fun c => if c.isFinal then a c else b c) = pre.map b ++ [a f] := by
  rw [List.map_append, List.map_singleton, if_pos hf]
  exact congrArg (· ++ _) (List.map_congr_left fun c hc => if_neg (by simp [hpre c hc]))

theorem finishReasons_written (requestId modelName : String) {ws : List (Int × StreamChunk)}
    {pre : List StreamChunk} {f : StreamChunk} (hw : ws.map Prod.snd = pre ++ [f])
    (hpre : ∀ c ∈ pre, c.isFinal = false) (hf : f.isFinal = true) :
    (ws.map (chunkFrame requestId modelName)).map finishReasonOf =
      pre.map (fun _ => some .none) ++ [some (.str (orStop f.finishReason))] := by
  rw [← map_chunks_through_final (fun c => some (PyVal.str (orStop c.finishReason)))
    (fun _ => some PyVal.none) hpre hf, ← hw, List.map_map, List.map_map]
  exact List.map_congr_left fun p _ => finishReasonOf_chunkFrame requestId modelName p

section Handler

variable {requestId modelName : String}

/-- A returned handler has framed each chunk through the first final one and written `[DONE]`;
or a wait timed out, and it has framed a prefix of the chunks, none final, then written the
error frame and `[DONE]`. -/
theorem Inv.returned_body {st : State} (h : Inv requestId modelName st)
    (hp : st.phase = .returned) :
    (st.timedOut = false ∧ ∃ pre f rest, st.delivered = pre ++ f :: rest ∧
      (∀ c ∈ pre, c.isFinal = false) ∧ f.isFinal = true ∧
      st.written.map Prod.snd = pre ++ [f] ∧
      st.body = st.written.map (chunkFrame requestId modelName) ++ [.done]) ∨
    (st.timedOut = true ∧ st.written.map Prod.snd <+: st.delivered ∧
      (∀ c ∈ st.written.map Prod.snd, c.isFinal = false) ∧
      st.body =
        st.written.map (chunkFrame requestId modelName) ++ [.data timeoutError, .done]) := by
  have hq := h.queue (by simp [hp])
  have hb := h.body
  cases ht : st.timedOut
  · have hq' : ((st.written.map Prod.snd).map some ++ [none]) ++ st.chunkQueue =
        expand st.delivered := by
      simp [hq, State.taken, hp, ht, List.map_map, Function.comp_def]
    obtain ⟨pre, f, rest, hd, hw, hpre, hf⟩ := expand_prefix_none ⟨st.chunkQueue, hq'⟩
    exact .inl ⟨rfl, pre, f, rest, hd, hpre, hf, hw, by simpa [State.trailer, hp, ht] using hb⟩
  · obtain ⟨-, hfin⟩ := h.timedOut ht
    have hq' : (st.written.map Prod.snd).map some ++ st.chunkQueue = expand st.delivered := by
      simp [hq, State.taken, hp, ht, List.map_map, Function.comp_def]
    have hfin' : ∀ c ∈ st.written.map Prod.snd, c.isFinal = false := by
      simpa using fun c t hct => hfin (t, c) hct
    exact .inr ⟨rfl, prefix_of_expand ⟨st.chunkQueue, hq'⟩ hfin', hfin',
      by simpa [State.trailer, hp, ht] using hb⟩

theorem step_get_of_ne_reading {st : State} (hp : st.phase ≠ .reading) (t : Int) :
    step requestId modelName st (.get t) = st := by
  rcases step_get_cases requestId modelName st t with
    ⟨-, he⟩ | ⟨_, hr, -⟩ | ⟨_, _, hr, -⟩ | ⟨_, _, hr, -⟩
  · exact he
  all_goals exact absurd hr hp

theorem foldl_gets_of_ne_reading {st : State} (hp : st.phase ≠ .reading) (t : Int) (n : Nat) :
    (List.replicate n (Event.get t)).foldl (step requestId modelName) st = st := by
  induction n with
  | zero => rfl
  | succ n ih => rw [List.replicate_succ, List.foldl_cons, step_get_of_ne_reading hp, ih]

/-- With a `None` on the queue and the client connected, as many `get`s as the queue holds end
the response. -/
theorem gets_return (t : Int) : ∀ {st : State}, st.phase = .reading → st.connected = true →
    none ∈ st.chunkQueue →
    ((List.replicate st.chunkQueue.length (Event.get t)).foldl
        (step requestId modelName) st).phase = .returned ∧
      ((List.replicate st.chunkQueue.length (Event.get t)).foldl
        (step requestId modelName) st).timedOut = st.timedOut := by
  intro st hp hc hn
  generalize hq : st.chunkQueue = q at hn
  induction q generalizing st with
  | nil => simp at hn
  | cons item rest ih =>
    rw [List.length_cons, List.replicate_succ, List.foldl_cons]
    rcases step_get_cases requestId modelName st t with
      ⟨hne, -⟩ | ⟨r, -, hq', -, he⟩ | ⟨c, r, -, hq', -, he⟩ | ⟨_, _, -, -, hc', -⟩
    · simp [hp, hq] at hne
    · obtain ⟨rfl, rfl⟩ : item = none ∧ rest = r := by simpa [hq] using hq'
      rw [he, foldl_gets_of_ne_reading (by simp)]
      exact ⟨rfl, rfl⟩
    · obtain ⟨rfl, rfl⟩ : item = some c ∧ rest = r := by simpa [hq] using hq'
      rw [he]
      exact ih hp hc rfl (by simpa using hn)
    · simp [hc] at hc'

end Handler

/-- Streaming, for every interleaving of the callbacks with the loop. Once the handler has
returned, its body is one frame per chunk through the first final chunk, in delivery order,
only the last with a finish reason, then exactly one `[DONE]`; or, if a wait exceeded
`config.timeout`, the frames written so far, the timeout frame and one `[DONE]`. Once a final
chunk has been delivered to a reading handler, no wait is left: as many `get`s as the queue
holds end the response without a timeout. -/
theorem stream_body_through_first_final (requestId modelName : String) (es : List Event)
    (t : Int) :
    let st := run requestId modelName es
    (st.phase = .returned →
      (st.timedOut = false ∧ ∃ pre f rest frames, st.delivered = pre ++ f :: rest ∧
        (∀ c ∈ pre, c.isFinal = false) ∧ f.isFinal = true ∧
        Framed requestId modelName (pre ++ [f]) frames ∧
        frames.map finishReasonOf =
          pre.map (fun _ => some .none) ++ [some (.str (orStop f.finishReason))] ∧
        st.body = frames ++ [.done]) ∨
      (st.timedOut = true ∧ ∃ pre frames, pre <+: st.delivered ∧
        (∀ c ∈ pre, c.isFinal = false) ∧ Framed requestId modelName pre frames ∧
        st.body = frames ++ [.data timeoutError, .done])) ∧
    (st.phase = .reading → st.connected = true → (∃ c ∈ st.delivered, c.isFinal = true) →
      let st' := run requestId modelName (es ++ List.replicate st.chunkQueue.length (.get t))
      st'.phase = .returned ∧ st'.timedOut = false) := by
  intro st
  have h : Inv requestId modelName st := inv_run es
  refine ⟨fun hp => ?_, fun hp hc hfin => ?_⟩
  · rcases h.returned_body hp with
      ⟨ht, pre, f, rest, hd, hpre, hf, hw, hb⟩ | ⟨ht, hpx, hfin, hb⟩
    · refine .inl ⟨ht, pre, f, rest, _, hd, hpre, hf, hw ▸ framed_written _ _ _,
        finishReasons_written requestId modelName hw hpre hf, hb⟩
    · exact .inr ⟨ht, _, _, hpx, hfin, framed_written _ _ _, hb⟩
  · obtain ⟨hto, hq, -⟩ := h.reading hp
    have hn : none ∈ st.chunkQueue := by simpa [hq] using none_mem_expand.mpr hfin
    show (run requestId modelName (es ++ _)).phase = _ ∧ _
    rw [run_append]
    exact (gets_return t hp hc hn).imp id (·.trans hto)

theorem stream_body_through_first_final_spec_scenario :
    let es : List Event := [.published, .callback ⟨"hel", false, none⟩,
      .callback ⟨"lo", true, some "stop"⟩]
    let st' := run "chatcmpl-1" "nanobot"
      (es ++ List.replicate (run "chatcmpl-1" "nanobot" es).chunkQueue.length (.get 0))
    st'.phase = .returned ∧ st'.timedOut = false :=
  (stream_body_through_first_final "chatcmpl-1" "nanobot"
    [.published, .callback ⟨"hel", false, none⟩, .callback ⟨"lo", true, some "stop"⟩] 0).2
    rfl rfl ⟨_, List.mem_cons_of_mem _ (List.mem_singleton_self _), rfl⟩

/-- A client of a response that did not time out reads the contents of the chunks before the
first final chunk: the final chunk's own content is dropped with its delta. -/
theorem stream_client_reads_text_before_final (requestId modelName : String) (es : List Event)
    (hp : (run requestId modelName es).phase = .returned)
    (ht : (run requestId modelName es).timedOut = false) :
    ∃ pre f rest, (run requestId modelName es).delivered = pre ++ f :: rest ∧
      (∀ c ∈ pre, c.isFinal = false) ∧ f.isFinal = true ∧
      clientText (run requestId modelName es).body = String.join (pre.map StreamChunk.content) := by
  have h : Inv requestId modelName (run requestId modelName es) := inv_run es
  generalize run requestId modelName es = st at h hp ht ⊢
  rcases h.returned_body hp with ⟨-, pre, f, rest, hd, hpre, hf, hw, hb⟩ | ⟨ht', -⟩
  · refine ⟨pre, f, rest, hd, hpre, hf, ?_⟩
    rw [hb, clientText_chunkFrames, hw,
      map_chunks_through_final (fun _ => "") StreamChunk.content hpre hf]
    simp [String.join, List.foldl_append, clientText]
  · simp [ht] at ht'

theorem stream_client_reads_text_before_final_spec_scenario :
    let st := run "chatcmpl-1" "nanobot" [.published, .callback ⟨"hel", false, none⟩,
      .callback ⟨"lo", true, some "stop"⟩, .get 1, .get 2, .get 3]
    ∃ pre f rest, st.delivered = pre ++ f :: rest ∧ (∀ c ∈ pre, c.isFinal = false) ∧
      f.isFinal = true ∧ clientText st.body = String.join (pre.map StreamChunk.content) :=
  stream_client_reads_text_before_final _ _ _ rfl rfl

/-- The default `chat_stream` yields its whole reply in one chunk that has a finish reason, so is
final: a client reads none of its text. -/
theorem stream_final_chunk_text_dropped :
    let st := run "chatcmpl-1" "nanobot"
      [.published, .callback ⟨"hello", true, some "stop"⟩, .get 0, .get 0]
    st.phase = .returned ∧ st.timedOut = false ∧
      st.delivered = [⟨"hello", true, some "stop"⟩] ∧ clientText st.body = "" :=
  ⟨rfl, rfl, rfl, by decide⟩

end Clawbot.Channels.Stream
