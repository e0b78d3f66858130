import Clawbot.Python.Dict

/-!
# Non-streaming requests of `OpenAPIChannel`

`_handle_non_stream` registers an `asyncio.Future` in `_pending_responses` under the request's
`chat_id`, publishes the message through `_handle_message`, and awaits the future with
`asyncio.wait_for(future, timeout=config.timeout)`. `_on_outbound` pops the future of the
outbound message's `chat_id` and sets its result if it is not done; `stop()` cancels every
registered future that is not done and clears the table.

The event loop runs one coroutine at a time between two `await`s, so each of these is one
atomic `Event`. A `Request` is one `_handle_non_stream` invocation with its future; the
table maps a `chat_id` to the index of the request whose future it holds. `deliveries`
records each call of `_on_outbound` with the request whose future it popped.
-/

namespace Clawbot.Channels

open Clawbot.Python

/-- The state of a request's `asyncio.Future[str]`. -/
inductive Holder
  | pending
  | result (content : String)
  | cancelled
  deriving DecidableEq, Repr

/-- `future.cancel()` on a request's future: a future that is done stays as it is. -/
def Holder.cancel : Holder → Holder
  | .pending => .cancelled
  | h => h

/-- How `_handle_non_stream` ends: 200 with the reply's content, 504 `Request timeout`, 499
`Request cancelled`, or an exception out of the handler (`_handle_message` raised, or the task
was cancelled while it ran). -/
inductive Outcome
  | ok (content : String)
  | timeout
  | cancelled
  | raised
  deriving DecidableEq, Repr

/-- Where `_handle_non_stream` stands: awaiting `self._handle_message(...)`, awaiting
`asyncio.wait_for(future, timeout=self.config.timeout)`, or returned. -/
inductive Phase
  | publishing
  | waiting
  | returned (o : Outcome)
  deriving DecidableEq, Repr

/-- One `_handle_non_stream` invocation: its `chat_id`, its future and where it stands. -/
structure Request where
  chatId : String
  holder : Holder
  phase : Phase
  deriving DecidableEq, Repr

/-- A request whose entry may still stand in `_pending_responses`: in flight with its future
pending, or returned through a path that does not pop (499, or an exception). -/
def Request.KeepsEntry (r : Request) : Prop :=
  (r.phase = .publishing ∨ r.phase = .waiting) ∧ r.holder = .pending ∨
    r.phase = .returned .cancelled ∨ r.phase = .returned .raised

/-- A call of `_on_outbound(msg)`, with the request whose future it popped. -/
structure Delivery where
  chatId : String
  content : String
  popped : Option Nat
  deriving DecidableEq, Repr

/-- An `OpenAPIChannel`: its `_pending_responses` and the requests it has served. -/
structure OpenAPIChannel where
  pendingResponses : Dict String Nat
  requests : List Request
  deliveries : List Delivery

/-- What happens next: `_handle_chat_completions` mints `chat_id = f"{user}:{hex}"` and enters
`_handle_non_stream`, which registers its future; request `i`'s `_handle_message` returns or
raises; `_on_outbound(OutboundMessage(chat_id, content))`; request `i` resumes once its future
is done, or when `config.timeout` elapses, or its client disconnects and aiohttp cancels it. -/
inductive Event
  | request (user hex : String)
  | published (i : Nat)
  | publishRaises (i : Nat)
  | outbound (chatId content : String)
  | wake (i : Nat)
  | timeout (i : Nat)
  | disconnect (i : Nat)
  | stop

namespace OpenAPIChannel

def empty : OpenAPIChannel := ⟨.empty, [], []⟩

def setRequest (ch : OpenAPIChannel) (i : Nat) (r : Request) : OpenAPIChannel :=
  { ch with requests := ch.requests.set i r }

/-- `_on_outbound(msg)` -/
def onOutbound (ch : OpenAPIChannel) (chatId content : String) : OpenAPIChannel :=
  let future := (ch.pendingResponses.pop chatId).1
  let ch := { ch with
    pendingResponses := (ch.pendingResponses.pop chatId).2
    deliveries := ch.deliveries ++ [⟨chatId, content, future⟩] }
  match future with
  | some j =>
    match ch.requests[j]? with
    | some r => if r.holder = .pending then ch.setRequest j { r with holder := .result content }
      else ch
    | none => ch
  | none => ch

/-- `stop()`: cancel the registered futures that are not done, then clear the table. -/
def stop (ch : OpenAPIChannel) : OpenAPIChannel :=
  { ch with
    requests := ch.requests.mapIdx fun j r =>
      if (ch.pendingResponses.items.map Prod.snd).contains j then
        { r with holder := r.holder.cancel } else r
    pendingResponses := ch.pendingResponses.clear }

/-- One step of one request's handler. -/
def resume (ch : OpenAPIChannel) (i : Nat) (r : Request) : Event → OpenAPIChannel
  | .published _ =>
    if r.phase = .publishing then ch.setRequest i { r with phase := .waiting } else ch
  | .publishRaises _ =>
    if r.phase = .publishing then ch.setRequest i { r with phase := .returned .raised } else ch
  | .wake _ =>
    match r.phase, r.holder with
    | .waiting, .result content => ch.setRequest i { r with phase := .returned (.ok content) }
    | .waiting, .cancelled => ch.setRequest i { r with phase := .returned .cancelled }
    | _, _ => ch
  | .timeout _ =>
    if r.phase = .waiting ∧ r.holder = .pending then
      { ch.setRequest i { r with holder := .cancelled, phase := .returned .timeout } with
          pendingResponses := (ch.pendingResponses.pop r.chatId).2 }
    else ch
  | .disconnect _ =>
    match r.phase with
    | .publishing => ch.setRequest i { r with phase := .returned .raised }
    | .waiting =>
      ch.setRequest i { r with holder := r.holder.cancel, phase := .returned .cancelled }
    | .returned _ => ch
  | _ => ch

def step (ch : OpenAPIChannel) : Event → OpenAPIChannel
  | .request user hex =>
    let chatId := user ++ ":" ++ hex
    { ch with
      pendingResponses := ch.pendingResponses.setItem chatId ch.requests.length
      requests := ch.requests ++ [⟨chatId, .pending, .publishing⟩] }
  | .outbound chatId content => ch.onOutbound chatId content
  | .stop => ch.stop
  | e@(.published i) | e@(.publishRaises i) | e@(.wake i) | e@(.timeout i) | e@(.disconnect i) =>
    match ch.requests[i]? with
    | some r => ch.resume i r e
    | none => ch

def run (es : List Event) : OpenAPIChannel := es.foldl step empty

theorem run_append_single (es : List Event) (e : Event) : run (es ++ [e]) = (run es).step e :=
  List.foldl_append _ _ _ _

/-! ## What every run keeps -/

@[simp] theorem Holder.cancel_eq_result (h : Holder) (s : String) :
    h.cancel = .result s ↔ h = .result s := by
  cases h <;> simp [Holder.cancel]

theorem setRequest_get? {ch : OpenAPIChannel} {i : Nat} {r : Request} (r' : Request)
    (hi : ch.requests[i]? = some r) (j : Nat) :
    (ch.setRequest i r').requests[j]? = if i = j then some r' else ch.requests[j]? := by
  have : i < ch.requests.length := (List.getElem?_eq_some_iff.mp hi).1
  simp [setRequest, List.getElem?_set, this]

theorem getElem?_append_single {α : Type} {l : List α} {x a : α} {j : Nat}
    (h : (l ++ [x])[j]? = some a) : l[j]? = some a ∨ (j = l.length ∧ a = x) := by
  rw [List.getElem?_append] at h
  split at h
  · exact .inl h
  · rename_i hj
    obtain ⟨h₁, h₂⟩ := List.getElem?_eq_some_iff.mp h
    simp only [List.length_singleton, Nat.lt_one_iff] at h₁
    exact .inr ⟨by omega, by simp [← h₂]⟩

/-- What holds of every reachable channel: an entry holds the future of a request minted under
its `chat_id`; a future's result is the content of a delivery to that `chat_id` which popped
it; a 200 carries the result of the request's own future. -/
structure Inv (ch : OpenAPIChannel) : Prop where
  registered : ∀ (c : String) (j : Nat), (c, j) ∈ ch.pendingResponses.items →
    ∃ r, ch.requests[j]? = some r ∧ r.chatId = c
  delivered : ∀ (j : Nat) (r : Request) (s : String), ch.requests[j]? = some r →
    r.holder = .result s →
    ∃ k : Nat, ch.deliveries[k]? = some (Delivery.mk r.chatId s (some j))
  answered : ∀ (j : Nat) (r : Request) (s : String), ch.requests[j]? = some r →
    r.phase = .returned (.ok s) →
    r.holder = .result s

namespace Inv

variable {ch : OpenAPIChannel}

theorem empty : Inv empty :=
  ⟨fun _ _ h => (nomatch h), fun _ _ _ h => (nomatch h), fun _ _ _ h => nomatch h⟩

/-- Dropping entries of the table keeps the invariant. -/
theorem shrink (h : Inv ch) (d : Dict String Nat)
    (hd : ∀ p ∈ d.items, p ∈ ch.pendingResponses.items) :
    Inv { ch with pendingResponses := d } :=
  ⟨fun c j hj => h.registered c j (hd _ hj), h.delivered, h.answered⟩

/-- A step of one request keeps the invariant if it keeps the `chat_id`, its future's result
comes from a delivery that popped it, and it answers 200 only with that result. -/
theorem setRequest (h : Inv ch) {i : Nat} {r r' : Request} (hi : ch.requests[i]? = some r)
    (hc : r'.chatId = r.chatId)
    (hd : ∀ s, r'.holder = .result s →
      ∃ k : Nat, ch.deliveries[k]? = some (Delivery.mk r.chatId s (some i)))
    (ha : ∀ s, r'.phase = .returned (.ok s) → r'.holder = .result s) :
    Inv (ch.setRequest i r') where
  registered c j hj := by
    obtain ⟨r₀, h₀, rfl⟩ := h.registered c j hj
    rw [setRequest_get? r' hi]
    split
    · subst_vars; rw [hi] at h₀; cases h₀; exact ⟨r', rfl, hc⟩
    · exact ⟨r₀, h₀, rfl⟩
  delivered j r₁ s hj hs := by
    rw [setRequest_get? r' hi] at hj
    split at hj
    · subst_vars; cases hj; rw [hc]; exact hd s hs
    · exact h.delivered j r₁ s hj hs
  answered j r₁ s hj hs := by
    rw [setRequest_get? r' hi] at hj
    split at hj
    · cases hj; exact ha s hs
    · exact h.answered j r₁ s hj hs

theorem resume (h : Inv ch) {i : Nat} {r : Request} (hi : ch.requests[i]? = some r) :
    ∀ e, Inv (ch.resume i r e)
  | .published _ | .publishRaises _ => by
    simp only [OpenAPIChannel.resume]
    split
    · exact h.setRequest hi rfl (fun s hs => h.delivered _ r s hi hs) (fun _ hs => nomatch hs)
    · exact h
  | .wake _ => by
    simp only [OpenAPIChannel.resume]
    split
    · rename_i content _ hh
      exact h.setRequest hi rfl (fun s hs => h.delivered _ r s hi hs) (fun s hs => by simp_all)
    · exact h.setRequest hi rfl (fun s hs => h.delivered _ r s hi hs) (fun _ hs => nomatch hs)
    · exact h
  | .timeout _ => by
    simp only [OpenAPIChannel.resume]
    split
    · exact (@setRequest ch h i r { r with holder := .cancelled, phase := .returned .timeout } hi
        rfl (fun _ hs => nomatch hs) (fun _ hs => nomatch hs)).shrink _
          fun _ hp => Dict.mem_of_mem_pop hp
    · exact h
  | .disconnect _ => by
    simp only [OpenAPIChannel.resume]
    split
    · exact h.setRequest hi rfl (fun s hs => h.delivered _ r s hi hs) (fun _ hs => nomatch hs)
    · exact h.setRequest hi rfl (fun s hs => h.delivered _ r s hi (by simpa using hs))
        (fun _ hs => nomatch hs)
    · exact h
  | .request _ _ | .outbound _ _ | .stop => h

theorem request (h : Inv ch) (user hex : String) : Inv (ch.step (.request user hex)) where
  registered c j hj := by
    rcases Dict.mem_setItem hj with hj | ⟨rfl, rfl⟩
    · obtain ⟨r, hr, rfl⟩ := h.registered c j hj
      exact ⟨r, List.getElem?_append_left (List.getElem?_eq_some_iff.mp hr).1 ▸ hr, rfl⟩
    · exact ⟨_, List.getElem?_concat_length _ _, rfl⟩
  delivered j r s hj hs := by
    rcases getElem?_append_single hj with hj | ⟨-, rfl⟩
    · exact h.delivered j r s hj hs
    · cases hs
  answered j r s hj hs := by
    rcases getElem?_append_single hj with hj | ⟨-, rfl⟩
    · exact h.answered j r s hj hs
    · cases hs

theorem onOutbound (h : Inv ch) (c s : String) : Inv (ch.onOutbound c s) := by
  have h₁ : Inv { ch with
      pendingResponses := (ch.pendingResponses.pop c).2
      deliveries := ch.deliveries ++ [⟨c, s, (ch.pendingResponses.pop c).1⟩] } :=
    ⟨fun c' j hj => h.registered c' j (Dict.mem_of_mem_pop hj),
      fun j r s' hj hs => by
        obtain ⟨k, hk⟩ := h.delivered j r s' hj hs
        exact ⟨k, (List.getElem?_append_left (List.getElem?_eq_some_iff.mp hk).1).trans hk⟩,
      h.answered⟩
  simp only [OpenAPIChannel.onOutbound]
  split
  · rename_i j hj
    split
    · rename_i r hr
      split
      · rename_i hp
        obtain ⟨r₀, h₀, hc⟩ := h.registered c j (Dict.mem_of_get? hj)
        rw [hr] at h₀; cases h₀
        refine h₁.setRequest hr rfl (fun s' hs => ⟨ch.deliveries.length, ?_⟩) fun s' hs => ?_
        · cases hs; simp [hc, ← hj, Dict.pop]
        · rw [h.answered j r s' hr hs] at hp; cases hp
      · exact h₁
    · exact h₁
  · exact h₁

theorem stop (h : Inv ch) : Inv ch.stop where
  registered _ _ hj := nomatch hj
  delivered j r s hj hs := by
    simp only [OpenAPIChannel.stop, List.getElem?_mapIdx, Option.map_eq_some'] at hj
    obtain ⟨r₀, h₀, rfl⟩ := hj
    by_cases hc : (ch.pendingResponses.items.map Prod.snd).contains j <;> simp only [hc] at hs ⊢
    · exact h.delivered j r₀ s h₀ (by simpa using hs)
    · exact h.delivered j r₀ s h₀ hs
  answered j r s hj hs := by
    simp only [OpenAPIChannel.stop, List.getElem?_mapIdx, Option.map_eq_some'] at hj
    obtain ⟨r₀, h₀, rfl⟩ := hj
    by_cases hc : (ch.pendingResponses.items.map Prod.snd).contains j <;> simp only [hc] at hs ⊢
    · simpa using h.answered j r₀ s h₀ hs
    · exact h.answered j r₀ s h₀ hs

/-- Every event keeps the invariant. -/
theorem step (h : Inv ch) : ∀ e, Inv (ch.step e)
  | .request user hex => h.request user hex
  | .outbound c s => h.onOutbound c s
  | .stop => h.stop
  | .published i | .publishRaises i | .wake i | .timeout i | .disconnect i => by
    simp only [OpenAPIChannel.step]
    split
    · exact h.resume ‹_› _
    · exact h

end Inv

theorem inv_run (es : List Event) : Inv (run es) := by
  induction es using List.reverseRecOn with
  | nil => exact Inv.empty
  | append_singleton es e ih => rw [run_append_single]; exact ih.step e

/-- Whatever the interleaving of requests, deliveries, timeouts, disconnections and `stop()`, a
request that answers 200 answers with the content of an outbound message addressed to its own
`chat_id` and delivered while its future was the one registered there; and two requests that
answer 200 were served by two different deliveries. -/
theorem ok_replies_are_own_deliveries (es : List Event) :
    let ch := run es
    (∀ (j : Nat) (r : Request) (s : String), ch.requests[j]? = some r →
      r.phase = .returned (.ok s) →
      ∃ k : Nat, ch.deliveries[k]? = some (Delivery.mk r.chatId s (some j))) ∧
    (∀ (j j' : Nat) (r r' : Request) (s s' : String), j ≠ j' →
      ch.requests[j]? = some r → ch.requests[j']? = some r' →
      r.phase = .returned (.ok s) → r'.phase = .returned (.ok s') →
      ∃ k k' : Nat, k ≠ k' ∧ ch.deliveries[k]? = some (Delivery.mk r.chatId s (some j)) ∧
        ch.deliveries[k']? = some (Delivery.mk r'.chatId s' (some j'))) := by
  have hserved : ∀ (j : Nat) (r : Request) (s : String), (run es).requests[j]? = some r →
      r.phase = .returned (.ok s) →
      ∃ k : Nat, (run es).deliveries[k]? = some (Delivery.mk r.chatId s (some j)) :=
    fun j r s hj hs => (inv_run es).delivered j r s hj ((inv_run es).answered j r s hj hs)
  refine ⟨hserved, fun j j' r r' s s' hne hj hj' hs hs' => ?_⟩
  obtain ⟨k, hk⟩ := hserved j r s hj hs
  obtain ⟨k', hk'⟩ := hserved j' r' s' hj' hs'
  refine ⟨k, k', fun hkk => hne ?_, hk, hk'⟩
  rw [hkk, hk'] at hk
  simp only [Option.some.injEq, Delivery.mk.injEq] at hk
  exact hk.2.2.symm

/-- A request is published, its reply arrives through `_on_outbound` and the handler wakes: it
answers 200 with the delivered content. -/
theorem ok_replies_are_own_deliveries_served :
    let es : List Event := [.request "alice" "0a1b2c3d", .published 0,
      .outbound "alice:0a1b2c3d" "hi", .wake 0]
    (run es).requests[0]? = some ⟨"alice:0a1b2c3d", .result "hi", .returned (.ok "hi")⟩ ∧
      ∃ k : Nat, (run es).deliveries[k]? = some ⟨"alice:0a1b2c3d", "hi", some 0⟩ := by
  intro es
  have h : (run es).requests[0]? =
      some ⟨"alice:0a1b2c3d", .result "hi", .returned (.ok "hi")⟩ := by decide
  exact ⟨h, (ok_replies_are_own_deliveries es).1 0 _ "hi" h rfl⟩

/-! ## What the table keeps -/

/-- Every entry holds the future of a request minted under its `chat_id` that keeps it. -/
def Registered (ch : OpenAPIChannel) : Prop :=
  ∀ (c : String) (j : Nat), (c, j) ∈ ch.pendingResponses.items →
    ∃ r, ch.requests[j]? = some r ∧ r.chatId = c ∧ r.KeepsEntry

namespace Registered

variable {ch : OpenAPIChannel}

theorem shrink (h : Registered ch) (d : Dict String Nat)
    (hd : ∀ p ∈ d.items, p ∈ ch.pendingResponses.items) :
    Registered { ch with pendingResponses := d } :=
  fun c j hj => h c j (hd _ hj)

/-- Replacing request `i` keeps the property if every entry that holds its future still may. -/
theorem setRequest (h : Registered ch) {i : Nat} {r r' : Request} (hi : ch.requests[i]? = some r)
    (hu : ∀ c, (c, i) ∈ ch.pendingResponses.items → r'.chatId = c ∧ r'.KeepsEntry) :
    Registered (ch.setRequest i r') := by
  intro c j hj
  obtain ⟨r₀, h₀, hc, hk⟩ := h c j hj
  rw [setRequest_get? r' hi]
  split
  · rename_i hij; subst hij; exact ⟨r', rfl, hu c hj⟩
  · exact ⟨r₀, h₀, hc, hk⟩

/-- A step of request `i` that keeps its `chat_id`, and keeps its entry whenever it could. -/
theorem setRequest_of_keeps (h : Registered ch) {i : Nat} {r r' : Request}
    (hi : ch.requests[i]? = some r) (hc : r'.chatId = r.chatId)
    (hu : r.KeepsEntry → r'.KeepsEntry) : Registered (ch.setRequest i r') :=
  h.setRequest hi fun c hci => by
    obtain ⟨r₀, h₀, rfl, hk⟩ := h c i hci
    rw [hi] at h₀; cases h₀
    exact ⟨hc, hu hk⟩

theorem resume (h : Registered ch) {i : Nat} {r : Request} (hi : ch.requests[i]? = some r) :
    ∀ e, Registered (ch.resume i r e)
  | .published _ | .publishRaises _ => by
    simp only [OpenAPIChannel.resume]
    split
    · exact h.setRequest_of_keeps hi rfl fun hk => by simp_all [Request.KeepsEntry]
    · exact h
  | .wake _ => by
    simp only [OpenAPIChannel.resume]
    split
    · exact h.setRequest_of_keeps hi rfl fun hk => by simp_all [Request.KeepsEntry]
    · exact h.setRequest_of_keeps hi rfl fun _ => by simp [Request.KeepsEntry]
    · exact h
  | .timeout _ => by
    simp only [OpenAPIChannel.resume]
    split
    · refine (h.shrink _ fun _ hp => Dict.mem_of_mem_pop hp).setRequest hi fun c hci => ?_
      obtain ⟨r₀, h₀, rfl, -⟩ := h c i (Dict.mem_of_mem_pop hci)
      rw [hi] at h₀; cases h₀
      exact absurd (List.mem_filter.mp hci).2 (by simp)
    · exact h
  | .disconnect _ => by
    simp only [OpenAPIChannel.resume]
    split <;> first
      | exact h.setRequest_of_keeps hi rfl fun _ => by simp [Request.KeepsEntry]
      | exact h
  | .request _ _ | .outbound _ _ | .stop => h

theorem request (h : Registered ch) (user hex : String) :
    Registered (ch.step (.request user hex)) := by
  intro c j hj
  rcases Dict.mem_setItem hj with hj | ⟨rfl, rfl⟩
  · obtain ⟨r, hr, hc, hk⟩ := h c j hj
    exact ⟨r, List.getElem?_append_left (List.getElem?_eq_some_iff.mp hr).1 ▸ hr, hc, hk⟩
  · exact ⟨_, List.getElem?_concat_length _ _, rfl, .inl ⟨.inl rfl, rfl⟩⟩

theorem onOutbound (h : Registered ch) (c s : String) : Registered (ch.onOutbound c s) := by
  have h₁ : Registered { ch with
      pendingResponses := (ch.pendingResponses.pop c).2
      deliveries := ch.deliveries ++ [⟨c, s, (ch.pendingResponses.pop c).1⟩] } :=
    fun c' j hj => h c' j (Dict.mem_of_mem_pop hj)
  simp only [OpenAPIChannel.onOutbound]
  split
  · rename_i j hj
    split
    · split
      · refine h₁.setRequest ‹_› fun c' hc' => ?_
        obtain ⟨r₀, h₀, hc₀, -⟩ := h c j (Dict.mem_of_get? hj)
        obtain ⟨r₁, hr₁, hc₁, -⟩ := h c' j (Dict.mem_of_mem_pop hc')
        rw [h₀] at hr₁; cases hr₁
        exact absurd (hc₁.symm.trans hc₀) (by simpa using (List.mem_filter.mp hc').2)
      · exact h₁
    · exact h₁
  · exact h₁

theorem step (h : Registered ch) : ∀ e, Registered (ch.step e)
  | .request user hex => h.request user hex
  | .outbound c s => h.onOutbound c s
  | .stop => fun _ _ hj => nomatch hj
  | .published i | .publishRaises i | .wake i | .timeout i | .disconnect i => by
    simp only [OpenAPIChannel.step]
    split
    · exact h.resume ‹_› _
    · exact h

end Registered

theorem registered_run (es : List Event) : Registered (run es) := by
  induction es using List.reverseRecOn with
  | nil => exact fun _ _ hj => nomatch hj
  | append_singleton es e ih => rw [run_append_single]; exact ih.step e

/-- Whatever the interleaving, each entry of `_pending_responses` holds the future of a request
minted under its `chat_id` that is still in flight with its future pending, or that returned
499 or raised. A request that answered 200 or 504 never keeps an entry: `_on_outbound` and the
timeout branch pop it. -/
theorem pending_entries_in_flight_or_cancelled (es : List Event) (c : String) (j : Nat)
    (hj : (c, j) ∈ (run es).pendingResponses.items) :
    ∃ r, (run es).requests[j]? = some r ∧ r.chatId = c ∧
      ((r.phase = .publishing ∨ r.phase = .waiting) ∧ r.holder = .pending ∨
        r.phase = .returned .cancelled ∨ r.phase = .returned .raised) :=
  registered_run es c j hj

theorem pending_entries_in_flight_or_cancelled_witness :
    ("alice:0a1b2c3d", 0) ∈
        (run [.request "alice" "0a1b2c3d", .published 0, .disconnect 0]).pendingResponses.items ∧
      ∃ r, (run [.request "alice" "0a1b2c3d", .published 0, .disconnect 0]).requests[0]? =
        some r ∧ r.chatId = "alice:0a1b2c3d" ∧
        ((r.phase = .publishing ∨ r.phase = .waiting) ∧ r.holder = .pending ∨
          r.phase = .returned .cancelled ∨ r.phase = .returned .raised) :=
  ⟨by decide, pending_entries_in_flight_or_cancelled _ "alice:0a1b2c3d" 0 (by decide)⟩

/-- A client that disconnects while its request awaits the reply leaves the request's entry in
`_pending_responses`: the `CancelledError` branch returns 499 without popping it, so the table
keeps a future that is done for a handler that has returned. -/
theorem disconnect_leaves_pending_entry (ch : OpenAPIChannel) (i : Nat) (r : Request)
    (hi : ch.requests[i]? = some r) (hw : r.phase = .waiting)
    (hp : ch.pendingResponses.get? r.chatId = some i) :
    (ch.step (.disconnect i)).pendingResponses.get? r.chatId = some i ∧
    ∃ r', (ch.step (.disconnect i)).requests[i]? = some r' ∧ r'.holder ≠ .pending ∧
      r'.phase = .returned .cancelled := by
  refine ⟨by simpa [step, hi, resume, hw, setRequest] using hp,
    { r with holder := r.holder.cancel, phase := .returned .cancelled }, ?_, ?_, rfl⟩
  · simp [step, hi, resume, hw, setRequest_get? _ hi]
  · cases r.holder <;> simp [Holder.cancel]

theorem disconnect_leaves_pending_entry_witness :
    (run [.request "alice" "0a1b2c3d", .published 0]).requests[0]? =
      some ⟨"alice:0a1b2c3d", .pending, .waiting⟩ ∧
    ((run [.request "alice" "0a1b2c3d", .published 0]).step (.disconnect 0)).pendingResponses.get?
      "alice:0a1b2c3d" = some 0 ∧
    ∃ r', ((run [.request "alice" "0a1b2c3d", .published 0]).step (.disconnect 0)).requests[0]? =
      some r' ∧ r'.holder ≠ .pending ∧ r'.phase = .returned .cancelled :=
  ⟨by decide, disconnect_leaves_pending_entry _ 0 ⟨"alice:0a1b2c3d", .pending, .waiting⟩ (by decide)
    rfl (by decide)⟩

end OpenAPIChannel

end Clawbot.Channels
