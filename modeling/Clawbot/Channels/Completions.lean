import Clawbot.Python.Value

/-!
# `_handle_chat_completions`: from a request to the text it publishes

The handler checks the API key, reads the body with `await request.json()`, takes
`messages`, `stream` and `user` from it, and extracts the text of the last message whose
`role` is `"user"`: its `content` when that is a `str`, and the `text` of its parts of type
`"text"` joined by newlines when it is a `list`. It answers 401, 400 or 403 through
`web.json_response`, or hands the text to `_handle_stream` or `_handle_non_stream`. An
exception that leaves the handler becomes aiohttp's 500.

What `request.json()` makes of the bytes is aiohttp's and `json`'s: a `Body` is which of its
outcomes the handler sees. A body over `client_max_size` (1 MiB by default) raises
`HTTPRequestEntityTooLarge`, which aiohttp answers with 413; bytes that are not UTF-8 raise
`UnicodeDecodeError`; `json.loads` raises `JSONDecodeError` on malformed JSON, which the handler
catches, and `ValueError` (an integer of more than 4300 digits) or `RecursionError` (deep
nesting) on some valid JSON, which it does not. `is_allowed` belongs to `BaseChannel`, which is
not in the sources, and is a parameter.
-/

namespace Clawbot.Channels

open Clawbot.Python

/-- What `await request.json()` gives the handler: `tooLarge` is the 413 of `request.read()`,
`undecodable` the `UnicodeDecodeError` of `request.text()`, `invalidJson` a `JSONDecodeError`,
and `loadsRaises e` any other exception of `json.loads`. -/
inductive Body
  | tooLarge
  | undecodable
  | invalidJson
  | loadsRaises (e : PyExc)
  | value (v : PyVal)

/-- How the handler answers, short of an exception: `web.json_response({"error": {"message":
message, "type": type}}, status=status)`, or `_handle_stream` / `_handle_non_stream` with the
user and the text. -/
inductive Reply
  | error (status : Nat) (message type : String)
  | forward (user : PyVal) (content : String) (stream : Bool)

/-- `_verify_api_key`: without configured keys every request passes; otherwise the
`Authorization` header must be `Bearer ` and a configured key. -/
def verifyApiKey (apiKeys : List String) (authorization : String) : Bool :=
  apiKeys.isEmpty || (authorization.startsWith "Bearer " && apiKeys.contains (authorization.drop 7))

/-- `[p.get("text", "") for p in content if p.get("type") == "text"]` -/
def textParts : List PyVal → Except PyExc (List PyVal)
  | [] => .ok []
  | p :: ps => do
    let type ← p.get "type" .none
    if type.eqStr "text" then
      let text ← p.get "text" (.str "")
      return text :: (← textParts ps)
    else textParts ps

/-- The body of `if msg.get("role") == "user":`: the message's text, `""` when its content is
neither a `str` nor a `list`. -/
def userMessageText (msg : PyVal) : Except PyExc String := do
  match ← msg.get "content" (.str "") with
  | .str content => return content
  | .list content => joinStrs "\n" (← textParts content)
  | _ => return ""

/-- The loop `for msg in reversed(messages)`, given the messages in the order it visits them:
the text of the first with role `"user"`, or `""`. -/
def lastUserContent : List PyVal → Except PyExc String
  | [] => .ok ""
  | msg :: msgs => do
    let role ← msg.get "role" .none
    if role.eqStr "user" then userMessageText msg else lastUserContent msgs

/-- The handler from `body.get("messages", [])` on. -/
def handleBody (isAllowed : PyVal → Bool) (body : PyVal) : Except PyExc Reply := do
  let messages ← body.get "messages" (.list [])
  let stream ← body.get "stream" (.bool false)
  let user ← body.get "user" (.str "anonymous")
  if !messages.truthy then
    return .error 400 "messages is required" "invalid_request_error"
  let userContent ← lastUserContent (← messages.reversed)
  if userContent = "" then
    return .error 400 "No user message found" "invalid_request_error"
  if !isAllowed user then
    return .error 403 "User not allowed" "permission_error"
  return .forward user userContent stream.truthy

/-- `_handle_chat_completions` up to the call of `_handle_stream` or `_handle_non_stream`. -/
def handleChatCompletions (isAllowed : PyVal → Bool) (apiKeys : List String)
    (authorization : String) (request : Body) : Except PyExc Reply :=
  if !verifyApiKey apiKeys authorization then
    .ok (.error 401 "Invalid API key" "invalid_request_error")
  else
    match request with
    | .tooLarge => .error ⟨"HTTPRequestEntityTooLarge", "Request Entity Too Large"⟩
    | .undecodable => .error ⟨"UnicodeDecodeError", "'utf-8' codec can't decode the body"⟩
    | .invalidJson => .ok (.error 400 "Invalid JSON" "invalid_request_error")
    | .loadsRaises e => .error e
    | .value body => handleBody isAllowed body

/-- A body that is valid JSON but no object: the first `body.get` raises `AttributeError`,
which nothing catches, so the request ends in a 500. -/
theorem non_object_body_raises (isAllowed : PyVal → Bool) (apiKeys : List String)
    (authorization : String) (body : PyVal) (hk : verifyApiKey apiKeys authorization = true)
    (hb : ∀ members, body ≠ .dict members) :
    handleChatCompletions isAllowed apiKeys authorization (.value body) =
      .error ⟨"AttributeError", "'" ++ body.typeName ++ "' object has no attribute 'get'"⟩ := by
  cases body with
  | dict members => exact absurd rfl (hb members)
  | _ => simp [handleChatCompletions, hk, handleBody, PyVal.get, bind, Except.bind]

theorem non_object_body_raises_witness :
    verifyApiKey [] "" = true ∧ (∀ members, PyVal.list [] ≠ .dict members) ∧
    handleChatCompletions (fun _ => true) [] "" (.value (.list [])) =
      .error ⟨"AttributeError", "'list' object has no attribute 'get'"⟩ :=
  ⟨rfl, fun _ h => (nomatch h),
    non_object_body_raises (fun _ => true) [] "" (.list []) rfl fun _ h => nomatch h⟩

/-! ## Object bodies -/

/-- `msg.get("role") == "user"` for a message that is an object. -/
def isUserMessage : PyVal → Bool
  | .dict members => (PyVal.lookup members "role" .none).eqStr "user"
  | _ => false

/-- The loop over `reversed(messages)` stops at the last message with role `"user"`. -/
theorem lastUserContent_reverse (msgs : List PyVal) (hd : ∀ msg ∈ msgs, ∃ ms, msg = .dict ms) :
    lastUserContent msgs.reverse =
      match (msgs.filter isUserMessage).getLast? with
      | some msg => userMessageText msg
      | none => .ok "" := by
  induction msgs using List.reverseRecOn with
  | nil => rfl
  | append_singleton msgs x ih =>
    obtain ⟨ms, rfl⟩ := hd _ (List.mem_append_right _ (List.mem_singleton_self _))
    rw [List.reverse_append, List.reverse_singleton, List.singleton_append, List.filter_append]
    by_cases hu : (PyVal.lookup ms "role" .none).eqStr "user"
    · simp [lastUserContent, PyVal.get, bind, Except.bind, isUserMessage, hu]
    · simp [lastUserContent, PyVal.get, bind, Except.bind, isUserMessage, hu,
        ih fun m hm => hd m (List.mem_append_left _ hm)]

/-- On a request with a valid API key whose `request.json()` returned an object, whose messages
are objects, and whose last message with role `"user"` has a non-empty string as content, the
handler does not raise: it answers 403 to a user that `is_allowed` refuses and otherwise hands
that text on. -/
theorem object_body_forwards_last_user_text (isAllowed : PyVal → Bool) (apiKeys : List String)
    (authorization : String) (members : List (String × PyVal)) (msgs : List PyVal) (msg : PyVal)
    (text : String) (hk : verifyApiKey apiKeys authorization = true)
    (hm : PyVal.lookup members "messages" (.list []) = .list msgs)
    (hd : ∀ m ∈ msgs, ∃ ms, m = .dict ms)
    (hl : (msgs.filter isUserMessage).getLast? = some msg)
    (hc : msg.get "content" (.str "") = .ok (.str text)) (ht : text ≠ "") :
    handleChatCompletions isAllowed apiKeys authorization (.value (.dict members)) =
      .ok (if isAllowed (PyVal.lookup members "user" (.str "anonymous")) then
          .forward (PyVal.lookup members "user" (.str "anonymous")) text
            (PyVal.lookup members "stream" (.bool false)).truthy
        else .error 403 "User not allowed" "permission_error") := by
  have hne : msgs ≠ [] := by rintro rfl; simp at hl
  have htext : lastUserContent msgs.reverse = .ok text := by
    rw [lastUserContent_reverse msgs hd, hl]
    simp [userMessageText, hc, bind, Except.bind, pure, Except.pure]
  have hmt : (PyVal.list msgs).truthy = true := by simpa [PyVal.truthy] using hne
  simp only [handleChatCompletions, hk, Bool.not_true, handleBody, PyVal.get, hm, PyVal.reversed,
    bind, Except.bind, htext, ht, hmt, pure, Except.pure]
  cases isAllowed (PyVal.lookup members "user" (.str "anonymous")) <;> rfl

theorem object_body_forwards_last_user_text_witness :
    handleChatCompletions (fun _ => true) [] ""
        (.value (.dict [("messages", .list [.dict [("role", .str "user"),
          ("content", .str "hi")]])])) =
      .ok (.forward (.str "anonymous") "hi" false) :=
  object_body_forwards_last_user_text (fun _ => true) [] ""
    [("messages", .list [.dict [("role", .str "user"), ("content", .str "hi")]])]
    [.dict [("role", .str "user"), ("content", .str "hi")]]
    (.dict [("role", .str "user"), ("content", .str "hi")]) "hi"
    rfl rfl (by simp) rfl rfl (by decide)

end Clawbot.Channels
