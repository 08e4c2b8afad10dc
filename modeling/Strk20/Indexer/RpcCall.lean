import Strk20.Foundation.Json
import Strk20.Indexer.Rpc

/-!
# JSON-RPC calls and their retries (`rpc.rs`)

One call asks until an answer ends it. Three budgets are spent by different answers:
transport failures (which count towards moving the active endpoint), pruned history, and
HTTP 429; the last is refilled once, by moving the active endpoint. A storage proof asks
every endpoint in turn, with failover disallowed.

A client has one caller here. `log` is a record for proofs, read by no code but for the
number of requests it holds: the moment of the next one.
-/

namespace Strk20.Indexer.Calls

open Feed

/-! ## Requests and answers -/

def FAILOVER_AFTER : Nat := 5
def TRANSPORT_ATTEMPTS : Nat := 8
def PROOF_TRANSPORT_ATTEMPTS : Nat := 2
def CAPABILITY_RETRIES : Nat := 5
def PROOF_RETRIES : Nat := 16
def THROTTLE_RETRIES : Nat := 12
def THROTTLE_MAX_DELAY : Nat := 1000

/-- A `serde_json::Value`, as far as an answer is read. -/
structure ValueOps (V : Type) where
  get : V → String → Option V
  isNull : V → Bool
  display : V → String

/-- What a request comes to: no response, an HTTP error, 429, a body that is no JSON, or
a document. -/
inductive Answer (V : Type) where
  | transport
  | http
  | tooManyRequests
  | garbled (text : String)
  | body (v : V)

structure Request where
  url : String
  method : String
  params : Json

/-- The atomics every call reads and writes. -/
structure Shared where
  active : Nat
  consecutiveFailures : Nat
deriving DecidableEq

structure EndpointCaps where
  proofsServed : Nat
  proofsDenied : Nat

/-- One request with its answer, and what handling the answer did. -/
structure Exchange (V : Type) where
  request : Request
  answer : Answer V
  before : Shared
  after : Shared

structure State (V : Type) where
  shared : Shared
  caps : List EndpointCaps
  log : List (Exchange V)

structure Client where
  endpoints : List String
  nonempty : 0 < endpoints.length

/-- An error and its causes. -/
abbrev Trail := List String

/-- `{e:#}`. -/
def errorText (e : Trail) : String := ": ".intercalate e

/-- `str::contains`. -/
def containsText (msg part : String) : Bool :=
  msg.toList.tails.any fun rest => part.toList.isPrefixOf rest

def isPrunedHistory (e : Trail) : Bool :=
  containsText (errorText e) "has been pruned" || containsText (errorText e) "oldest retained block"

def isProofUnavailable (e : Trail) : Bool :=
  containsText (errorText e) "too far in the past" ||
    (containsText (errorText e) "starknet_getStorageProof" &&
      containsText (errorText e) "\"code\":42")

def isEndpointExhausted (e : Trail) : Bool :=
  containsText (errorText e) "failed after retries" ||
    containsText (errorText e) "still rate limited"

namespace Client

variable (C : Client)

def url (i : Nat) : String := C.endpoints.get ⟨i % C.endpoints.length, Nat.mod_lt _ C.nonempty⟩

def activeIndex {V : Type} (s : State V) : Nat := s.shared.active % C.endpoints.length

/-- Where a failover moves. -/
def next (x : Shared) : Nat := (x.active + 1) % C.endpoints.length

end Client

/-! ## One call -/

/-- The arguments of `call_at`. -/
structure Call where
  idx : Nat
  method : String
  params : Json
  allowFailover : Bool
  transportAttempts : Nat

/-- The local variables of `call_at`; delays are milliseconds. -/
structure Budgets where
  transportLeft : Nat
  capabilityLeft : Nat
  throttleLeft : Nat
  throttleEscalated : Bool
  delay : Nat
  throttleDelay : Nat

def Budgets.start (transportAttempts : Nat) : Budgets :=
  ⟨transportAttempts, CAPABILITY_RETRIES, THROTTLE_RETRIES, false, 300, 300⟩

/-- `delay = (delay * 2).min(Duration::from_secs(60))`. -/
def Budgets.slower (b : Budgets) : Budgets := { b with delay := min (b.delay * 2) 60000 }

/-- How a round of the loop ends. -/
inductive Step (V : Type) where
  | again (b : Budgets)
  | done (result : Except Trail V)

/-- `n - 1` of a `usize`, which wraps. -/
def usizePred (n : Nat) : Nat := if n = 0 then 2 ^ 64 - 1 else n - 1

section Rounds

variable {V : Type} (C : Client) (O : ValueOps V)

/-- HTTP 429. -/
def onThrottle (call : Call) (url : String) (b : Budgets) (x : Shared) : Step V × Shared :=
  if b.throttleLeft = 0 then
    if call.allowFailover && !b.throttleEscalated && decide (1 < C.endpoints.length) then
      (.again { b with
        throttleEscalated := true
        throttleLeft := THROTTLE_RETRIES
        throttleDelay := 300 }, { x with active := C.next x })
    else
      (.done (.error ["rpc call " ++ call.method ++ " still rate limited by " ++ url ++
        " after backoff"]), x)
  else
    (.again { b with
      throttleLeft := b.throttleLeft - 1
      throttleDelay := min (b.throttleDelay * 2) THROTTLE_MAX_DELAY }, x)

/-- A JSON-RPC answer is no transport failure, an error neither. -/
def onBody (call : Call) (b : Budgets) (x : Shared) (v : V) : Step V × Shared :=
  let x := { x with consecutiveFailures := 0 }
  match (O.get v "error").filter fun e => !O.isNull e with
  | some err =>
      let e := ["rpc error from " ++ call.method ++ ": " ++ O.display err]
      if !isPrunedHistory e || (call.allowFailover && decide (1 < C.endpoints.length)) then
        (.done (.error e), x)
      else if b.capabilityLeft = 0 then
        (.done (.error ((call.method ++ ": endpoint kept answering with pruned history after " ++
          CAPABILITY_RETRIES.repr ++ " retries") :: e)), x)
      else (.again { b with capabilityLeft := b.capabilityLeft - 1 }.slower, x)
  | none =>
      match O.get v "result" with
      | some result => (.done (.ok result), x)
      | none => (.done (.error [call.method ++ ": response has no result"]), x)

/-- A transport failure counts towards failover, where the call may fail over. -/
def countFailure (call : Call) (x : Shared) : Shared :=
  if call.allowFailover then
    let fails := (x.consecutiveFailures + 1) % 2 ^ 64
    if FAILOVER_AFTER ≤ fails ∧ 1 < C.endpoints.length then ⟨C.next x, 0⟩
    else { x with consecutiveFailures := fails }
  else x

def onFailure (call : Call) (b : Budgets) (x : Shared) : Step V × Shared :=
  let left := usizePred b.transportLeft
  if left = 0 then
    (.done (.error ["rpc call " ++ call.method ++ " failed after retries on all endpoints"]),
      countFailure C call x)
  else (.again { b with transportLeft := left }.slower, countFailure C call x)

def onAnswer (call : Call) (url : String) (b : Budgets) (x : Shared) :
    Answer V → Step V × Shared
  | .tooManyRequests => onThrottle C call url b x
  | .body v => onBody C O call b x v
  | .garbled text => (.done (.error ["decode json-rpc response", text]), x)
  | .http => onFailure C call b x
  | .transport => onFailure C call b x

variable (net : Nat → Request → Answer V)

/-- One round of the loop of `call_at`. -/
def round (call : Call) (b : Budgets) (s : State V) : Step V × State V :=
  let url := if call.allowFailover then C.url (C.activeIndex s) else C.url call.idx
  let request : Request := ⟨url, call.method, call.params⟩
  let answer := net s.log.length request
  let did := onAnswer C O call url b s.shared answer
  (did.1, { s with shared := did.2, log := s.log ++ [⟨request, answer, s.shared, did.2⟩] })

/-! ## What a round does -/

namespace Exchange

def throttled (e : Exchange V) : Bool :=
  match e.answer with
  | .tooManyRequests => true
  | _ => false

/-- The active endpoint is another one after the answer. -/
def moved (e : Exchange V) : Bool := e.after.active != e.before.active

end Exchange

end Rounds

/-- How many rounds the budgets allow for. -/
def Budgets.left (b : Budgets) : Nat :=
  usizePred b.transportLeft + 1 + b.capabilityLeft + b.throttleLeft +
    cond b.throttleEscalated 0 (THROTTLE_RETRIES + 1)

theorem usizePred_add_one {n : Nat} (h : n ≠ 0) : usizePred n + 1 = n := by
  rw [usizePred, if_neg h]
  omega

theorem Budgets.left_pos (b : Budgets) : 0 < b.left := by
  unfold left
  omega

/-- What a round does to the shared state and the budgets. -/
structure RoundFacts {V : Type} (call : Call) (b : Budgets) (e : Exchange V) (step : Step V) :
    Prop where
  counter : e.throttled = true → e.after.consecutiveFailures = e.before.consecutiveFailures
  pinned : call.allowFailover = false → e.moved = false
  spent : e.throttled = true → e.moved = true →
    b.throttleLeft = 0 ∧ b.throttleEscalated = false
  again : ∀ b', step = .again b' → b'.left < b.left ∧
    (b.throttleEscalated = true → b'.throttleEscalated = true) ∧
    (e.throttled = true → e.moved = true → b'.throttleEscalated = true) ∧
    b.throttleLeft ≤ b'.throttleLeft + if e.throttled then 1 else 0

section Facts

variable {V : Type} {C : Client} {O : ValueOps V} {call : Call} {b : Budgets}

/-- Answers other than 429 leave the throttle budget alone. -/
theorem RoundFacts.of_other {e : Exchange V} {step : Step V} (hother : e.throttled = false)
    (hpinned : call.allowFailover = false → e.moved = false)
    (hagain : ∀ b', step = .again b' → b'.left < b.left ∧
      b'.throttleLeft = b.throttleLeft ∧ b'.throttleEscalated = b.throttleEscalated) :
    RoundFacts call b e step := by
  refine ⟨fun h => ?_, hpinned, fun h => ?_, fun b' hstep => ?_⟩
  · rw [hother] at h
    cases h
  · rw [hother] at h
    cases h
  · obtain ⟨hleft, hthrottle, hescalated⟩ := hagain b' hstep
    refine ⟨hleft, fun h => hescalated.trans h, fun h => ?_, ?_⟩
    · rw [hother] at h
      cases h
    · rw [hthrottle]
      exact Nat.le_add_right _ _

theorem moved_eq_false {e : Exchange V} (h : e.after.active = e.before.active) :
    e.moved = false := by
  rw [Exchange.moved, h, bne_self_eq_false]

theorem countFailure_active {x : Shared} (h : call.allowFailover = false) :
    countFailure C call x = x := by
  rw [countFailure, h]
  rfl

theorem onFailure_facts {e : Exchange V} (hother : e.throttled = false)
    (hafter : e.after = countFailure C call e.before) :
    RoundFacts call b e (onFailure C call b e.before).1 := by
  refine .of_other hother (fun h => ?_) fun b' hstep => ?_
  · apply moved_eq_false
    rw [hafter, countFailure_active h]
  · rw [onFailure] at hstep
    split at hstep
    · cases hstep
    · rename_i hleft
      cases hstep
      refine ⟨?_, rfl, rfl⟩
      simp only [Budgets.left, Budgets.slower, usizePred_add_one hleft]
      omega

theorem onFailure_shared (x : Shared) :
    (onFailure C call b x : Step V × Shared).2 = countFailure C call x := by
  rw [onFailure]
  split
  · rfl
  · rfl

theorem onBody_shared (x : Shared) (v : V) :
    (onBody C O call b x v).2 = { x with consecutiveFailures := 0 } := by
  simp only [onBody]
  split
  · split
    · rfl
    · split
      · rfl
      · rfl
  · split
    · rfl
    · rfl

theorem onBody_again {x : Shared} {v : V} {b' : Budgets}
    (h : (onBody C O call b x v).1 = .again b') : b'.left < b.left ∧
      b'.throttleLeft = b.throttleLeft ∧ b'.throttleEscalated = b.throttleEscalated := by
  simp only [onBody] at h
  split at h
  · split at h
    · cases h
    · split at h
      · cases h
      · rename_i hleft
        cases h
        refine ⟨?_, rfl, rfl⟩
        simp only [Budgets.left, Budgets.slower]
        omega
  · split at h
    · cases h
    · cases h

theorem onThrottle_facts {e : Exchange V} {url : String} (hthrottled : e.throttled = true)
    (hafter : e.after = (onThrottle C call url b e.before : Step V × Shared).2) :
    RoundFacts call b e (onThrottle C call url b e.before).1 := by
  rw [onThrottle] at hafter ⊢
  by_cases hzero : b.throttleLeft = 0
  · rw [if_pos hzero] at hafter ⊢
    by_cases hmay : (call.allowFailover && !b.throttleEscalated &&
        decide (1 < C.endpoints.length)) = true
    · rw [if_pos hmay] at hafter ⊢
      simp only [Bool.and_eq_true, Bool.not_eq_true'] at hmay
      obtain ⟨⟨hallow, hescalated⟩, -⟩ := hmay
      refine ⟨fun _ => by rw [hafter], fun h => ?_, fun _ _ => ⟨hzero, hescalated⟩, ?_⟩
      · rw [hallow] at h
        cases h
      · intro b' hstep
        cases hstep
        refine ⟨?_, fun _ => rfl, fun _ _ => rfl, by rw [hzero]; exact Nat.zero_le _⟩
        simp only [Budgets.left, hescalated, hzero, cond_true, cond_false]
        omega
    · rw [if_neg hmay] at hafter ⊢
      have hmoved : e.moved = false := moved_eq_false (by rw [hafter])
      refine ⟨fun _ => by rw [hafter], fun _ => hmoved, fun _ h => ?_, fun b' hstep => ?_⟩
      · rw [hmoved] at h
        cases h
      · cases hstep
  · rw [if_neg hzero] at hafter ⊢
    have hmoved : e.moved = false := moved_eq_false (by rw [hafter])
    refine ⟨fun _ => by rw [hafter], fun _ => hmoved, fun _ h => ?_, fun b' hstep => ?_⟩
    · rw [hmoved] at h
      cases h
    · cases hstep
      refine ⟨?_, fun h => h, fun _ h => ?_, ?_⟩
      · simp only [Budgets.left]
        omega
      · rw [hmoved] at h
        cases h
      · rw [hthrottled, if_pos rfl]
        dsimp only
        omega

theorem onAnswer_facts (request : Request) (url : String) (x : Shared) (a : Answer V) :
    RoundFacts call b ⟨request, a, x, (onAnswer C O call url b x a).2⟩
      (onAnswer C O call url b x a).1 := by
  cases a with
  | transport => exact onFailure_facts rfl (onFailure_shared x)
  | http => exact onFailure_facts rfl (onFailure_shared x)
  | tooManyRequests => exact onThrottle_facts rfl rfl
  | garbled text =>
      exact .of_other rfl (fun _ => moved_eq_false rfl) fun b' hstep => by cases hstep
  | body v =>
      refine .of_other rfl (fun _ => moved_eq_false ?_) fun b' hstep => onBody_again hstep
      show (onBody C O call b x v).2.active = x.active
      rw [onBody_shared]

/-- A round is one exchange. -/
theorem round_spec {net : Nat → Request → Answer V} {s s' : State V} {step : Step V}
    (h : round C O net call b s = (step, s')) : ∃ e : Exchange V, RoundFacts call b e step ∧
      e.before = s.shared ∧ e.after = s'.shared ∧ s'.log = s.log ++ [e] := by
  rw [round] at h
  cases h
  exact ⟨_, onAnswer_facts _ _ s.shared _, rfl, rfl, rfl⟩

theorem round_left {net : Nat → Request → Answer V} {s s' : State V} {b' : Budgets}
    (h : round C O net call b s = (.again b', s')) : b'.left < b.left := by
  obtain ⟨e, hfacts, -⟩ := round_spec h
  exact (hfacts.again b' rfl).1

end Facts

/-! ## Calls -/

section Calls

variable {V P : Type} (C : Client) (O : ValueOps V) (net : Nat → Request → Answer V)

def callLoop (call : Call) (b : Budgets) (s : State V) : Except Trail V × State V :=
  match _h : round C O net call b s with
  | (.again b, s) => callLoop call b s
  | (.done result, s) => (result, s)
termination_by b.left
decreasing_by exact round_left _h

def callAt (call : Call) (s : State V) : Except Trail V × State V :=
  callLoop C O net call (.start call.transportAttempts) s

/-- Pruned history is asked of the next endpoint, once. -/
def call (method : String) (params : Json) (s : State V) : Except Trail V × State V :=
  let (result, s) :=
    callAt C O net ⟨C.activeIndex s, method, params, true, TRANSPORT_ATTEMPTS⟩ s
  match result with
  | .error e =>
      if isPrunedHistory e && decide (1 < C.endpoints.length) then
        callAt C O net ⟨(C.activeIndex s + 1) % C.endpoints.length, method, params, false,
          TRANSPORT_ATTEMPTS⟩ s
      else (.error e, s)
  | .ok v => (.ok v, s)

/-- Endpoints that served a proof, those never tried, those that only refused; the active
one first among its kind: the pair `(rank, i != active)` as one number. -/
def proofKey (s : State V) (i : Nat) : Nat :=
  let caps := s.caps.getD i ⟨0, 0⟩
  let rank := if 0 < caps.proofsServed then 0 else if 0 < caps.proofsDenied then 2 else 1
  2 * rank + if i ≠ C.activeIndex s then 1 else 0

/-- `order.sort_by_key`, which is stable. -/
def proofOrder (s : State V) : List Nat :=
  (List.range C.endpoints.length).mergeSort fun i j =>
    decide (proofKey C s i ≤ proofKey C s j)

def served (s : State V) (idx : Nat) : State V :=
  { s with caps := s.caps.modify idx fun c =>
      { c with proofsServed := (c.proofsServed + 1) % 2 ^ 64 } }

def denied (s : State V) (idx : Nat) : State V :=
  { s with caps := s.caps.modify idx fun c =>
      { c with proofsDenied := (c.proofsDenied + 1) % 2 ^ 64 } }

/-- How asking one endpoint for a proof ends. -/
inductive Turn (P V : Type) where
  | answered (result : Except Trail (P × V))
  | next (last : Trail)

variable (decode : V → Except String P)

/-- The inner loop of `get_storage_proof`. -/
def proofLoop (params : Json) (idx refusals : Nat) (s : State V) : Turn P V × State V :=
  match callAt C O net
      ⟨idx, "starknet_getStorageProof", params, false, PROOF_TRANSPORT_ATTEMPTS⟩ s with
  | (.ok raw, s) =>
      match decode raw with
      | .ok typed => (.answered (.ok (typed, raw)), served s idx)
      | .error text => (.answered (.error ["decode getStorageProof", text]), s)
  | (.error e, s) =>
      if isProofUnavailable e then
        if PROOF_RETRIES ≤ refusals + 1 then (.next e, denied s idx)
        else proofLoop params idx (refusals + 1) (denied s idx)
      else if isEndpointExhausted e then (.next e, s)
      else (.answered (.error e), s)
termination_by PROOF_RETRIES - refusals
decreasing_by omega

def proofTurns (params : Json) : List Nat → Option Trail → State V →
    Except Trail (P × V) × State V
  | [], last, s => (.error (last.getD ["no rpc endpoint configured for storage proofs"]), s)
  | idx :: order, _, s =>
      match proofLoop C O net decode params idx 0 s with
      | (.answered result, s) => (result, s)
      | (.next e, s) => proofTurns params order (some e) s

def BlockRef.toJson : BlockRef → Json
  | .number n => .obj [("block_number", .num n)]
  | .latest => .str "latest"
  | .l1Accepted => .str "l1_accepted"

/-- Without keys the parameter is an empty array, never null. -/
def proofParams (r : BlockRef) (contract : Felt) (keys : List Felt) : Json :=
  let keysParam : Json :=
    if keys.isEmpty then .arr []
    else .arr [.obj [("contract_address", .str (feltHex contract)),
      ("storage_keys", .arr (keys.map fun k => .str (feltHex k)))]]
  .arr [BlockRef.toJson r, .arr [], .arr [.str (feltHex contract)], keysParam]

def getStorageProof (r : BlockRef) (contract : Felt) (keys : List Felt) (s : State V) :
    Except Trail (P × V) × State V :=
  proofTurns C O net decode (proofParams r contract keys) (proofOrder C s) none s

end Calls

/-! ## What a call does -/

section Logs

variable {V : Type}

/-- Exchanges that take one shared state to another, each from where the last one ended. -/
def Chained : Shared → List (Exchange V) → Shared → Prop
  | x, [], y => x = y
  | x, e :: log, y => e.before = x ∧ Chained e.after log y

theorem Chained.append {log : List (Exchange V)} : ∀ {x y z : Shared} {more : List (Exchange V)},
    Chained x log y → Chained y more z → Chained x (log ++ more) z := by
  induction log with
  | nil =>
      intro x y z more h h'
      obtain rfl : x = y := h
      exact h'
  | cons e log ih =>
      intro x y z more h h'
      exact ⟨h.1, ih h.2 h'⟩

theorem Chained.active {log : List (Exchange V)} : ∀ {x y : Shared}, Chained x log y →
    (∀ e ∈ log, e.moved = false) → y.active = x.active := by
  induction log with
  | nil =>
      intro x y h _
      exact congrArg Shared.active h.symm
  | cons e log ih =>
      intro x y h hmoved
      obtain ⟨he, hlog⟩ := List.forall_mem_cons.mp hmoved
      rw [ih h.2 hlog, ← h.1]
      exact bne_eq_false_iff_eq.mp he

/-- The exchanges of one call from given budgets on. -/
structure Rounds (call : Call) (b : Budgets) (log : List (Exchange V)) : Prop where
  length : log.length ≤ b.left
  counter : ∀ e ∈ log, e.throttled = true →
    e.after.consecutiveFailures = e.before.consecutiveFailures
  once : (log.filter fun e => e.throttled && e.moved).length ≤ cond b.throttleEscalated 0 1
  spent : ∀ (front : List (Exchange V)) (e : Exchange V) (back : List (Exchange V)),
    log = front ++ e :: back → e.throttled = true → e.moved = true →
      b.throttleLeft ≤ (front.filter Exchange.throttled).length
  pinned : call.allowFailover = false → ∀ e ∈ log, e.moved = false

variable {call : Call} {b : Budgets} {e : Exchange V}

/-- A 429 that moves the active endpoint is the escalation. -/
theorem RoundFacts.once {step : Step V} (h : RoundFacts call b e step) :
    ([e].filter fun e => e.throttled && e.moved).length ≤ cond b.throttleEscalated 0 1 := by
  cases hmove : e.throttled && e.moved with
  | false => simp [hmove]
  | true =>
      obtain ⟨hthrottled, hmoved⟩ := Bool.and_eq_true_iff.mp hmove
      obtain ⟨-, hescalated⟩ := h.spent hthrottled hmoved
      simp [hmove, hescalated]

theorem Rounds.last {result : Except Trail V} (h : RoundFacts call b e (.done result)) :
    Rounds call b [e] := by
  refine ⟨b.left_pos, ?_, h.once, ?_, ?_⟩
  · intro e' he'
    rw [List.mem_singleton.mp he']
    exact h.counter
  · intro front e' back hsplit hthrottled hmoved
    cases front with
    | nil =>
        obtain rfl : e = e' := (List.cons.inj hsplit).1
        rw [(h.spent hthrottled hmoved).1]
        exact Nat.zero_le _
    | cons f front => simp at hsplit
  · intro hallow e' he'
    rw [List.mem_singleton.mp he']
    exact h.pinned hallow

theorem Rounds.cons {b' : Budgets} {log : List (Exchange V)}
    (h : RoundFacts call b e (.again b')) (hlog : Rounds call b' log) :
    Rounds call b (e :: log) := by
  obtain ⟨hleft, hkept, hescalates, hthrottle⟩ := h.again b' rfl
  refine ⟨lt_of_le_of_lt hlog.length hleft, ?_, ?_, ?_, ?_⟩
  · exact List.forall_mem_cons.mpr ⟨h.counter, hlog.counter⟩
  · -- after the escalation no 429 moves anything
    have honce := hlog.once
    cases hmove : e.throttled && e.moved with
    | false =>
        rw [List.filter_cons_of_neg (by rw [hmove]; decide)]
        cases hescalated : b.throttleEscalated with
        | false =>
            refine le_trans honce ?_
            cases b'.throttleEscalated <;> decide
        | true =>
            rw [hkept hescalated] at honce
            exact honce
    | true =>
        obtain ⟨hthrottled, hmoved⟩ := Bool.and_eq_true_iff.mp hmove
        rw [hescalates hthrottled hmoved] at honce
        rw [List.filter_cons_of_pos (p := fun e : Exchange V => e.throttled && e.moved) hmove,
          List.length_cons, Nat.le_zero.mp honce, (h.spent hthrottled hmoved).2]
        exact Nat.le_refl _
  · intro front e' back hsplit hthrottled hmoved
    cases front with
    | nil =>
        obtain rfl : e = e' := (List.cons.inj hsplit).1
        rw [(h.spent hthrottled hmoved).1]
        exact Nat.zero_le _
    | cons f front =>
        obtain rfl : e = f := (List.cons.inj hsplit).1
        have hspent := hlog.spent front e' back (List.cons.inj hsplit).2 hthrottled hmoved
        cases hfirst : e.throttled with
        | false =>
            rw [List.filter_cons_of_neg (by rw [hfirst]; decide)]
            rw [hfirst] at hthrottle
            exact le_trans hthrottle hspent
        | true =>
            rw [List.filter_cons_of_pos hfirst, List.length_cons]
            rw [hfirst] at hthrottle
            exact le_trans hthrottle (Nat.succ_le_succ hspent)
  · intro hallow
    exact List.forall_mem_cons.mpr ⟨h.pinned hallow, hlog.pinned hallow⟩

end Logs

section Specs

variable {V P : Type} (C : Client) (O : ValueOps V) (net : Nat → Request → Answer V)

theorem callLoop_spec (call : Call) (b : Budgets) (s : State V) : ∃ log : List (Exchange V),
    (callLoop C O net call b s).2.log = s.log ++ log ∧
    Chained s.shared log (callLoop C O net call b s).2.shared ∧ Rounds call b log := by
  induction hn : b.left using Nat.strongRecOn generalizing b s with
  | _ n ih =>
      rw [callLoop]
      split
      · rename_i b' s' hround
        obtain ⟨e, hfacts, hbefore, hafter, hlog⟩ := round_spec hround
        obtain ⟨log, hlater, hchained, hrounds⟩ := ih _ (hn ▸ round_left hround) b' s' rfl
        refine ⟨e :: log, ?_, ⟨hbefore, hafter ▸ hchained⟩, hrounds.cons hfacts⟩
        rw [hlater, hlog, List.append_assoc, List.singleton_append]
      · rename_i result s' hround
        obtain ⟨e, hfacts, hbefore, hafter, hlog⟩ := round_spec hround
        exact ⟨[e], hlog, ⟨hbefore, hafter⟩, .last hfacts⟩

/-- The requests one call makes at most. -/
def requestLimit (transportAttempts : Nat) : Nat :=
  usizePred transportAttempts + 1 + CAPABILITY_RETRIES + THROTTLE_RETRIES + (THROTTLE_RETRIES + 1)

theorem callAt_spec (call : Call) (s : State V) : ∃ log : List (Exchange V),
    (callAt C O net call s).2.log = s.log ++ log ∧
    Chained s.shared log (callAt C O net call s).2.shared ∧
    Rounds call (.start call.transportAttempts) log :=
  callLoop_spec C O net call _ s

/-- Requests that leave the active endpoint alone, at most a number of them. -/
structure Pinned (limit : Nat) (s s' : State V) (log : List (Exchange V)) : Prop where
  log_eq : s'.log = s.log ++ log
  chained : Chained s.shared log s'.shared
  length : log.length ≤ limit
  counter : ∀ e ∈ log, e.throttled = true →
    e.after.consecutiveFailures = e.before.consecutiveFailures
  pinned : ∀ e ∈ log, e.moved = false

theorem Pinned.append {n m : Nat} {s t u : State V} {log more : List (Exchange V)}
    (h : Pinned n s t log) (h' : Pinned m t u more) : Pinned (n + m) s u (log ++ more) where
  log_eq := by rw [h'.log_eq, h.log_eq, List.append_assoc]
  chained := h.chained.append h'.chained
  length := by
    rw [List.length_append]
    exact Nat.add_le_add h.length h'.length
  counter := List.forall_mem_append.mpr ⟨h.counter, h'.counter⟩
  pinned := List.forall_mem_append.mpr ⟨h.pinned, h'.pinned⟩

theorem Pinned.le {n m : Nat} {s s' : State V} {log : List (Exchange V)} (h : Pinned n s s' log)
    (hle : n ≤ m) : Pinned m s s' log :=
  { h with length := le_trans h.length hle }

/-- What the counts of proofs do to a state is not in the log. -/
theorem Pinned.caps {n : Nat} {s t u : State V} {log : List (Exchange V)} (h : Pinned n s t log)
    (hlog : u.log = t.log) (hshared : u.shared = t.shared) : Pinned n s u log :=
  { h with
    log_eq := hlog.trans h.log_eq
    chained := hshared ▸ h.chained }

theorem pinned_callAt (call : Call) (h : call.allowFailover = false) (s : State V) :
    ∃ log, Pinned (requestLimit call.transportAttempts) s (callAt C O net call s).2 log := by
  obtain ⟨log, hlog, hchained, hrounds⟩ := callAt_spec C O net call s
  exact ⟨log, hlog, hchained, hrounds.length, hrounds.counter, hrounds.pinned h⟩

variable (decode : V → Except String P)

/-- The requests for a proof at one endpoint, after some refusals. -/
def turnLimit (refusals : Nat) : Nat :=
  (PROOF_RETRIES - refusals) * requestLimit PROOF_TRANSPORT_ATTEMPTS

theorem pinned_proofLoop (params : Json) (idx refusals : Nat) (s : State V)
    (h : refusals < PROOF_RETRIES) : ∃ log,
    Pinned (turnLimit refusals) s (proofLoop C O net decode params idx refusals s).2 log := by
  induction hn : PROOF_RETRIES - refusals generalizing refusals s with
  | zero => omega
  | succ n ih =>
      have hone : requestLimit PROOF_TRANSPORT_ATTEMPTS ≤ turnLimit refusals := by
        rw [turnLimit, hn]
        exact Nat.le_mul_of_pos_left _ (Nat.succ_pos n)
      rw [proofLoop]
      split
      · rename_i raw s' hcall
        obtain ⟨log, hpinned⟩ := pinned_callAt C O net
          ⟨idx, "starknet_getStorageProof", params, false, PROOF_TRANSPORT_ATTEMPTS⟩ rfl s
        rw [hcall] at hpinned
        split
        · exact ⟨log, (hpinned.le hone).caps rfl rfl⟩
        · exact ⟨log, hpinned.le hone⟩
      · rename_i e s' hcall
        obtain ⟨log, hpinned⟩ := pinned_callAt C O net
          ⟨idx, "starknet_getStorageProof", params, false, PROOF_TRANSPORT_ATTEMPTS⟩ rfl s
        rw [hcall] at hpinned
        split
        · split
          · exact ⟨log, (hpinned.le hone).caps rfl rfl⟩
          · rename_i hmore
            obtain ⟨more, hlater⟩ := ih (refusals + 1) (denied s' idx) (by omega) (by omega)
            have hdenied : Pinned (requestLimit PROOF_TRANSPORT_ATTEMPTS) s (denied s' idx) log :=
              hpinned.caps rfl rfl
            refine ⟨log ++ more, (hdenied.append hlater).le ?_⟩
            have hrest : PROOF_RETRIES - (refusals + 1) = n := by omega
            rw [turnLimit, turnLimit, hrest, hn, Nat.succ_mul, Nat.add_comm]
        · split
          · exact ⟨log, hpinned.le hone⟩
          · exact ⟨log, hpinned.le hone⟩

theorem pinned_proofTurns (params : Json) (order : List Nat) : ∀ (last : Option Trail)
    (s : State V), ∃ log, Pinned (order.length * turnLimit 0) s
      (proofTurns C O net decode params order last s).2 log := by
  induction order with
  | nil =>
      intro last s
      exact ⟨[], ⟨by rw [List.append_nil]; rfl, rfl, Nat.zero_le _, by simp, by simp⟩⟩
  | cons idx order ih =>
      intro last s
      obtain ⟨log, hpinned⟩ := pinned_proofLoop C O net decode params idx 0 s (by decide)
      rw [proofTurns, List.length_cons, Nat.succ_mul, Nat.add_comm]
      split
      · rename_i result s' hloop
        rw [hloop] at hpinned
        exact ⟨log, hpinned.le (Nat.le_add_right _ _)⟩
      · rename_i e s' hloop
        rw [hloop] at hpinned
        obtain ⟨more, hlater⟩ := ih (some e) s'
        exact ⟨log ++ more, hpinned.append hlater⟩

theorem length_proofOrder (s : State V) : (proofOrder C s).length = C.endpoints.length := by
  rw [proofOrder, List.length_mergeSort, List.length_range]

/-- A call asks twice at most: the active endpoint, and the next one for pruned history. -/
theorem call_spec (method : String) (params : Json) (s : State V) : ∃ log : List (Exchange V),
    (Calls.call C O net method params s).2.log = s.log ++ log ∧
    log.length ≤ 2 * requestLimit TRANSPORT_ATTEMPTS := by
  obtain ⟨log, hlog, -, hrounds⟩ := callAt_spec C O net
    ⟨C.activeIndex s, method, params, true, TRANSPORT_ATTEMPTS⟩ s
  have hlength : log.length ≤ requestLimit TRANSPORT_ATTEMPTS := hrounds.length
  rw [Calls.call]
  split
  rename_i result s' hcall
  rw [hcall] at hlog
  split
  · split
    · obtain ⟨more, hmore, -, hrounds'⟩ := callAt_spec C O net
        ⟨(C.activeIndex s' + 1) % C.endpoints.length, method, params, false,
          TRANSPORT_ATTEMPTS⟩ s'
      refine ⟨log ++ more, by rw [hmore, hlog, List.append_assoc], ?_⟩
      rw [List.length_append, Nat.two_mul]
      exact Nat.add_le_add hlength hrounds'.length
    · exact ⟨log, hlog, le_trans hlength (Nat.le_mul_of_pos_left _ (by decide))⟩
  · exact ⟨log, hlog, le_trans hlength (Nat.le_mul_of_pos_left _ (by decide))⟩

/-- **Retries are bounded and isolated**, whatever is answered. A call to an endpoint makes no
more requests than its budgets hold, a call of a method no more than two of these, a storage
proof no more than that for each refusal of each endpoint. A 429 never touches the failure
counter, and moves the active endpoint at most once in a call,
after the budget of 429s is spent. Without failover the active endpoint stays. -/
theorem retries_bounded :
    (∀ (call : Call) (s : State V), ∃ log : List (Exchange V),
      (callAt C O net call s).2.log = s.log ++ log ∧
      Chained s.shared log (callAt C O net call s).2.shared ∧
      log.length ≤ requestLimit call.transportAttempts ∧
      (∀ e ∈ log, e.throttled = true →
        e.after.consecutiveFailures = e.before.consecutiveFailures) ∧
      (log.filter fun e => e.throttled && e.moved).length ≤ 1 ∧
      (∀ front e back, log = front ++ e :: back → e.throttled = true → e.moved = true →
        THROTTLE_RETRIES ≤ (front.filter Exchange.throttled).length) ∧
      (call.allowFailover = false → (∀ e ∈ log, e.moved = false) ∧
        (callAt C O net call s).2.shared.active = s.shared.active)) ∧
    (∀ (method : String) (params : Json) (s : State V), ∃ log : List (Exchange V),
      (Calls.call C O net method params s).2.log = s.log ++ log ∧
      log.length ≤ 2 * requestLimit TRANSPORT_ATTEMPTS) ∧
    (∀ (r : BlockRef) (contract : Felt) (keys : List Felt) (s : State V),
      ∃ log : List (Exchange V),
        Pinned (C.endpoints.length * (PROOF_RETRIES * requestLimit PROOF_TRANSPORT_ATTEMPTS)) s
          (getStorageProof C O net decode r contract keys s).2 log ∧
        (getStorageProof C O net decode r contract keys s).2.shared.active = s.shared.active) := by
  refine ⟨?_, call_spec C O net, ?_⟩
  · intro call s
    obtain ⟨log, hlog, hchained, hrounds⟩ := callAt_spec C O net call s
    refine ⟨log, hlog, hchained, hrounds.length, hrounds.counter, hrounds.once, hrounds.spent, ?_⟩
    intro hallow
    exact ⟨hrounds.pinned hallow, hchained.active (hrounds.pinned hallow)⟩
  · intro r contract keys s
    obtain ⟨log, hpinned⟩ := pinned_proofTurns C O net decode (proofParams r contract keys)
      (proofOrder C s) none s
    rw [length_proofOrder] at hpinned
    exact ⟨log, hpinned, hpinned.chained.active hpinned.pinned⟩

end Specs

end Strk20.Indexer.Calls
