import Csc512.Lib.ObservedSystem
import Mathlib.Data.Option.Basic

/-!
# The simulated network

`labrpc` carries out a call in three threads: the caller, which waits in `Call`; `processReq`, which
looks up the route, may drop the request or the reply, and gives up when the server is deleted; and
the thread that runs the handler and hands its reply to `processReq`, whether or not that still
waits for it. This module is the network with any number of calls, each one step of one of its
threads at a time.

Delays are left out: a step may happen at any later moment. So are `longDelays` and
`longReordering`, which only choose delays, and the encoding of arguments and replies.

## Main definitions

* `Request.move` — the steps of `Call` and `processReq`
* `World.step` — one step of a call, a run of a handler, or a change of the network

## Main results

* `Request.Coherent.move` — in what order the threads of a call come
* `World.Step.of_step` — the kinds of steps
-/

namespace Csc512

namespace Rpc

/-! ### The network -/

/-- What the network knows: its end-points, which of them are enabled, to which server each is
connected, and the servers by name. -/
structure Network (E N V : Type) where
  reliable : Bool := true
  ends : E → Bool := fun _ => false
  enabled : E → Bool := fun _ => false
  connections : E → Option N := fun _ => none
  servers : N → Option V := fun _ => none
  /-- `Cleanup` has closed `done`. -/
  closed : Bool := false
  /-- The goroutine that takes requests has returned. -/
  stopped : Bool := false

section Network

variable {E N V : Type}

/-- Where a request goes, and whether it may get lost. -/
structure Route (N V : Type) where
  servername : N
  server : V
  reliable : Bool
  deriving DecidableEq

/-- `readEndnameInfo`, and the test of `processReq` of what it returns. -/
def Network.readEndnameInfo (net : Network E N V) (endname : E) : Option (Route N V) :=
  if net.enabled endname then
    (net.connections endname).bind fun servername =>
      (net.servers servername).map fun server => ⟨servername, server, net.reliable⟩
  else none

/-- `isServerDead`. -/
def Network.isServerDead [DecidableEq V] (net : Network E N V) (endname : E) (route : Route N V) :
    Bool :=
  net.enabled endname = false || net.servers route.servername ≠ some route.server

/-- Changes of the network. -/
inductive Change (E N V : Type) where
  | makeEnd (endname : E)
  | deleteEnd (endname : E)
  | addServer (servername : N) (server : V)
  | deleteServer (servername : N)
  | connect (endname : E) (servername : N)
  | enable (endname : E) (enabled : Bool)
  | reliable (yes : Bool)
  | cleanup
  | stop
  deriving DecidableEq

variable [DecidableEq E] [DecidableEq N]

/-- The network after a change. Making an end-point that there is, and deleting one that there is
not, ends the program. -/
def Network.change (net : Network E N V) : Change E N V → Option (Network E N V)
  | .makeEnd e =>
    if net.ends e then none
    else some { net with
      ends := Function.update net.ends e true
      enabled := Function.update net.enabled e false
      connections := Function.update net.connections e none }
  | .deleteEnd e =>
    if net.ends e then some { net with
      ends := Function.update net.ends e false
      enabled := Function.update net.enabled e false
      connections := Function.update net.connections e none }
    else none
  | .addServer name server =>
    some { net with servers := Function.update net.servers name (some server) }
  | .deleteServer name => some { net with servers := Function.update net.servers name none }
  | .connect e name =>
    some { net with connections := Function.update net.connections e (some name) }
  | .enable e enabled => some { net with enabled := Function.update net.enabled e enabled }
  | .reliable yes => some { net with reliable := yes }
  | .cleanup => if net.closed then none else some { net with closed := true }
  -- the goroutine returns once `done` is closed
  | .stop => if net.closed then some { net with stopped := true } else none

end Network

/-! ### Calls -/

/-- How far `Call` and `processReq` have come. A reply of `none` is `replyMsg{false, nil}`. -/
inductive Stage (N V A : Type) where
  | sending
  | taken
  | unreachable
  | admitted (route : Route N V)
  | waiting (route : Route N V)
  | collected (route : Route N V) (reply : A)
  | answering (reply : Option A)
  | returned (reply : Option A)

/-- The thread that runs the handler. -/
inductive Handler (N V A : Type) where
  | idle
  | running (route : Route N V)
  | finished (reply : A)

/-- A call. -/
structure Request (E N V Q A : Type) where
  endname : E
  args : Q
  stage : Stage N V A := .sending
  handler : Handler N V A := .idle

/-- The steps of `Call` and `processReq`. -/
inductive Move where
  | take
  | refuse
  | read
  | dropRequest
  | dispatch
  | collect
  | abandon
  | answer
  | dropReply
  | timeUp
  | return
  deriving DecidableEq

section Request

variable {E N V Q A : Type} [DecidableEq V]

/-- One step of `Call` or `processReq`, if it is the next one. -/
def Request.move (net : Network E N V) (r : Request E N V Q A) :
    Move → Option (Request E N V Q A)
  | .take =>
    match r.stage with
    | .sending => if net.stopped then none else some { r with stage := .taken }
    | _ => none
  | .refuse =>
    match r.stage with
    | .sending => if net.closed then some { r with stage := .returned none } else none
    | _ => none
  | .read =>
    match r.stage with
    | .taken => some { r with
        stage := (net.readEndnameInfo r.endname).elim .unreachable .admitted }
    | _ => none
  | .dropRequest =>
    match r.stage with
    | .admitted route => if route.reliable then none else some { r with stage := .answering none }
    | _ => none
  | .dispatch =>
    match r.stage with
    | .admitted route => some { r with stage := .waiting route, handler := .running route }
    | _ => none
  | .collect =>
    match r.stage, r.handler with
    | .waiting route, .finished reply => some { r with stage := .collected route reply }
    | _, _ => none
  | .abandon =>
    match r.stage with
    | .waiting route =>
      if net.isServerDead r.endname route then some { r with stage := .answering none } else none
    | _ => none
  | .answer =>
    match r.stage with
    | .collected route reply => some { r with
        stage := .answering (if net.isServerDead r.endname route then none else some reply) }
    | _ => none
  | .dropReply =>
    match r.stage with
    | .collected route _ =>
      if route.reliable then none else some { r with stage := .answering none }
    | _ => none
  | .timeUp =>
    match r.stage with
    | .unreachable => some { r with stage := .answering none }
    | _ => none
  | .return =>
    match r.stage with
    | .answering reply => some { r with stage := .returned reply }
    | _ => none

/-- The steps that are possible, one constructor for each, with what it found. -/
inductive Request.Moves (net : Network E N V) (r : Request E N V Q A) :
    Move → Request E N V Q A → Prop
  | take (hstage : r.stage = .sending) (hrun : net.stopped = false) :
      Moves net r .take { r with stage := .taken }
  | refuse (hstage : r.stage = .sending) (hclosed : net.closed = true) :
      Moves net r .refuse { r with stage := .returned none }
  | unreachable (hstage : r.stage = .taken) (hroute : net.readEndnameInfo r.endname = none) :
      Moves net r .read { r with stage := .unreachable }
  | accept {route : Route N V} (hstage : r.stage = .taken)
      (hroute : net.readEndnameInfo r.endname = some route) :
      Moves net r .read { r with stage := .admitted route }
  | dropRequest {route : Route N V} (hstage : r.stage = .admitted route) :
      Moves net r .dropRequest { r with stage := .answering none }
  | dispatch {route : Route N V} (hstage : r.stage = .admitted route) :
      Moves net r .dispatch { r with stage := .waiting route, handler := .running route }
  | collect {route : Route N V} {reply : A} (hstage : r.stage = .waiting route)
      (hhandler : r.handler = .finished reply) :
      Moves net r .collect { r with stage := .collected route reply }
  | abandon {route : Route N V} (hstage : r.stage = .waiting route)
      (hdead : net.isServerDead r.endname route = true) :
      Moves net r .abandon { r with stage := .answering none }
  | answerNone {route : Route N V} {reply : A} (hstage : r.stage = .collected route reply)
      (hdead : net.isServerDead r.endname route = true) :
      Moves net r .answer { r with stage := .answering none }
  | answer {route : Route N V} {reply : A} (hstage : r.stage = .collected route reply)
      (hdead : net.isServerDead r.endname route = false) :
      Moves net r .answer { r with stage := .answering (some reply) }
  | dropReply {route : Route N V} {reply : A} (hstage : r.stage = .collected route reply) :
      Moves net r .dropReply { r with stage := .answering none }
  | timeUp (hstage : r.stage = .unreachable) :
      Moves net r .timeUp { r with stage := .answering none }
  | return {reply : Option A} (hstage : r.stage = .answering reply) :
      Moves net r .return { r with stage := .returned reply }

/-- Every step is one of those above. -/
theorem Request.Moves.of_move {net : Network E N V} {r r' : Request E N V Q A} {m : Move}
    (h : r.move net m = some r') : r.Moves net m r' := by
  cases m with
  | take =>
    simp only [move] at h
    split at h
    · rename_i hstage
      split at h
      · cases h
      · rename_i hrun
        cases h
        exact .take hstage (Bool.eq_false_iff.mpr hrun)
    · cases h
  | refuse =>
    simp only [move] at h
    split at h
    · rename_i hstage
      split at h
      · rename_i hclosed
        cases h
        exact .refuse hstage hclosed
      · cases h
    · cases h
  | read =>
    simp only [move] at h
    split at h
    · rename_i hstage
      cases h
      cases hroute : net.readEndnameInfo r.endname with
      | none => exact .unreachable hstage hroute
      | some route => exact .accept hstage hroute
    · cases h
  | dropRequest =>
    simp only [move] at h
    split at h
    · rename_i route hstage
      split at h
      · cases h
      · cases h
        exact .dropRequest hstage
    · cases h
  | dispatch =>
    simp only [move] at h
    split at h
    · rename_i route hstage
      cases h
      exact .dispatch hstage
    · cases h
  | collect =>
    simp only [move] at h
    split at h
    · rename_i route reply hstage hhandler
      cases h
      exact .collect hstage hhandler
    · cases h
  | abandon =>
    simp only [move] at h
    split at h
    · rename_i route hstage
      split at h
      · rename_i hdead
        cases h
        exact .abandon hstage hdead
      · cases h
    · cases h
  | answer =>
    simp only [move] at h
    split at h
    · rename_i route reply hstage
      cases h
      cases hdead : net.isServerDead r.endname route with
      | true => exact .answerNone hstage hdead
      | false => exact .answer hstage hdead
    · cases h
  | dropReply =>
    simp only [move] at h
    split at h
    · rename_i route reply hstage
      split at h
      · cases h
      · cases h
        exact .dropReply hstage
    · cases h
  | timeUp =>
    simp only [move] at h
    split at h
    · rename_i hstage
      cases h
      exact .timeUp hstage
    · cases h
  | «return» =>
    simp only [move] at h
    split at h
    · rename_i reply hstage
      cases h
      exact .return hstage
    · cases h

/-- The handler's thread and `processReq` are where they can be at one time: the handler is started
with the route, waited for, and what is handed on is its reply. -/
inductive Request.Coherent (r : Request E N V Q A) : Prop
  | before (hhandler : r.handler = .idle) (hstage : r.stage = .sending ∨ r.stage = .taken ∨
      r.stage = .unreachable ∨ ∃ route, r.stage = .admitted route)
  | running {route : Route N V} (hhandler : r.handler = .running route)
      (hstage : r.stage = .waiting route)
  | finished {route : Route N V} {reply : A} (hhandler : r.handler = .finished reply)
      (hstage : r.stage = .waiting route ∨ r.stage = .collected route reply)
  | answered {reply : A} (hhandler : r.handler = .finished reply)
      (hstage : r.stage = .answering (some reply) ∨ r.stage = .returned (some reply))
  | lost (hstage : r.stage = .answering none ∨ r.stage = .returned none)

theorem Request.Coherent.move {net : Network E N V} {r r' : Request E N V Q A} {m : Move}
    (h : r.Coherent) (hmove : r.Moves net m r') : r'.Coherent := by
  cases hmove with
  | take hstage _ | unreachable hstage _ | accept hstage _ =>
    cases h with
    | before hhandler => exact .before hhandler (by simp)
    | _ => simp_all
  | refuse => exact .lost (.inr rfl)
  | dropRequest | abandon | answerNone | dropReply | timeUp => exact .lost (.inl rfl)
  | dispatch => exact .running rfl rfl
  | collect hstage hhandler => exact .finished hhandler (.inr rfl)
  | @answer route reply hstage _ =>
    cases h with
    | finished hhandler hstage' =>
      rw [hstage] at hstage'
      simp only [reduceCtorEq, Stage.collected.injEq, false_or] at hstage'
      obtain ⟨rfl, rfl⟩ := hstage'
      exact .answered hhandler (.inl rfl)
    | _ => simp_all
  | @«return» reply hstage =>
    cases h with
    | answered hhandler hstage' =>
      rw [hstage] at hstage'
      simp only [reduceCtorEq, Stage.answering.injEq, or_false] at hstage'
      subst hstage'
      exact .answered hhandler (.inr rfl)
    | lost hstage' =>
      rw [hstage] at hstage'
      simp only [reduceCtorEq, Stage.answering.injEq, or_false] at hstage'
      subst hstage'
      exact .lost (.inr rfl)
    | _ => simp_all

end Request

/-! ### Any number of calls -/

/-- The network, the calls, in the order in which they were made, and what the handlers work on. -/
structure World (E N V Q A σ : Type) where
  net : Network E N V := {}
  app : σ
  requests : List (Request E N V Q A) := []

/-- A call is made, a thread of a call takes a step, a handler runs, or the network changes. Calls
are named by their positions. -/
inductive Action (E N V Q : Type) where
  | call (endname : E) (args : Q)
  | move (k : ℕ) (m : Move)
  | handle (k : ℕ)
  | change (op : Change E N V)
  deriving DecidableEq

/-- What is seen of a run: a server's handler has run, where `registered` says if the network still
knew the server, and a call has returned. -/
inductive Event (V A : Type) where
  | handled (k : ℕ) (server : V) (registered : Bool) (reply : A)
  | returned (k : ℕ) (reply : Option A)

section World

variable {E N V Q A σ : Type} [DecidableEq E] [DecidableEq N] [DecidableEq V]
  (dispatch : V → Q → σ → σ × A)

def World.setRequest (w : World E N V Q A σ) (k : ℕ) (r : Request E N V Q A) :
    World E N V Q A σ :=
  { w with requests := w.requests.set k r }

/-- One step. Handlers lock their server, so a run of one is one step. -/
def World.step (w : World E N V Q A σ) : Action E N V Q → Option (World E N V Q A σ)
  | .call endname args => some { w with requests := w.requests ++ [{ endname, args }] }
  | .move k m =>
    w.requests[k]?.bind fun r => (r.move w.net m).map (w.setRequest k)
  | .handle k =>
    match w.requests[k]? with
    | none => none
    | some r =>
      match r.handler with
      | .running route =>
        let (app, reply) := dispatch route.server r.args w.app
        some { w.setRequest k { r with handler := .finished reply } with app }
      | _ => none
  | .change op => (w.net.change op).map fun net => { w with net }

/-- The events of a step. -/
def World.events (w : World E N V Q A σ) : Action E N V Q → List (Event V A)
  | .move k m =>
    match w.requests[k]?.bind fun r => (r.move w.net m).map Request.stage with
    | some (.returned reply) => [.returned k reply]
    | _ => []
  | .handle k =>
    match w.requests[k]? with
    | none => []
    | some r =>
      match r.handler with
      | .running route =>
        [.handled k route.server (w.net.servers route.servername = some route.server)
          (dispatch route.server r.args w.app).2]
      | _ => []
  | _ => []

/-- The network, observed through its events. -/
def World.system : ObservedSystem (World E N V Q A σ) (Action E N V Q) (Event V A) where
  step := World.step dispatch
  observe := World.events dispatch

variable {dispatch}

/-- The steps that are possible, with their events. -/
inductive World.Step (dispatch : V → Q → σ → σ × A) (w : World E N V Q A σ) :
    Action E N V Q → List (Event V A) → World E N V Q A σ → Prop
  | call (endname : E) (args : Q) :
      Step dispatch w (.call endname args) []
        { w with requests := w.requests ++ [{ endname, args }] }
  | move {k : ℕ} {m : Move} {r r' : Request E N V Q A} (hk : w.requests[k]? = some r)
      (hmove : r.Moves w.net m r') (hstage : ∀ reply, r'.stage ≠ .returned reply) :
      Step dispatch w (.move k m) [] (w.setRequest k r')
  | return {k : ℕ} {m : Move} {r r' : Request E N V Q A} {reply : Option A}
      (hk : w.requests[k]? = some r) (hmove : r.Moves w.net m r')
      (hstage : r'.stage = .returned reply) :
      Step dispatch w (.move k m) [.returned k reply] (w.setRequest k r')
  | handle {k : ℕ} {r : Request E N V Q A} {route : Route N V} (hk : w.requests[k]? = some r)
      (hhandler : r.handler = .running route) :
      Step dispatch w (.handle k)
        [.handled k route.server (w.net.servers route.servername = some route.server)
          (dispatch route.server r.args w.app).2]
        { w.setRequest k { r with handler := .finished (dispatch route.server r.args w.app).2 } with
          app := (dispatch route.server r.args w.app).1 }
  | change {op : Change E N V} {net : Network E N V} (hnet : w.net.change op = some net) :
      Step dispatch w (.change op) [] { w with net }

theorem World.Step.of_step {w w' : World E N V Q A σ} {a : Action E N V Q}
    (h : w.step dispatch a = some w') : World.Step dispatch w a (w.events dispatch a) w' := by
  cases a with
  | call endname args =>
    cases h
    exact .call endname args
  | move k m =>
    obtain ⟨r, hk, hr⟩ := Option.bind_eq_some_iff.mp h
    obtain ⟨r', hmove, rfl⟩ := Option.map_eq_some_iff.mp hr
    simp only [events, hk, Option.bind_some, hmove, Option.map_some]
    split
    · rename_i reply hstage
      exact .return hk (.of_move hmove) (Option.some.inj hstage)
    · rename_i hstage
      exact .move hk (.of_move hmove) fun reply heq => hstage reply (congrArg some heq)
  | handle k =>
    simp only [step] at h
    split at h
    · cases h
    · rename_i r hk
      split at h
      · rename_i route hhandler
        cases h
        simp only [events, hk, hhandler]
        exact .handle hk hhandler
      · cases h
  | change op =>
    obtain ⟨net, hnet, rfl⟩ := Option.map_eq_some_iff.mp h
    exact .change hnet

end World

end Rpc

end Csc512
