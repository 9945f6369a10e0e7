import Csc512.Raft.Rpc
import Mathlib.Data.Fintype.Basic

/-!
# At most once

What a caller of `labrpc` may rely on, whatever the network does: a handler runs at most once for a
call, a call returns at most once, and `true` comes with the reply of the handler, from a server
that the network still knew after the handler had run. Every call can return.

## Main results

* `atMostOnce` — runs of handlers and returns of calls
* `returned_none_of_deleted` — no reply from a server that was deleted before its handler ran
* `exists_returned` — no call hangs
-/

namespace Csc512

namespace Rpc

variable {E N V Q A σ : Type}

/-! ### What is recorded of a call -/

/-- The runs of the handler of a call. -/
def handledOf (k : ℕ) (events : List (Event V A)) : List (V × Bool × A) :=
  events.filterMap fun
    | .handled k' server registered reply =>
      if k' = k then some (server, registered, reply) else none
    | .returned _ _ => none

/-- The results of a call. -/
def returnedOf (k : ℕ) (events : List (Event V A)) : List (Option A) :=
  events.filterMap fun
    | .handled _ _ _ _ => none
    | .returned k' reply => if k' = k then some reply else none

@[simp] theorem handledOf_append (k : ℕ) (es es' : List (Event V A)) :
    handledOf k (es ++ es') = handledOf k es ++ handledOf k es' :=
  List.filterMap_append

@[simp] theorem returnedOf_append (k : ℕ) (es es' : List (Event V A)) :
    returnedOf k (es ++ es') = returnedOf k es ++ returnedOf k es' :=
  List.filterMap_append

@[simp] theorem handledOf_nil (k : ℕ) : handledOf k ([] : List (Event V A)) = [] := rfl

@[simp] theorem returnedOf_nil (k : ℕ) : returnedOf k ([] : List (Event V A)) = [] := rfl

@[simp] theorem handledOf_handled (k k' : ℕ) (server : V) (registered : Bool) (reply : A) :
    handledOf k [.handled k' server registered reply] =
      if k' = k then [(server, registered, reply)] else [] := by
  by_cases h : k' = k <;> simp [handledOf, h]

@[simp] theorem handledOf_returned (k k' : ℕ) (reply : Option A) :
    handledOf k ([.returned k' reply] : List (Event V A)) = [] := rfl

@[simp] theorem returnedOf_returned (k k' : ℕ) (reply : Option A) :
    returnedOf k ([.returned k' reply] : List (Event V A)) = if k' = k then [reply] else [] := by
  by_cases h : k' = k <;> simp [returnedOf, h]

@[simp] theorem returnedOf_handled (k k' : ℕ) (server : V) (registered : Bool) (reply : A) :
    returnedOf k [.handled k' server registered reply] = [] := rfl

/-- The record agrees with the call. -/
structure Told (k : ℕ) (es : List (Event V A)) (r : Request E N V Q A) : Prop where
  ran : ∀ reply, r.handler = .finished reply →
    ∃ server registered, handledOf k es = [(server, registered, reply)]
  notRun : (∀ reply, r.handler ≠ .finished reply) → handledOf k es = []
  ended : ∀ reply, r.stage = .returned reply → returnedOf k es = [reply]
  notEnded : (∀ reply, r.stage ≠ .returned reply) → returnedOf k es = []

/-- Every call is told as it is, and none that was not made. -/
structure Recorded (es : List (Event V A)) (w : World E N V Q A σ) : Prop where
  coherent : ∀ (k : ℕ) (r : Request E N V Q A), w.requests[k]? = some r → r.Coherent
  told : ∀ (k : ℕ) (r : Request E N V Q A), w.requests[k]? = some r → Told k es r
  later : ∀ k, w.requests.length ≤ k → handledOf k es = [] ∧ returnedOf k es = []
  stopped : w.net.stopped = true → w.net.closed = true

theorem recorded_init (app : σ) : Recorded [] ({ app } : World E N V Q A σ) where
  coherent _ _ h := by cases h
  told _ _ h := by cases h
  later _ _ := ⟨rfl, rfl⟩
  stopped h := by cases h

/-! ### Steps -/

theorem getElem?_concat_cases {α : Type} {l : List α} {x y : α} {k : ℕ}
    (h : (l ++ [x])[k]? = some y) : l[k]? = some y ∨ k = l.length ∧ y = x := by
  rw [List.getElem?_append] at h
  split at h
  · exact .inl h
  · have hzero : k - l.length = 0 := by
      by_contra hne
      rw [List.getElem?_eq_none (by simp; omega)] at h
      cases h
    rw [hzero] at h
    exact .inr ⟨by omega, (Option.some.inj h).symm⟩

theorem getElem?_set_cases {α : Type} {l : List α} {x y : α} {k k' : ℕ}
    (h : (l.set k x)[k']? = some y) : k' = k ∧ y = x ∨ k' ≠ k ∧ l[k']? = some y := by
  have hlt : k' < l.length := by
    rw [← List.length_set (i := k) (a := x)]
    exact (List.getElem?_eq_some_iff.mp h).1
  by_cases heq : k' = k
  · subst heq
    rw [List.getElem?_set_self hlt] at h
    exact .inl ⟨rfl, (Option.some.inj h).symm⟩
  · rw [List.getElem?_set_ne (Ne.symm heq)] at h
    exact .inr ⟨heq, h⟩

section Step

variable [DecidableEq V] {net : Network E N V} {r r' : Request E N V Q A} {m : Move}

/-- A call that has returned takes no step. -/
theorem Request.Moves.not_returned (h : r.Moves net m r') (reply : Option A) :
    r.stage ≠ .returned reply := by
  cases h <;> rename_i hstage _ <;> simp_all

/-- Only the handler's own thread ends it. -/
theorem Request.Moves.finished_iff (h : r.Moves net m r') (hr : r.Coherent) (reply : A) :
    r'.handler = .finished reply ↔ r.handler = .finished reply := by
  cases h with
  | dispatch hstage => cases hr <;> simp_all
  | _ => exact Iff.rfl

omit [DecidableEq V] in
/-- A call that returned `true` returned what its handler replied. -/
theorem Request.Coherent.ran_of_returned (h : r.Coherent) {reply : A}
    (hstage : r.stage = .returned (some reply)) : r.handler = .finished reply := by
  cases h with
  | answered hhandler hstage' =>
    rw [hstage] at hstage'
    simp only [reduceCtorEq, Stage.returned.injEq, Option.some.injEq, false_or] at hstage'
    rw [hhandler, hstage']
  | _ => simp_all

omit [DecidableEq V] in
/-- The handler ends. -/
theorem Request.Coherent.handle {route : Route N V} (h : r.Coherent)
    (hhandler : r.handler = .running route) (reply : A) :
    ({ r with handler := .finished reply } : Request E N V Q A).Coherent := by
  cases h with
  | running hhandler' hstage =>
    rw [hhandler] at hhandler'
    cases hhandler'
    exact .finished rfl (.inl hstage)
  | lost hstage => exact .lost hstage
  | _ => simp_all

variable {es : List (Event V A)} {k : ℕ}

theorem Told.move (h : Told k es r) (hr : r.Coherent) (hmove : r.Moves net m r')
    (hstage : ∀ reply, r'.stage ≠ .returned reply) : Told k es r' where
  ran reply hran := h.ran reply ((hmove.finished_iff hr reply).mp hran)
  notRun hnot := h.notRun fun reply hran => hnot reply ((hmove.finished_iff hr reply).mpr hran)
  ended reply hended := absurd hended (hstage reply)
  notEnded _ := h.notEnded hmove.not_returned

theorem Told.return (h : Told k es r) (hr : r.Coherent) (hmove : r.Moves net m r')
    {reply : Option A} (hstage : r'.stage = .returned reply) :
    Told k (es ++ [.returned k reply]) r' where
  ran reply hran := by
    obtain ⟨server, registered, heq⟩ := h.ran reply ((hmove.finished_iff hr reply).mp hran)
    exact ⟨server, registered, by simp [heq]⟩
  notRun hnot := by
    simpa using h.notRun fun reply hran => hnot reply ((hmove.finished_iff hr reply).mpr hran)
  ended reply' hended := by
    rw [hstage] at hended
    cases hended
    simp [h.notEnded hmove.not_returned]
  notEnded hnot := absurd hstage (hnot reply)

omit [DecidableEq V] in
theorem Told.handle (h : Told k es r) {route : Route N V} (hhandler : r.handler = .running route)
    (server : V) (registered : Bool) (reply : A) :
    Told k (es ++ [.handled k server registered reply]) { r with handler := .finished reply } where
  ran reply' hran := by
    cases hran
    have hnone := h.notRun fun reply hran => by
      rw [hhandler] at hran
      cases hran
    exact ⟨server, registered, by simp [hnone]⟩
  notRun hnot := absurd rfl (hnot reply)
  ended reply' hended := by simpa using h.ended reply' hended
  notEnded hnot := by simpa using h.notEnded hnot

omit [DecidableEq V] in
/-- Events of other calls do not matter. -/
theorem Told.other (h : Told k es r) {es' : List (Event V A)} (hhandled : handledOf k es' = [])
    (hreturned : returnedOf k es' = []) : Told k (es ++ es') r := by
  have hh : handledOf k (es ++ es') = handledOf k es := by simp [hhandled]
  have hr : returnedOf k (es ++ es') = returnedOf k es := by simp [hreturned]
  exact ⟨fun reply h' => hh ▸ h.ran reply h', fun h' => hh ▸ h.notRun h',
    fun reply h' => hr ▸ h.ended reply h', fun h' => hr ▸ h.notEnded h'⟩

end Step

section World

variable [DecidableEq E] [DecidableEq N] [DecidableEq V] {dispatch : V → Q → σ → σ × A}
  {es : List (Event V A)} {w : World E N V Q A σ}

omit [DecidableEq E] [DecidableEq N] [DecidableEq V] in
/-- One call is replaced, and only it is told more of. -/
theorem Recorded.setRequest (h : Recorded es w) {k : ℕ} {r : Request E N V Q A}
    {es' : List (Event V A)} {app : σ} (hk : k < w.requests.length) (hcoherent : r.Coherent)
    (htold : Told k (es ++ es') r)
    (hother : ∀ k', k' ≠ k → handledOf k' es' = [] ∧ returnedOf k' es' = []) :
    Recorded (es ++ es') { w.setRequest k r with app } := by
  refine ⟨fun k' r' hr' => ?_, fun k' r' hr' => ?_, fun k' hk' => ?_, h.stopped⟩
  · rcases getElem?_set_cases hr' with ⟨rfl, rfl⟩ | ⟨-, hold⟩
    · exact hcoherent
    · exact h.coherent k' r' hold
  · rcases getElem?_set_cases hr' with ⟨rfl, rfl⟩ | ⟨hne, hold⟩
    · exact htold
    · exact (h.told k' r' hold).other (hother k' hne).1 (hother k' hne).2
  · have hlen : w.requests.length ≤ k' := by simpa [World.setRequest] using hk'
    obtain ⟨hhandled, hreturned⟩ := h.later k' hlen
    obtain ⟨hhandled', hreturned'⟩ := hother k' (by omega)
    simp [hhandled, hreturned, hhandled', hreturned']

omit [DecidableEq E] [DecidableEq N] [DecidableEq V] in
/-- A new call is the last one. -/
theorem Recorded.call (h : Recorded es w) (endname : E) (args : Q) :
    Recorded es { w with requests := w.requests ++ [{ endname, args }] } := by
  refine ⟨fun k r hr => ?_, fun k r hr => ?_, fun k hk => h.later k ?_, h.stopped⟩
  · rcases getElem?_concat_cases hr with hold | ⟨-, rfl⟩
    · exact h.coherent k r hold
    · exact .before rfl (.inl rfl)
  · rcases getElem?_concat_cases hr with hold | ⟨rfl, rfl⟩
    · exact h.told k r hold
    · obtain ⟨hhandled, hreturned⟩ := h.later _ (Nat.le_refl _)
      exact ⟨fun _ hran => (by cases hran), fun _ => hhandled, fun _ hended => (by cases hended),
        fun _ => hreturned⟩
  · rw [List.length_append] at hk
    omega

omit [DecidableEq V] in
theorem Network.change_stopped {net net' : Network E N V} {op : Change E N V}
    (h : net.stopped = true → net.closed = true) (hop : net.change op = some net') :
    net'.stopped = true → net'.closed = true := by
  cases op <;> simp only [Network.change] at hop
  case makeEnd | deleteEnd | cleanup | stop =>
    split at hop <;> cases hop
    simp_all
  all_goals
    cases hop
    exact h

/-- **One step** of a thread, a handler or the network is told as it is. -/
theorem Recorded.step {w' : World E N V Q A σ} {a : Action E N V Q} (h : Recorded es w)
    (hstep : w.step dispatch a = some w') : Recorded (es ++ w.events dispatch a) w' := by
  have hcases := World.Step.of_step hstep
  generalize w.events dispatch a = es' at hcases ⊢
  cases hcases with
  | call endname args =>
    rw [List.append_nil]
    exact h.call endname args
  | @move k m r r' hk hmove hstage =>
    exact h.setRequest (List.getElem?_eq_some_iff.mp hk).1 ((h.coherent k r hk).move hmove)
      (by simpa using (h.told k r hk).move (h.coherent k r hk) hmove hstage)
      fun _ _ => ⟨rfl, rfl⟩
  | @«return» k m r r' reply hk hmove hstage =>
    exact h.setRequest (List.getElem?_eq_some_iff.mp hk).1 ((h.coherent k r hk).move hmove)
      ((h.told k r hk).return (h.coherent k r hk) hmove hstage)
      fun k' hne => ⟨by simp, by simp [Ne.symm hne]⟩
  | @handle k r route hk hhandler =>
    exact h.setRequest (List.getElem?_eq_some_iff.mp hk).1 ((h.coherent k r hk).handle hhandler _)
      ((h.told k r hk).handle hhandler _ _ _)
      fun k' hne => ⟨by simp [Ne.symm hne], by simp⟩
  | change hnet =>
    rw [List.append_nil]
    exact ⟨h.coherent, h.told, h.later, Network.change_stopped h.stopped hnet⟩

theorem recorded_of_steps {ok : World E N V Q A σ → Action E N V Q → Prop} {app : σ}
    (h : (World.system dispatch).Steps ok { app } es w) : Recorded es w :=
  h.invariant (recorded_init app) fun hI hstep _ => hI.step hstep

/-- **At most once.** Whatever the network does, the handler of a call runs at most once and the
call returns at most once, and a call that returns `true` has had its handler run, with the reply
it returns. -/
theorem atMostOnce {ok : World E N V Q A σ → Action E N V Q → Prop} {app : σ}
    (h : (World.system dispatch).Steps ok { app } es w) (k : ℕ) :
    (handledOf k es).length ≤ 1 ∧ (returnedOf k es).length ≤ 1 ∧
      ∀ reply, some reply ∈ returnedOf k es →
        ∃ server registered, handledOf k es = [(server, registered, reply)] := by
  have hrec := recorded_of_steps h
  rcases Nat.lt_or_ge k w.requests.length with hlt | hge
  · have hk : w.requests[k]? = some w.requests[k] := List.getElem?_eq_getElem hlt
    have htold := hrec.told k _ hk
    have hhandled : (handledOf k es).length ≤ 1 := by
      by_cases hran : ∃ reply, w.requests[k].handler = .finished reply
      · obtain ⟨reply, hran⟩ := hran
        obtain ⟨server, registered, heq⟩ := htold.ran reply hran
        simp [heq]
      · simp [htold.notRun fun reply hr => hran ⟨reply, hr⟩]
    by_cases hended : ∃ reply, w.requests[k].stage = .returned reply
    · obtain ⟨reply, hended⟩ := hended
      have hreturned := htold.ended reply hended
      refine ⟨hhandled, by simp [hreturned], fun reply' hmem => ?_⟩
      rw [hreturned, List.mem_singleton] at hmem
      subst hmem
      exact htold.ran reply' ((hrec.coherent k _ hk).ran_of_returned hended)
    · have hreturned := htold.notEnded fun reply hr => hended ⟨reply, hr⟩
      rw [hreturned]
      exact ⟨hhandled, by simp, fun _ hmem => absurd hmem List.not_mem_nil⟩
  · obtain ⟨hhandled, hreturned⟩ := hrec.later k hge
    rw [hhandled, hreturned]
    exact ⟨by simp, by simp, fun _ hmem => absurd hmem List.not_mem_nil⟩

/-- A server that adds what it is sent to a sum, and replies with the sum before. -/
def addTo (_server : Unit) (args sum : ℕ) : ℕ × ℕ := (sum + args, sum)

/-- The end-point is connected, and a call goes out on it. -/
def callActions : List (Action Unit Unit Unit ℕ) :=
  [.change (.makeEnd ()), .change (.addServer () ()), .change (.connect () ()),
    .change (.enable () true), .call () 5, .move 0 .take, .move 0 .read, .move 0 .dispatch]

/-- The handler runs, and its reply is waited for. -/
def answerActions : List (Action Unit Unit Unit ℕ) :=
  [.handle 0, .move 0 .collect, .move 0 .answer, .move 0 .return]

theorem atMostOnce_added :
    let run := ((World.system addTo).exec ObservedSystem.always { app := 7 }
      (callActions ++ answerActions)).get (by decide)
    (handledOf 0 run.1).length ≤ 1 ∧ (returnedOf 0 run.1).length ≤ 1 ∧
      ∀ reply, some reply ∈ returnedOf 0 run.1 →
        ∃ server registered, handledOf 0 run.1 = [(server, registered, reply)] :=
  atMostOnce (ObservedSystem.steps_get_exec (by decide)) 0

/-! ### Deleted servers -/

/-- The handler of this call ran, or runs, when the server was gone: `processReq` has not answered,
or has answered that the call failed. -/
inductive Request.Doomed (server : V) (r : Request E N V Q A) : Prop
  | waiting {route : Route N V} (hstage : r.stage = .waiting route)
    (hserver : route.server = server)
  | collected {route : Route N V} {reply : A} (hstage : r.stage = .collected route reply)
      (hserver : route.server = server)
  | lost (hstage : r.stage = .answering none ∨ r.stage = .returned none)

/-- No name stands for the server. -/
def Network.Gone (net : Network E N V) (server : V) : Prop := ∀ name, net.servers name ≠ some server

omit [DecidableEq E] [DecidableEq N] in
theorem Network.isServerDead_of_gone {net : Network E N V} {endname : E} {route : Route N V}
    (h : net.Gone route.server) : net.isServerDead endname route = true := by
  simp [isServerDead, h route.servername]

omit [DecidableEq E] [DecidableEq N] in
theorem Request.Doomed.move {net : Network E N V} {server : V} {r r' : Request E N V Q A} {m : Move}
    (h : r.Doomed server) (hgone : net.Gone server) (hmove : r.Moves net m r') :
    r'.Doomed server := by
  cases hmove with
  | @collect route reply hstage hhandler =>
    cases h with
    | waiting hstage' hserver =>
      rw [hstage] at hstage'
      cases hstage'
      exact .collected rfl hserver
    | _ => simp_all
  | @answer route reply hstage hdead =>
    cases h with
    | collected hstage' hserver =>
      rw [hstage] at hstage'
      cases hstage'
      subst hserver
      rw [Network.isServerDead_of_gone hgone] at hdead
      cases hdead
    | _ => simp_all
  | @«return» reply hstage =>
    cases h with
    | lost hstage' =>
      rw [hstage] at hstage'
      simp only [reduceCtorEq, Stage.answering.injEq, or_false] at hstage'
      subst hstage'
      exact .lost (.inr rfl)
    | _ => simp_all
  | refuse => exact .lost (.inr rfl)
  | dropRequest | abandon | answerNone | dropReply | timeUp => exact .lost (.inl rfl)
  | take hstage | unreachable hstage | accept hstage | dispatch hstage => cases h <;> simp_all

omit [DecidableEq E] [DecidableEq N] [DecidableEq V] in
theorem Request.Doomed.handle {server : V} {r : Request E N V Q A} (h : r.Doomed server)
    (reply : A) :
    ({ r with handler := .finished reply } : Request E N V Q A).Doomed server := by
  cases h with
  | waiting hstage hserver => exact .waiting hstage hserver
  | collected hstage hserver => exact .collected hstage hserver
  | lost hstage => exact .lost hstage

omit [DecidableEq E] [DecidableEq N] [DecidableEq V] in
theorem Request.Coherent.doomed {r : Request E N V Q A} {route : Route N V} (h : r.Coherent)
    (hhandler : r.handler = .running route) (reply : A) :
    ({ r with handler := .finished reply } : Request E N V Q A).Doomed route.server := by
  cases h with
  | running hhandler' hstage =>
    rw [hhandler] at hhandler'
    cases hhandler'
    exact .waiting hstage rfl
  | lost hstage => exact .lost hstage
  | _ => simp_all

/-- What holds of the calls whose handlers have run since the server is gone. -/
structure Abandoned (server : V) (es : List (Event V A)) (w : World E N V Q A σ) : Prop where
  gone : w.net.Gone server
  coherent : ∀ (k : ℕ) (r : Request E N V Q A), w.requests[k]? = some r → r.Coherent
  doomed : ∀ (k : ℕ) registered reply, (server, registered, reply) ∈ handledOf k es →
    ∃ r : Request E N V Q A, w.requests[k]? = some r ∧ r.Doomed server
  ended : ∀ (k : ℕ) result, result ∈ returnedOf k es →
    ∃ r : Request E N V Q A, w.requests[k]? = some r ∧ r.stage = .returned result

omit [DecidableEq V] in
theorem Network.Gone.change {net net' : Network E N V} {server : V} (h : net.Gone server)
    {op : Change E N V} (hop : net.change op = some net')
    (hadd : ∀ name, op ≠ .addServer name server) :
    net'.Gone server := by
  intro name hname
  cases op <;> simp only [Network.change] at hop
  case addServer name' server' =>
    cases hop
    by_cases heq : name = name'
    · subst heq
      simp only [Function.update_self, Option.some.injEq] at hname
      exact hadd name (by rw [hname])
    · simp only [Function.update_of_ne heq] at hname
      exact h name hname
  case deleteServer name' =>
    cases hop
    by_cases heq : name = name'
    · subst heq
      simp at hname
    · simp only [Function.update_of_ne heq] at hname
      exact h name hname
  case makeEnd | deleteEnd | cleanup | stop =>
    split at hop <;> cases hop
    exact h name hname
  all_goals
    cases hop
    exact h name hname

omit [DecidableEq E] [DecidableEq N] [DecidableEq V] in
/-- A call that was there is there after one call has changed. -/
theorem World.exists_setRequest {w : World E N V Q A σ} {P : Request E N V Q A → Prop} {k k' : ℕ}
    {r r' : Request E N V Q A} (hk : w.requests[k]? = some r) (hP : k' = k → P r')
    (h : k' ≠ k → ∃ s, w.requests[k']? = some s ∧ P s) :
    ∃ s, (w.setRequest k r').requests[k']? = some s ∧ P s := by
  have hlt := (List.getElem?_eq_some_iff.mp hk).1
  by_cases heq : k' = k
  · subst heq
    exact ⟨r', by simp [setRequest, hlt], hP rfl⟩
  · obtain ⟨s, hs, hPs⟩ := h heq
    exact ⟨s, by simp [setRequest, List.getElem?_set_ne (Ne.symm heq), hs], hPs⟩

theorem Abandoned.step {server : V} {w w' : World E N V Q A σ} {a : Action E N V Q}
    (h : Abandoned server es w) (hstep : w.step dispatch a = some w')
    (hadd : ∀ name, a ≠ .change (.addServer name server)) :
    Abandoned server (es ++ w.events dispatch a) w' := by
  have hcases := World.Step.of_step hstep
  generalize w.events dispatch a = es' at hcases ⊢
  cases hcases with
  | call endname args =>
    rw [List.append_nil]
    refine ⟨h.gone, fun k r hr => ?_, fun k registered reply hran => ?_, fun k result hmem => ?_⟩
    · rcases getElem?_concat_cases hr with hold | ⟨-, rfl⟩
      · exact h.coherent k r hold
      · exact .before rfl (.inl rfl)
    · obtain ⟨r, hr, hdoomed⟩ := h.doomed k registered reply hran
      exact ⟨r, List.getElem?_append_left (List.getElem?_eq_some_iff.mp hr).1 ▸ hr, hdoomed⟩
    · obtain ⟨r, hr, hstage⟩ := h.ended k result hmem
      exact ⟨r, List.getElem?_append_left (List.getElem?_eq_some_iff.mp hr).1 ▸ hr, hstage⟩
  | @move k m r r' hk hmove hstage =>
    rw [List.append_nil]
    refine ⟨h.gone, fun k' s hs => ?_, fun k' registered reply hran => ?_, fun k' result hmem => ?_⟩
    · rcases getElem?_set_cases hs with ⟨rfl, rfl⟩ | ⟨-, hold⟩
      · exact (h.coherent _ r hk).move hmove
      · exact h.coherent k' s hold
    · obtain ⟨s, hs, hdoomed⟩ := h.doomed k' registered reply hran
      refine World.exists_setRequest hk (fun heq => ?_) fun _ => ⟨s, hs, hdoomed⟩
      subst heq
      obtain rfl := Option.some.inj (hk.symm.trans hs)
      exact hdoomed.move h.gone hmove
    · obtain ⟨s, hs, hended⟩ := h.ended k' result hmem
      refine World.exists_setRequest hk (fun heq => ?_) fun _ => ⟨s, hs, hended⟩
      subst heq
      obtain rfl := Option.some.inj (hk.symm.trans hs)
      exact absurd hended (hmove.not_returned result)
  | @«return» k m r r' result' hk hmove hstage =>
    refine ⟨h.gone, fun k' s hs => ?_, fun k' registered reply hran => ?_, fun k' result hmem => ?_⟩
    · rcases getElem?_set_cases hs with ⟨rfl, rfl⟩ | ⟨-, hold⟩
      · exact (h.coherent _ r hk).move hmove
      · exact h.coherent k' s hold
    · rw [handledOf_append, handledOf_returned, List.append_nil] at hran
      obtain ⟨s, hs, hdoomed⟩ := h.doomed k' registered reply hran
      refine World.exists_setRequest hk (fun heq => ?_) fun _ => ⟨s, hs, hdoomed⟩
      subst heq
      obtain rfl := Option.some.inj (hk.symm.trans hs)
      exact hdoomed.move h.gone hmove
    · rw [returnedOf_append, returnedOf_returned] at hmem
      refine World.exists_setRequest hk (fun heq => ?_) fun hne => ?_
      · subst heq
        rw [if_pos rfl, List.mem_append, List.mem_singleton] at hmem
        rcases hmem with hold | rfl
        · obtain ⟨s, hs, hended⟩ := h.ended k' result hold
          obtain rfl := Option.some.inj (hk.symm.trans hs)
          exact absurd hended (hmove.not_returned result)
        · exact hstage
      · rw [if_neg (Ne.symm hne), List.append_nil] at hmem
        exact h.ended k' result hmem
  | @handle k r route hk hhandler =>
    refine ⟨h.gone, fun k' s hs => ?_, fun k' registered reply hran => ?_, fun k' result hmem => ?_⟩
    · rcases getElem?_set_cases hs with ⟨rfl, rfl⟩ | ⟨-, hold⟩
      · exact (h.coherent _ r hk).handle hhandler _
      · exact h.coherent k' s hold
    · rw [handledOf_append, handledOf_handled] at hran
      refine World.exists_setRequest hk (fun heq => ?_) fun hne => ?_
      · subst heq
        rw [if_pos rfl, List.mem_append, List.mem_singleton] at hran
        rcases hran with hold | heq
        · obtain ⟨s, hs, hdoomed⟩ := h.doomed k' registered reply hold
          obtain rfl := Option.some.inj (hk.symm.trans hs)
          exact hdoomed.handle _
        · obtain ⟨rfl, -⟩ := Prod.mk.inj heq
          exact (h.coherent _ r hk).doomed hhandler _
      · rw [if_neg (Ne.symm hne), List.append_nil] at hran
        exact h.doomed k' registered reply hran
    · rw [returnedOf_append, returnedOf_handled, List.append_nil] at hmem
      obtain ⟨s, hs, hended⟩ := h.ended k' result hmem
      refine World.exists_setRequest hk (fun heq => ?_) fun _ => ⟨s, hs, hended⟩
      subst heq
      obtain rfl := Option.some.inj (hk.symm.trans hs)
      exact hended
  | @change op net hnet =>
    rw [List.append_nil]
    exact ⟨h.gone.change hnet fun name heq => hadd name (by rw [heq]), h.coherent, h.doomed,
      h.ended⟩

/-- **Nothing that a deleted server did is answered.** Where a server is not registered, and is not
registered again, a call whose handler runs on it from then on does not return `true`. -/
theorem returned_none_of_deleted {ok : World E N V Q A σ → Action E N V Q → Prop} {app : σ}
    {w' : World E N V Q A σ} {es' : List (Event V A)} {server : V}
    (h : (World.system dispatch).Steps ok { app } es w) (hgone : w.net.Gone server)
    (h' : (World.system dispatch).Steps
      (fun _ a => ∀ name, a ≠ .change (.addServer name server)) w es' w')
    {k : ℕ} {registered : Bool} {reply : A}
    (hran : (server, registered, reply) ∈ handledOf k es') (result : A) :
    some result ∉ returnedOf k es' := by
  intro hmem
  have hstart : Abandoned server [] w :=
    ⟨hgone, (recorded_of_steps h).coherent, fun _ _ _ hran => absurd hran List.not_mem_nil,
      fun _ _ hended => absurd hended List.not_mem_nil⟩
  have hend := h'.invariant hstart fun hI hstep hok => hI.step hstep hok
  obtain ⟨r, hr, hdoomed⟩ := hend.doomed k registered reply hran
  obtain ⟨r', hr', hstage⟩ := hend.ended k _ hmem
  obtain rfl := Option.some.inj (hr.symm.trans hr')
  cases hdoomed <;> simp_all

/-- The server is deleted while its handler waits for the lock. -/
def deletedRun : List (Event Unit ℕ) × World Unit Unit Unit ℕ ℕ ℕ :=
  ((World.system addTo).exec ObservedSystem.always { app := 7 }
    (callActions ++ [.change (.deleteServer ())])).get (by decide)

/-- What happens then. -/
def afterDeleted : List (Event Unit ℕ) × World Unit Unit Unit ℕ ℕ ℕ :=
  ((World.system addTo).exec (fun _ a => ∀ name, a ≠ .change (.addServer name ())) deletedRun.2
    answerActions).get (by decide)

theorem returned_none_of_deleted_added : some 7 ∉ returnedOf 0 afterDeleted.1 :=
  returned_none_of_deleted (ObservedSystem.steps_get_exec (by decide))
    (fun name => by cases name; decide) (ObservedSystem.steps_get_exec (by decide))
    (show ((), false, 7) ∈ handledOf 0 afterDeleted.1 by decide) 7

/-! ### Calls return -/

/-- How many steps a call may still take. -/
def Request.rank (r : Request E N V Q A) : ℕ :=
  match r.stage, r.handler with
  | .sending, _ => 8
  | .taken, _ => 7
  | .admitted _, _ => 6
  | .waiting _, .finished _ => 4
  | .waiting _, _ => 5
  | .collected _ _, _ => 3
  | .unreachable, _ => 3
  | .answering _, _ => 2
  | .returned _, _ => 0

omit [DecidableEq E] [DecidableEq N] in
/-- A call that has not returned can take a step, unless it waits for its handler. -/
theorem Request.exists_move {net : Network E N V} (hstop : net.stopped = true → net.closed = true)
    {r : Request E N V Q A} (hr : r.Coherent) (hnot : ∀ reply, r.stage ≠ .returned reply) :
    (∃ m r', r.move net m = some r' ∧ r'.rank < r.rank) ∨
      ∃ route, r.handler = .running route ∧ r.stage = .waiting route := by
  cases hr with
  | before hhandler hstage =>
    left
    rcases hstage with hstage | hstage | hstage | ⟨route, hstage⟩
    · by_cases hrun : net.stopped = true
      · exact ⟨.refuse, { r with stage := .returned none }, by simp [move, hstage, hstop hrun],
          by simp [rank, hstage]⟩
      · exact ⟨.take, { r with stage := .taken }, by simp [move, hstage, hrun],
          by simp [rank, hstage]⟩
    · refine ⟨.read,
        { r with stage := (net.readEndnameInfo r.endname).elim .unreachable .admitted },
        by simp only [move, hstage], ?_⟩
      cases net.readEndnameInfo r.endname <;> simp [rank, hstage]
    · exact ⟨.timeUp, { r with stage := .answering none }, by simp [move, hstage],
        by simp [rank, hstage]⟩
    · exact ⟨.dispatch, { r with stage := .waiting route, handler := .running route },
        by simp [move, hstage], by simp [rank, hstage]⟩
  | running hhandler hstage => exact .inr ⟨_, hhandler, hstage⟩
  | @finished route reply hhandler hstage =>
    left
    rcases hstage with hstage | hstage
    · exact ⟨.collect, { r with stage := .collected route reply }, by simp [move, hstage, hhandler],
        by simp [rank, hstage, hhandler]⟩
    · exact ⟨.answer, { r with
        stage := .answering (if net.isServerDead r.endname route then none else some reply) },
        by simp only [move, hstage], by simp [rank, hstage]⟩
  | @answered reply hhandler hstage =>
    rcases hstage with hstage | hstage
    · exact .inl ⟨.return, { r with stage := .returned (some reply) }, by simp [move, hstage],
        by simp [rank, hstage]⟩
    · exact absurd hstage (hnot _)
  | lost hstage =>
    rcases hstage with hstage | hstage
    · exact .inl ⟨.return, { r with stage := .returned none }, by simp [move, hstage],
        by simp [rank, hstage]⟩
    · exact absurd hstage (hnot _)

/-- The action is one of the call's threads. -/
def Action.Of (k : ℕ) (a : Action E N V Q) : Prop := a = .handle k ∨ ∃ m, a = .move k m

variable (dispatch) in
/-- A call that has not returned can be carried on with. -/
theorem World.exists_step {w : World E N V Q A σ} {k : ℕ} {r : Request E N V Q A}
    (hk : w.requests[k]? = some r) (hr : r.Coherent)
    (hstop : w.net.stopped = true → w.net.closed = true)
    (hnot : ∀ reply, r.stage ≠ .returned reply) :
    ∃ a w' r', a.Of k ∧ w.step dispatch a = some w' ∧ w'.requests[k]? = some r' ∧
      r'.Coherent ∧ w'.net = w.net ∧ r'.rank < r.rank := by
  have hlt := (List.getElem?_eq_some_iff.mp hk).1
  rcases Request.exists_move hstop hr hnot with ⟨m, r', hmove, hrank⟩ | ⟨route, hhandler, hstage⟩
  · exact ⟨.move k m, w.setRequest k r', r', .inr ⟨m, rfl⟩, by simp [step, hk, hmove],
      by simp [setRequest, hlt], hr.move (.of_move hmove), rfl, hrank⟩
  · let r' : Request E N V Q A :=
      { r with handler := .finished (dispatch route.server r.args w.app).2 }
    exact ⟨.handle k, { w.setRequest k r' with app := (dispatch route.server r.args w.app).1 }, r',
      .inl rfl, by simp only [step, hk, hhandler]; rfl, by simp [setRequest, hlt],
      hr.handle hhandler _, rfl, by simp [r', Request.rank, hstage, hhandler]⟩

variable (dispatch) in
theorem World.exists_steps {w : World E N V Q A σ} {k : ℕ} {r : Request E N V Q A}
    (hk : w.requests[k]? = some r) (hr : r.Coherent)
    (hstop : w.net.stopped = true → w.net.closed = true) :
    ∃ es w', (World.system dispatch).Steps (fun _ a => a.Of k) w es w' ∧
      ∃ r' reply, w'.requests[k]? = some r' ∧ r'.stage = .returned reply := by
  induction hrank : r.rank using Nat.strongRecOn generalizing w r with
  | ind n ih =>
    by_cases hdone : ∃ reply, r.stage = .returned reply
    · obtain ⟨reply, hstage⟩ := hdone
      exact ⟨[], w, .refl w, r, reply, hk, hstage⟩
    · obtain ⟨a, u, r₁, ha, hstep, hk₁, hr₁, hnet, hlt⟩ := exists_step dispatch hk hr hstop
        fun reply hstage => hdone ⟨reply, hstage⟩
      obtain ⟨es, w', hsteps, hend⟩ := ih r₁.rank (hrank ▸ hlt) hk₁ hr₁
        (by rw [hnet]; exact hstop) rfl
      exact ⟨_, w', ((ObservedSystem.Steps.refl w).tail hstep ha).trans hsteps, hend⟩

/-- **No call hangs.** In every state of every run, a call can return by steps of its own threads
alone, provided that its handler does. -/
theorem exists_returned {ok : World E N V Q A σ → Action E N V Q → Prop} {app : σ}
    (h : (World.system dispatch).Steps ok { app } es w) {k : ℕ} (hk : k < w.requests.length) :
    ∃ es' w', (World.system dispatch).Steps (fun _ a => a.Of k) w es' w' ∧
      ∃ r reply, w'.requests[k]? = some r ∧ r.stage = .returned reply := by
  have hrec := recorded_of_steps h
  have hget : w.requests[k]? = some w.requests[k] := List.getElem?_eq_getElem hk
  exact World.exists_steps dispatch hget (hrec.coherent k _ hget) hrec.stopped

theorem exists_returned_added :
    ∃ es' w', (World.system addTo).Steps (fun _ a => a.Of 0) deletedRun.2 es' w' ∧
      ∃ r reply, w'.requests[0]? = some r ∧ r.stage = .returned reply :=
  exists_returned (ObservedSystem.steps_get_exec (by decide)) (by decide)

end World

end Rpc

end Csc512
