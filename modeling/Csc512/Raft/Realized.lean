import Csc512.Raft.OverNetwork
import Csc512.Raft.Progress
import Mathlib.Data.List.Forall2
import Mathlib.Data.Fintype.Prod

/-!
# What the network can do

`OverNetwork` says that the network does nothing the cluster cannot do. Here is the other side:
where every end-point is enabled and leads to its server, the network carries out every run of the
cluster. A call that is sent is taken, comes to its handler, and its reply comes back; a call that
the cluster loses just stays where it is.

So a leader can be elected whatever happened to the network, as long as requests are still taken:
the calls that were made are given up for lost, the network is wired again, and the rest is a run of
the cluster.

## Main results

* `NetCluster.realizes` — runs of the cluster are runs over the network
* `NetCluster.leader_electable_iff` — from every state of every run
-/

namespace Csc512

namespace Raft

open Rpc

variable {n : ℕ}

/-! ### A network that delivers -/

/-- Every end-point is enabled and leads to its server, and requests are taken. -/
structure FullyWired (net : Network (Fin n × Fin n) (Fin n) (Fin n)) : Prop where
  enabled : ∀ e, net.enabled e = true
  connections : ∀ e, net.connections e = some e.2
  servers : ∀ j, net.servers j = some j
  running : net.stopped = false

/-- The route to the server of an end-point. -/
def routeTo (net : Network (Fin n × Fin n) (Fin n) (Fin n)) (e : Fin n × Fin n) :
    Route (Fin n) (Fin n) := ⟨e.2, e.2, net.reliable⟩

section Deliver

variable {net : Network (Fin n × Fin n) (Fin n) (Fin n)} {Q A : Type}

/-- A call takes some steps of its own threads. -/
def Request.Advances (net : Network (Fin n × Fin n) (Fin n) (Fin n)) :
    PeerRequest n Q A → PeerRequest n Q A → Prop :=
  Relation.ReflTransGen fun r r' => ∃ m, r.move net m = some r'

/-- A new call comes to its handler. -/
theorem FullyWired.advances_running (h : FullyWired net) (e : Fin n × Fin n) (args : Q) :
    Request.Advances net ({ endname := e, args } : PeerRequest n Q A)
      { endname := e, args, stage := .waiting (routeTo net e),
        handler := .running (routeTo net e) } := by
  have hroute : net.readEndnameInfo e = some (routeTo net e) := by
    simp [Network.readEndnameInfo, h.enabled, h.connections, h.servers, routeTo]
  have htake : Request.move net ({ endname := e, args } : PeerRequest n Q A) .take =
      some { endname := e, args, stage := .taken } := by
    simp [Request.move, h.running]
  have hread : Request.move net ({ endname := e, args, stage := .taken } : PeerRequest n Q A)
      .read = some { endname := e, args, stage := .admitted (routeTo net e) } := by
    simp [Request.move, hroute]
  exact ((Relation.ReflTransGen.single ⟨_, htake⟩).tail ⟨_, hread⟩).tail ⟨.dispatch, rfl⟩

/-- The reply of a handler that has run comes back. -/
theorem FullyWired.advances_returned (h : FullyWired net) (e : Fin n × Fin n) (args : Q)
    (reply : A) : Request.Advances net
      ({ endname := e, args, stage := .waiting (routeTo net e), handler := .finished reply } :
        PeerRequest n Q A)
      { endname := e, args, stage := .returned (some reply), handler := .finished reply } := by
  have halive : net.isServerDead e (routeTo net e) = false := by
    simp [Network.isServerDead, h.enabled, h.servers, routeTo]
  let collected : PeerRequest n Q A :=
    { endname := e, args, stage := .collected (routeTo net e) reply, handler := .finished reply }
  have hanswer : collected.move net .answer = some
      { endname := e, args, stage := .answering (some reply), handler := .finished reply } := by
    simp [collected, Request.move, halive]
  exact ((Relation.ReflTransGen.single ⟨.collect, rfl⟩).tail ⟨_, hanswer⟩).tail ⟨.return, rfl⟩

end Deliver

/-! ### Steps of calls -/

section Calls

variable {d : NetCluster n} {ok : NetCluster n → NetAction n → Prop}

/-- The steps that leave the network alone are allowed. -/
def AllowsCalls (ok : NetCluster n → NetAction n → Prop) : Prop :=
  ∀ d a, (∀ op, a ≠ .change op) → ok d a

theorem NetCluster.setCampaign_self {k : ℕ} {camp : NetCampaign n}
    (h : d.campaigns[k]? = some camp) : d.setCampaign k camp = d := by
  have hset : d.campaigns.set k camp = d.campaigns := by
    obtain ⟨hlt, heq⟩ := List.getElem?_eq_some_iff.mp h
    rw [← heq, List.set_getElem_self]
  rw [setCampaign, hset]

theorem NetCluster.setHeartbeat_self {k : ℕ}
    {r : PeerRequest n (AppendEntriesArgs n) AppendEntriesReply}
    (h : d.heartbeats[k]? = some r) : d.setHeartbeat k r = d := by
  have hset : d.heartbeats.set k r = d.heartbeats := by
    obtain ⟨hlt, heq⟩ := List.getElem?_eq_some_iff.mp h
    rw [← heq, List.set_getElem_self]
  rw [setHeartbeat, hset]

theorem NetCampaign.setGoroutine_self {camp : NetCampaign n} {peer : Fin n} {g : Goroutine n}
    (h : camp.goroutines peer = g) : camp.setGoroutine peer g = camp := by
  rw [setGoroutine, ← h, Function.update_eq_self]

theorem NetCluster.voteRequest_of_getElem? {k : ℕ} {peer : Fin n} {camp : NetCampaign n}
    {r : PeerRequest n (RequestVoteArgs n) RequestVoteReply} (hk : d.campaigns[k]? = some camp)
    (hr : camp.goroutines peer = .calling r) : d.voteRequest k peer = some (camp, r) := by
  simp [voteRequest, hk, hr]

/-- The call of a goroutine goes on, and nothing else changes. -/
theorem NetCluster.steps_advances (hok : AllowsCalls ok) {k : ℕ} {peer : Fin n}
    {camp : NetCampaign n} {r r' : PeerRequest n (RequestVoteArgs n) RequestVoteReply}
    (hk : d.campaigns[k]? = some camp) (hr : camp.goroutines peer = .calling r)
    (h : Request.Advances d.net r r') : (NetCluster.system n).Steps ok d []
      (d.setCampaign k (camp.setGoroutine peer (.calling r'))) := by
  induction h with
  | refl =>
    rw [NetCampaign.setGoroutine_self hr, setCampaign_self hk]
    exact .refl d
  | @tail r₁ r₂ _ hmove ih =>
    obtain ⟨m, hmove⟩ := hmove
    have hlt : k < d.campaigns.length := (List.getElem?_eq_some_iff.mp hk).1
    have hrequest : (d.setCampaign k (camp.setGoroutine peer (.calling r₁))).voteRequest k peer =
        some (camp.setGoroutine peer (.calling r₁), r₁) :=
      voteRequest_of_getElem? (by simp [setCampaign, hlt]) (by simp [NetCampaign.setGoroutine])
    have hstep : (NetCluster.system n).step
        (d.setCampaign k (camp.setGoroutine peer (.calling r₁))) (.moveVote k peer m) =
        some (d.setCampaign k (camp.setGoroutine peer (.calling r₂))) := by
      have hmove' : r₁.move (d.setCampaign k (camp.setGoroutine peer (.calling r₁))).net m =
          some r₂ := hmove
      simp only [system, step, hrequest, hmove', Option.map_some]
      simp [setCampaign, NetCampaign.setGoroutine]
    exact ih.tail hstep (hok _ _ fun op heq => by cases heq)

/-- A heartbeat goes on, and nothing else changes. -/
theorem NetCluster.steps_advancesHeartbeat (hok : AllowsCalls ok) {k : ℕ}
    {r r' : PeerRequest n (AppendEntriesArgs n) AppendEntriesReply}
    (hk : d.heartbeats[k]? = some r) (h : Request.Advances d.net r r') :
    (NetCluster.system n).Steps ok d [] (d.setHeartbeat k r') := by
  induction h with
  | refl =>
    rw [setHeartbeat_self hk]
    exact .refl d
  | @tail r₁ r₂ _ hmove ih =>
    obtain ⟨m, hmove⟩ := hmove
    have hlt : k < d.heartbeats.length := (List.getElem?_eq_some_iff.mp hk).1
    have hk₁ : (d.setHeartbeat k r₁).heartbeats[k]? = some r₁ := by simp [setHeartbeat, hlt]
    have hmove' : r₁.move (d.setHeartbeat k r₁).net m = some r₂ := hmove
    have hstep : (NetCluster.system n).step (d.setHeartbeat k r₁) (.moveHeartbeat k m) =
        some (d.setHeartbeat k r₂) := by
      simp only [system, step, hk₁, hmove', Option.map_some]
      simp [setHeartbeat]
    exact ih.tail hstep (hok _ _ fun op heq => by cases heq)

end Calls

/-! ### What the network does for the cluster -/

/-- A call of the cluster and the goroutine that makes it. A call that is over may be anything: its
messages stay where they are. -/
inductive CallRealized (e : Election n) (peer : Fin n) :
    Call RequestVoteReply → Goroutine n → Prop
  | sent : CallRealized e peer .sent (.calling { endname := (e.me, peer), args := e.args })
  | replied {r : PeerRequest n (RequestVoteArgs n) RequestVoteReply} {reply : RequestVoteReply}
      (hstage : r.stage = .returned (some reply)) :
      CallRealized e peer (.replied reply) (.calling r)
  | done (g : Goroutine n) : CallRealized e peer .done g

theorem CallRealized.eq_of_sent {e : Election n} {peer : Fin n} {g : Goroutine n}
    (h : CallRealized e peer .sent g) :
    g = .calling { endname := (e.me, peer), args := e.args } := by
  cases h
  rfl

theorem CallRealized.exists_of_replied {e : Election n} {peer : Fin n} {g : Goroutine n}
    {reply : RequestVoteReply} (h : CallRealized e peer (.replied reply) g) :
    ∃ r, g = .calling r ∧ r.stage = .returned (some reply) := by
  cases h with
  | replied hstage => exact ⟨_, rfl, hstage⟩

theorem CallRealized.congr {e e' : Election n} {peer : Fin n} {call : Call RequestVoteReply}
    {g : Goroutine n} (h : CallRealized e peer call g) (hargs : e'.args = e.args) :
    CallRealized e' peer call g := by
  cases h with
  | sent =>
    have hme : e'.me = e.me := congrArg RequestVoteArgs.candidateID hargs
    rw [← hme, ← hargs]
    exact .sent
  | replied hstage => exact .replied hstage
  | done => exact .done g

def CampaignRealized (camp : Campaign n) (camp' : NetCampaign n) : Prop :=
  camp'.election = camp.election ∧
    ∀ peer, CallRealized camp.election peer (camp.calls peer) (camp'.goroutines peer)

theorem CampaignRealized.start (e : Election n) :
    CampaignRealized (Campaign.start e) (NetCampaign.start e) := by
  refine ⟨rfl, fun peer => ?_⟩
  by_cases hpeer : peer = e.me
  · simpa [Campaign.start, NetCampaign.start, hpeer] using .done _
  · simpa [Campaign.start, NetCampaign.start, hpeer] using .sent

/-- One call and its goroutine change. -/
theorem CampaignRealized.setCall {camp : Campaign n} {camp' : NetCampaign n}
    (h : CampaignRealized camp camp') (peer : Fin n) {call : Call RequestVoteReply}
    {g : Goroutine n} (hcall : CallRealized camp.election peer call g) :
    CampaignRealized (camp.setCall peer call) (camp'.setGoroutine peer g) := by
  refine ⟨h.1, fun p => ?_⟩
  by_cases hp : p = peer
  · subst hp
    simpa [Campaign.setCall, NetCampaign.setGoroutine] using hcall
  · simpa [Campaign.setCall, NetCampaign.setGoroutine, hp] using h.2 p

/-- The votes are counted, for the same request. -/
theorem CampaignRealized.recount {camp : Campaign n} {camp' : NetCampaign n}
    (h : CampaignRealized camp camp') {e : Election n} (hargs : e.args = camp.election.args) :
    CampaignRealized { camp with election := e } { camp' with election := e } :=
  ⟨rfl, fun peer => (h.2 peer).congr hargs⟩

/-- A heartbeat whose handler has not run waits to be taken. -/
def HeartbeatRealized (call : HeartbeatCall n)
    (r : PeerRequest n (AppendEntriesArgs n) AppendEntriesReply) : Prop :=
  call.status = .sent → r = { endname := (call.args.leaderID, call.peer), args := call.args }

/-- The same servers, and each call of the cluster with its call over the network. -/
structure Realized (c : Cluster n) (d : NetCluster n) : Prop where
  servers : d.servers = c.servers
  campaigns : List.Forall₂ CampaignRealized c.campaigns d.campaigns
  heartbeats : List.Forall₂ HeartbeatRealized c.heartbeats d.heartbeats

theorem forall₂_set {α β : Type*} {R : α → β → Prop} {l : List α} {l' : List β}
    (h : List.Forall₂ R l l') {x : α} {y : β} (hxy : R x y) (k : ℕ) :
    List.Forall₂ R (l.set k x) (l'.set k y) := by
  induction h generalizing k with
  | nil => exact .nil
  | cons hhead htail ih =>
    cases k with
    | zero => exact .cons hxy htail
    | succ k => exact .cons hhead (ih k)

theorem exists_getElem?_of_forall₂ {α β : Type*} {R : α → β → Prop} {l : List α} {l' : List β}
    (h : List.Forall₂ R l l') {k : ℕ} {x : α} (hk : l[k]? = some x) :
    ∃ y, l'[k]? = some y ∧ R x y := by
  induction h generalizing k with
  | nil => cases hk
  | @cons a b _ _ hhead _ ih =>
    cases k with
    | zero =>
      obtain rfl := Option.some.inj hk
      exact ⟨b, rfl, hhead⟩
    | succ k => exact ih hk

/-- Where one list stays, the other may change in a place that still matches. -/
theorem forall₂_set_left {α β : Type*} {R : α → β → Prop} {l : List α} {l' : List β}
    (h : List.Forall₂ R l l') {x : α} {y : β} {k : ℕ} (hk : l'[k]? = some y) (hxy : R x y) :
    List.Forall₂ R (l.set k x) l' := by
  have hset := forall₂_set h hxy k
  obtain ⟨hlt, heq⟩ := List.getElem?_eq_some_iff.mp hk
  rwa [← heq, List.set_getElem_self] at hset

section Steps

variable {c : Cluster n} {d : NetCluster n} {ok : NetCluster n → NetAction n → Prop}

/-- The network carries out a step of the cluster. -/
def CarriedOut (ok : NetCluster n → NetAction n → Prop) (d : NetCluster n)
    (bs : List (Ballot (Fin n) (Fin n))) (c' : Cluster n) : Prop :=
  ∃ d', (NetCluster.system n).Steps ok d bs d' ∧ d'.net = d.net ∧ Realized c' d'

/-- A step that the network takes in one go. -/
theorem CarriedOut.of_step {d' : NetCluster n} {a : NetAction n} {c' : Cluster n}
    (hok : AllowsCalls ok) (hstep : d.step a = some d') (ha : ∀ op, a ≠ .change op)
    (hnet : d'.net = d.net) (h : Realized c' d') : CarriedOut ok d (d.ballots a) c' :=
  ⟨d', .single hstep (hok d a ha), hnet, h⟩

theorem Realized.timeout (h : Realized c d) (hok : AllowsCalls ok) {i : Fin n}
    (hstate : (c.servers i).state ≠ .leader) :
    CarriedOut ok d [⟨i, (c.servers i).currentTerm + 1, i⟩] (c.stand i) := by
  rw [← h.servers] at hstate ⊢
  have hstep : d.step (.timeout i) =
      some { d.setServer i ((d.servers i).startElection i).1 with
        campaigns := d.campaigns ++ [.start ((d.servers i).startElection i).2] } := by
    simp [NetCluster.step, hstate]
  refine .of_step hok hstep (fun op heq => by cases heq) rfl ⟨?_, ?_, h.heartbeats⟩
  · simp [Cluster.stand, Cluster.setServer, NetCluster.setServer, h.servers]
  · have hnew := CampaignRealized.start ((c.servers i).startElection i).2
    rw [← h.servers] at hnew
    simpa [Cluster.stand, h.servers] using List.rel_append h.campaigns (.cons hnew .nil)

theorem Realized.heartbeat (h : Realized c d) (hok : AllowsCalls ok) {i : Fin n}
    (hstate : (c.servers i).state = .leader) : CarriedOut ok d [] (c.sendHeartbeats i) := by
  rw [← h.servers] at hstate
  have hstep : d.step (.heartbeat i) = some (d.sendHeartbeats i) := by
    simp [NetCluster.step, hstate]
  refine .of_step hok hstep (fun op heq => by cases heq) rfl ⟨h.servers, h.campaigns, ?_⟩
  refine List.rel_append h.heartbeats (List.forall₂_map_left_iff.mpr
    (List.forall₂_map_right_iff.mpr (List.forall₂_same.mpr fun peer _ _ => ?_)))
  rw [h.servers]
  rfl

theorem Realized.recvRequestVote (h : Realized c d) (hok : AllowsCalls ok)
    (hnet : FullyWired d.net) {k : ℕ} {peer : Fin n} {camp : Campaign n}
    (hk : c.campaigns[k]? = some camp) (hcall : camp.calls peer = .sent) :
    CarriedOut ok d (c.ballots (.recvRequestVote k peer))
      ((c.setServer peer ((c.servers peer).requestVote camp.election.args).1).setCampaign k
        (camp.setCall peer (.replied ((c.servers peer).requestVote camp.election.args).2))) := by
  obtain ⟨camp', hk', hcamp⟩ := exists_getElem?_of_forall₂ h.campaigns hk
  have hlt : k < d.campaigns.length := (List.getElem?_eq_some_iff.mp hk').1
  have hr : camp'.goroutines peer =
      .calling { endname := (camp.election.me, peer), args := camp.election.args } := by
    have hrealized := hcamp.2 peer
    rw [hcall] at hrealized
    exact hrealized.eq_of_sent
  -- the call comes to its handler, which runs, and the reply comes back
  let reply := ((c.servers peer).requestVote camp.election.args).2
  let r₁ : PeerRequest n (RequestVoteArgs n) RequestVoteReply :=
    { endname := (camp.election.me, peer), args := camp.election.args,
      stage := .waiting (routeTo d.net (camp.election.me, peer)),
      handler := .running (routeTo d.net (camp.election.me, peer)) }
  let camp₁ := camp'.setGoroutine peer (.calling r₁)
  let d₁ := d.setCampaign k camp₁
  have hthere : (NetCluster.system n).Steps ok d [] d₁ :=
    NetCluster.steps_advances hok hk' hr (hnet.advances_running _ _)
  let camp₂ := camp₁.setGoroutine peer (.calling { r₁ with handler := .finished reply })
  let d₂ := (d₁.setServer peer ((c.servers peer).requestVote camp.election.args).1).setCampaign k
    camp₂
  have hrequest : d₁.voteRequest k peer = some (camp₁, r₁) :=
    NetCluster.voteRequest_of_getElem? (by simp [d₁, NetCluster.setCampaign, hlt])
      (by simp [camp₁, NetCampaign.setGoroutine])
  have hservers : d₁.servers = c.servers := h.servers
  have hrun : (NetCluster.system n).step d₁ (.handleVote k peer) = some d₂ := by
    simp only [NetCluster.system, NetCluster.step, hrequest, r₁, routeTo, hservers]
    rfl
  have hk₂ : d₂.campaigns[k]? = some camp₂ := by
    simp [d₂, d₁, NetCluster.setCampaign, NetCluster.setServer, hlt]
  have hr₂ : camp₂.goroutines peer = .calling { r₁ with handler := .finished reply } := by
    simp [camp₂, NetCampaign.setGoroutine]
  have hback := NetCluster.steps_advances hok hk₂ hr₂
    (hnet.advances_returned (camp.election.me, peer) camp.election.args reply)
  have hballots : d₁.ballots (.handleVote k peer) = c.ballots (.recvRequestVote k peer) := by
    simp only [NetCluster.ballots, hrequest, r₁, routeTo, hservers, Cluster.ballots, hk]
    rfl
  have hmiddle : (NetCluster.system n).Steps ok d₁ (c.ballots (.recvRequestVote k peer)) d₂ := by
    rw [← hballots]
    exact .single hrun (hok _ _ fun op heq => by cases heq)
  have hsteps := (hthere.trans hmiddle).trans hback
  rw [List.nil_append, List.append_nil] at hsteps
  refine ⟨_, hsteps, rfl, ?_, ?_, h.heartbeats⟩
  · simp [d₂, d₁, NetCluster.setCampaign, NetCluster.setServer, Cluster.setCampaign,
      Cluster.setServer, h.servers]
  · simpa [d₂, d₁, camp₂, camp₁, NetCluster.setCampaign, NetCluster.setServer,
      Cluster.setCampaign, Cluster.setServer, NetCampaign.setGoroutine] using
      forall₂_set h.campaigns (hcamp.setCall peer (.replied rfl)) k

theorem Realized.recvVoteReply (h : Realized c d) (hok : AllowsCalls ok) {k : ℕ} {peer : Fin n}
    {camp : Campaign n} {reply : RequestVoteReply} (hk : c.campaigns[k]? = some camp)
    (hcall : camp.calls peer = .replied reply) :
    CarriedOut ok d []
      ((c.setServer camp.election.me
          ((c.servers camp.election.me).handleVoteReply camp.election reply).1).setCampaign k
        { camp.setCall peer .done with
          election := ((c.servers camp.election.me).handleVoteReply camp.election reply).2 }) := by
  obtain ⟨camp', hk', hcamp⟩ := exists_getElem?_of_forall₂ h.campaigns hk
  obtain ⟨r, hr, hstage⟩ : ∃ r, camp'.goroutines peer = .calling r ∧
      r.stage = .returned (some reply) := by
    have hrealized := hcamp.2 peer
    rw [hcall] at hrealized
    exact hrealized.exists_of_replied
  have hstep : d.step (.recvVoteReply k peer) = some
      ((d.setServer camp.election.me
          ((c.servers camp.election.me).handleVoteReply camp.election reply).1).setCampaign k
        { camp'.setGoroutine peer .done with
          election := ((c.servers camp.election.me).handleVoteReply camp.election reply).2 }) := by
    simp only [NetCluster.step, NetCluster.voteRequest_of_getElem? hk' hr, hstage, hcamp.1,
      h.servers]
  refine .of_step hok hstep (fun op heq => by cases heq) rfl ⟨?_, ?_, h.heartbeats⟩
  · simp [NetCluster.setCampaign, NetCluster.setServer, Cluster.setCampaign, Cluster.setServer,
      h.servers]
  · exact forall₂_set h.campaigns
      ((hcamp.setCall peer (.done .done)).recount (Server.args_handleVoteReply _ _ _)) k

/-- The network does nothing about a call that is lost. -/
theorem Realized.loseVoteCall (h : Realized c d) {k : ℕ} {peer : Fin n} {camp : Campaign n}
    (hk : c.campaigns[k]? = some camp) :
    CarriedOut ok d [] (c.setCampaign k (camp.setCall peer .done)) := by
  obtain ⟨camp', hk', hcamp⟩ := exists_getElem?_of_forall₂ h.campaigns hk
  have hlost := hcamp.setCall peer (.done (camp'.goroutines peer))
  rw [NetCampaign.setGoroutine_self rfl] at hlost
  exact ⟨d, .refl d, rfl, h.servers, forall₂_set_left h.campaigns hk' hlost, h.heartbeats⟩

theorem Realized.recvAppendEntries (h : Realized c d) (hok : AllowsCalls ok)
    (hnet : FullyWired d.net) {k : ℕ} {call : HeartbeatCall n}
    (hk : c.heartbeats[k]? = some call) (hcall : call.status = .sent) :
    CarriedOut ok d []
      ((c.setServer call.peer ((c.servers call.peer).appendEntries call.args).1).setHeartbeat k
        { call with status := .replied ((c.servers call.peer).appendEntries call.args).2 }) := by
  obtain ⟨r, hk', hr⟩ := exists_getElem?_of_forall₂ h.heartbeats hk
  obtain rfl := hr hcall
  have hlt : k < d.heartbeats.length := (List.getElem?_eq_some_iff.mp hk').1
  let e := (call.args.leaderID, call.peer)
  let r₁ : PeerRequest n (AppendEntriesArgs n) AppendEntriesReply :=
    { endname := e, args := call.args, stage := .waiting (routeTo d.net e),
      handler := .running (routeTo d.net e) }
  let d₁ := d.setHeartbeat k r₁
  have hthere : (NetCluster.system n).Steps ok d [] d₁ :=
    NetCluster.steps_advancesHeartbeat hok hk' (hnet.advances_running _ _)
  have hk₁ : d₁.heartbeats[k]? = some r₁ := by simp [d₁, NetCluster.setHeartbeat, hlt]
  have hservers : d₁.servers = c.servers := h.servers
  let d₂ := (d₁.setServer call.peer ((c.servers call.peer).appendEntries call.args).1).setHeartbeat
    k { r₁ with handler := .finished ((c.servers call.peer).appendEntries call.args).2 }
  have hrun : (NetCluster.system n).step d₁ (.handleHeartbeat k) = some d₂ := by
    simp only [NetCluster.system, NetCluster.step, hk₁, r₁, e, routeTo, hservers]
    rfl
  refine ⟨d₂, hthere.trans (.single hrun (hok _ _ fun op heq => by cases heq)), rfl, ?_,
    h.campaigns, ?_⟩
  · simp [d₂, d₁, NetCluster.setHeartbeat, NetCluster.setServer, Cluster.setHeartbeat,
      Cluster.setServer, h.servers]
  · simpa [d₂, d₁, NetCluster.setHeartbeat, NetCluster.setServer, Cluster.setHeartbeat,
      Cluster.setServer] using forall₂_set h.heartbeats (fun heq => by cases heq) k

/-- A heartbeat that is over for the cluster stays where it is. -/
theorem Realized.endHeartbeat (h : Realized c d) {k : ℕ} {call : HeartbeatCall n}
    (hk : c.heartbeats[k]? = some call) :
    CarriedOut ok d [] (c.setHeartbeat k { call with status := .done }) := by
  obtain ⟨r, hk', -⟩ := exists_getElem?_of_forall₂ h.heartbeats hk
  exact ⟨d, .refl d, rfl, h.servers, h.campaigns,
    forall₂_set_left h.heartbeats hk' fun heq => by cases heq⟩

/-- **One step of the cluster** is carried out by a network that delivers. -/
theorem Realized.step (h : Realized c d) (hok : AllowsCalls ok) (hnet : FullyWired d.net)
    {c' : Cluster n} {a : Action n} (hstep : c.step a = some c') :
    CarriedOut ok d (c.ballots a) c' := by
  cases Cluster.Step.of_step hstep with
  | timeout i hstate => exact h.timeout hok hstate
  | heartbeat i hstate => exact h.heartbeat hok hstate
  | recvRequestVote hk hcall => exact h.recvRequestVote hok hnet hk hcall
  | recvVoteReply hk hcall => exact h.recvVoteReply hok hk hcall
  | loseVoteCall hk => exact h.loseVoteCall hk
  | recvAppendEntries hk hcall => exact h.recvAppendEntries hok hnet hk hcall
  | recvAppendReply hk hcall => exact h.endHeartbeat hk
  | loseHeartbeat hk => exact h.endHeartbeat hk

/-- A run of the cluster is carried out by a network that delivers. -/
theorem Realized.steps (h : Realized c d) (hok : AllowsCalls ok) (hnet : FullyWired d.net)
    {c' : Cluster n} {bs : List (Ballot (Fin n) (Fin n))}
    (hsteps : (Cluster.system n).Steps ObservedSystem.always c bs c') : CarriedOut ok d bs c' := by
  exact hsteps.simulates (R := fun c d' => d'.net = d.net ∧ Realized c d') ⟨rfl, h⟩
    fun {c₁ c₂ a d₁} hR hstep _ => by
      obtain ⟨hnet₁, hrealized₁⟩ := hR
      obtain ⟨d₂, hd₂, hnet₂, hrealized₂⟩ := hrealized₁.step hok (hnet₁ ▸ hnet) hstep
      exact ⟨d₂, hd₂, hnet₂.trans hnet₁, hrealized₂⟩

end Steps

theorem map_election {cs : List (Campaign n)} {ds : List (NetCampaign n)}
    (h : List.Forall₂ CampaignRealized cs ds) :
    ds.map NetCampaign.election = cs.map Campaign.election := by
  induction h with
  | nil => rfl
  | cons hhead _ ih => simp [hhead.1, ih]

/-- The steps that leave the network alone. -/
def LeavesNetwork (_d : NetCluster n) (a : NetAction n) : Prop := ∀ op, a ≠ .change op

/-- **The network realises the cluster.** Every run of the cluster, with its losses and delays, can
happen over a network that is wired fully and never changes, with the same votes and the servers in
the same states. -/
theorem NetCluster.realizes {c : Cluster n} {bs : List (Ballot (Fin n) (Fin n))}
    {net : Network (Fin n × Fin n) (Fin n) (Fin n)} (hnet : FullyWired net)
    (h : (Cluster.system n).Steps ObservedSystem.always (Cluster.init n) bs c) :
    ∃ d, (NetCluster.system n).Steps LeavesNetwork (NetCluster.init n net) bs d ∧
      d.servers = c.servers ∧
      d.campaigns.map NetCampaign.election = c.campaigns.map Campaign.election := by
  have hinit : Realized (Cluster.init n) (NetCluster.init n net) := ⟨rfl, .nil, .nil⟩
  obtain ⟨d, hsteps, -, hrealized⟩ := hinit.steps (fun _ _ ha => ha) hnet h
  exact ⟨d, hsteps, hrealized.servers, map_election hrealized.campaigns⟩

/-- The network as it is when nothing was done to it. -/
def healthyNet (n : ℕ) : Network (Fin n × Fin n) (Fin n) (Fin n) where
  ends _ := true
  enabled _ := true
  connections e := some e.2
  servers := some

theorem NetCluster.realizes_staleVote :
    let run := ((Cluster.system 3).exec ObservedSystem.always (Cluster.init 3) staleVoteRun).get
      exec_staleVoteRun
    ∃ d, (NetCluster.system 3).Steps LeavesNetwork (NetCluster.init 3 (healthyNet 3)) run.1 d ∧
      d.servers = run.2.servers ∧
      d.campaigns.map NetCampaign.election = run.2.campaigns.map Campaign.election :=
  NetCluster.realizes ⟨fun _ => rfl, fun _ => rfl, fun _ => rfl, rfl⟩
    (ObservedSystem.steps_get_exec exec_staleVoteRun)

/-! ### A leader can always be elected, again -/

/-- The network with some end-points enabled and connected. -/
def wireEnds (net : Network (Fin n × Fin n) (Fin n) (Fin n)) (es : List (Fin n × Fin n)) :
    Network (Fin n × Fin n) (Fin n) (Fin n) :=
  { net with
    enabled := fun e => if e ∈ es then true else net.enabled e
    connections := fun e => if e ∈ es then some e.2 else net.connections e }

/-- The network with some servers added. -/
def addServers (net : Network (Fin n × Fin n) (Fin n) (Fin n)) (js : List (Fin n)) :
    Network (Fin n × Fin n) (Fin n) (Fin n) :=
  { net with servers := fun j => if js.contains j then some j else net.servers j }

theorem NetCluster.steps_change {d : NetCluster n}
    (op : Rpc.Change (Fin n × Fin n) (Fin n) (Fin n))
    {net : Network (Fin n × Fin n) (Fin n) (Fin n)} (hop : d.net.change op = some net)
    (hwiring : KeepsWiring d (.change op)) :
    (NetCluster.system n).Steps KeepsWiring d [] { d with net } := by
  have hstep : (NetCluster.system n).step d (.change op) = some { d with net } := by
    simp [system, step, hop]
  exact .single hstep hwiring

theorem NetCluster.steps_wireEnds (d : NetCluster n) (es : List (Fin n × Fin n)) :
    (NetCluster.system n).Steps KeepsWiring d [] { d with net := wireEnds d.net es } := by
  induction es with
  | nil => simpa [wireEnds] using .refl d
  | cons e es ih =>
    have hconnect := steps_change (d := { d with net := wireEnds d.net es }) (.connect e e.2) rfl
      rfl
    have henable := steps_change (d := { d with net :=
      { wireEnds d.net es with
        connections := Function.update (wireEnds d.net es).connections e (some e.2) } })
      (.enable e true) rfl trivial
    have hnet : wireEnds d.net (e :: es) =
        { wireEnds d.net es with
          enabled := Function.update (wireEnds d.net es).enabled e true
          connections := Function.update (wireEnds d.net es).connections e (some e.2) } := by
      simp only [wireEnds, Network.mk.injEq, and_true, true_and]
      refine ⟨funext fun e' => ?_, funext fun e' => ?_⟩ <;>
        by_cases he : e' = e <;> simp [he]
    rw [hnet]
    exact (ih.trans hconnect).trans henable

theorem NetCluster.steps_addServers (d : NetCluster n) (js : List (Fin n)) :
    (NetCluster.system n).Steps KeepsWiring d [] { d with net := addServers d.net js } := by
  induction js with
  | nil => simpa [addServers] using .refl d
  | cons j js ih =>
    have hadd := steps_change (d := { d with net := addServers d.net js }) (.addServer j j) rfl rfl
    have hnet : addServers d.net (j :: js) =
        { addServers d.net js with
          servers := Function.update (addServers d.net js).servers j (some j) } := by
      simp only [addServers, Network.mk.injEq, and_true, true_and]
      exact funext fun j' => by by_cases hj : j' = j <;> simp [hj]
    rw [hnet]
    exact ih.trans hadd

/-- A network that still takes requests can be wired fully. -/
theorem NetCluster.exists_fullyWired {d : NetCluster n} (hrun : d.net.stopped = false) :
    ∃ net, FullyWired net ∧ (NetCluster.system n).Steps KeepsWiring d [] { d with net } := by
  refine ⟨addServers (wireEnds d.net Finset.univ.toList) (List.finRange n), ?_,
    (steps_wireEnds d Finset.univ.toList).trans (steps_addServers _ _)⟩
  constructor <;> simp [addServers, wireEnds, hrun]

theorem allowsCalls_keepsWiring : AllowsCalls (KeepsWiring (n := n)) := by
  intro d a ha
  cases a with
  | change op => exact absurd rfl (ha op)
  | _ => trivial

/-- The cluster in which all calls that were made are lost. -/
def NetCluster.allLost (d : NetCluster n) : Cluster n where
  servers := d.servers
  campaigns := d.campaigns.map fun camp => ⟨camp.election, fun _ => .done⟩
  heartbeats := d.heartbeats.map fun r => ⟨r.endname.2, r.args, .done⟩

theorem NetCluster.realized_allLost (d : NetCluster n) : Realized d.allLost d where
  servers := rfl
  campaigns := List.forall₂_map_left_iff.mpr
    (List.forall₂_same.mpr fun _ _ => ⟨rfl, fun _ => .done _⟩)
  heartbeats := List.forall₂_map_left_iff.mpr (List.forall₂_same.mpr fun _ _ h => by cases h)

/-- **A leader can always be elected over the network.** Whatever happened to the network and to the
calls so far, as long as it was not cleaned up, server `i` can become leader if and only if there is
another server. -/
theorem NetCluster.leader_electable_iff {d : NetCluster n} {bs : List (Ballot (Fin n) (Fin n))}
    {net : Network (Fin n × Fin n) (Fin n) (Fin n)} (hwired : Wired net)
    (h : (NetCluster.system n).Steps KeepsWiring (NetCluster.init n net) bs d)
    (hrun : d.net.stopped = false) (i : Fin n) :
    (∃ bs' d', (NetCluster.system n).Steps KeepsWiring d bs' d' ∧
      (d'.servers i).state = .leader) ↔ 2 ≤ n := by
  constructor
  · rintro ⟨bs', d', h', hlead⟩
    by_contra hn
    obtain rfl : n = 1 := by
      have := i.isLt
      omega
    have hsim := ((h.trans h').simulate NetCluster.seen (NetCluster.inOrder_init hwired)
      fun hI hstep hok => hI.step hstep hok).2
    exact not_leader_of_one hsim i hlead
  · intro hn
    obtain ⟨net', hnet', hrepair⟩ := exists_fullyWired hrun
    obtain ⟨c, ⟨bs', hsteps⟩, hlead⟩ := d.allLost.exists_leader hn i
    have hrealized : Realized d.allLost { d with net := net' } :=
      ⟨rfl, d.realized_allLost.campaigns, d.realized_allLost.heartbeats⟩
    obtain ⟨d', hd', -, hend⟩ := hrealized.steps allowsCalls_keepsWiring hnet' hsteps
    exact ⟨_, d', hrepair.trans hd', by rw [hend.servers]; exact hlead⟩

/-- Server 1 cannot be reached, and still server 1 can become leader. -/
theorem NetCluster.leader_electable_abandoned :
    let run := ((NetCluster.system 3).exec KeepsWiring (NetCluster.init 3 {}) abandonedVote).get
      (by decide)
    (∃ bs' d', (NetCluster.system 3).Steps KeepsWiring run.2 bs' d' ∧
      (d'.servers 1).state = .leader) ↔ 2 ≤ 3 :=
  NetCluster.leader_electable_iff wired_empty (ObservedSystem.steps_get_exec (by decide))
    (by decide) 1

end Raft

end Csc512
