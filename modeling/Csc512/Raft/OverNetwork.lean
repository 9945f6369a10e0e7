import Csc512.Raft.Cluster
import Csc512.Raft.AtMostOnce

/-!
# The cluster over the simulated network

`Cluster` lets a call be answered or lost at any moment. Here the same servers call each other
through `labrpc`: end-point `(i, j)` of server `i` is connected to server `j`, end-points are
enabled and disabled, servers are deleted and added again, and every call takes the steps of `Call`
and `processReq`, with its handler in a thread of its own. Every run of this system is one of
`Cluster` with the same votes, so what holds of all runs there holds here.

A call that `processReq` has given up may still have its handler run. For the cluster such a call
counts as sent until then, and is lost right after it.

## Main results

* `NetCluster.refines` — runs over the network are runs of the cluster
-/

namespace Csc512

namespace Raft

open Rpc

variable {n : ℕ}

/-! ### The system -/

/-- A call from one server to another. -/
abbrev PeerRequest (n : ℕ) (Q A : Type) := Request (Fin n × Fin n) (Fin n) (Fin n) Q A

/-- The goroutine that asks one peer for its vote. -/
inductive Goroutine (n : ℕ) where
  | calling (request : PeerRequest n (RequestVoteArgs n) RequestVoteReply)
  | done

/-- One run of `startElection`, with its goroutines. -/
structure NetCampaign (n : ℕ) where
  election : Election n
  goroutines : Fin n → Goroutine n

/-- The goroutines that `startElection` starts. -/
def NetCampaign.start (e : Election n) : NetCampaign n where
  election := e
  goroutines := fun peer =>
    if peer = e.me then .done else .calling { endname := (e.me, peer), args := e.args }

def NetCampaign.setGoroutine (camp : NetCampaign n) (peer : Fin n) (g : Goroutine n) :
    NetCampaign n :=
  { camp with goroutines := Function.update camp.goroutines peer g }

/-- The servers, the network between them, and the calls that were made. -/
structure NetCluster (n : ℕ) where
  servers : Fin n → Server n
  net : Network (Fin n × Fin n) (Fin n) (Fin n)
  campaigns : List (NetCampaign n)
  heartbeats : List (PeerRequest n (AppendEntriesArgs n) AppendEntriesReply)

/-- The servers after they were made, on a network as it is then. -/
def NetCluster.init (n : ℕ) (net : Network (Fin n × Fin n) (Fin n) (Fin n)) : NetCluster n where
  servers := fun _ => Server.make n
  net
  campaigns := []
  heartbeats := []

def NetCluster.setServer (d : NetCluster n) (i : Fin n) (rf : Server n) : NetCluster n :=
  { d with servers := Function.update d.servers i rf }

def NetCluster.setCampaign (d : NetCluster n) (k : ℕ) (camp : NetCampaign n) : NetCluster n :=
  { d with campaigns := d.campaigns.set k camp }

def NetCluster.setHeartbeat (d : NetCluster n) (k : ℕ)
    (r : PeerRequest n (AppendEntriesArgs n) AppendEntriesReply) : NetCluster n :=
  { d with heartbeats := d.heartbeats.set k r }

/-- The heartbeats of a leader. -/
def NetCluster.sendHeartbeats (d : NetCluster n) (i : Fin n) : NetCluster n :=
  { d with heartbeats := d.heartbeats ++
      (peersOf i).map fun peer => { endname := (i, peer), args := (d.servers i).heartbeat i } }

/-- The steps of the tickers, of the calls and their handlers, of the goroutines of an election
after their calls have returned, and of the network. -/
inductive NetAction (n : ℕ) where
  | timeout (i : Fin n)
  | heartbeat (i : Fin n)
  | moveVote (k : ℕ) (peer : Fin n) (m : Move)
  | handleVote (k : ℕ) (peer : Fin n)
  | recvVoteReply (k : ℕ) (peer : Fin n)
  | moveHeartbeat (k : ℕ) (m : Move)
  | handleHeartbeat (k : ℕ)
  | change (op : Rpc.Change (Fin n × Fin n) (Fin n) (Fin n))

/-- The call of a goroutine. -/
def NetCluster.voteRequest (d : NetCluster n) (k : ℕ) (peer : Fin n) :
    Option (NetCampaign n × PeerRequest n (RequestVoteArgs n) RequestVoteReply) :=
  match d.campaigns[k]? with
  | none => none
  | some camp =>
    match camp.goroutines peer with
    | .calling r => some (camp, r)
    | .done => none

/-- One step. -/
def NetCluster.step (d : NetCluster n) : NetAction n → Option (NetCluster n)
  | .timeout i =>
    if (d.servers i).state = .leader then none
    else
      let (rf, e) := (d.servers i).startElection i
      some { d.setServer i rf with campaigns := d.campaigns ++ [.start e] }
  | .heartbeat i =>
    if (d.servers i).state = .leader then some (d.sendHeartbeats i) else none
  | .moveVote k peer m =>
    match d.voteRequest k peer with
    | none => none
    | some (camp, r) =>
      (r.move d.net m).map fun r' => d.setCampaign k (camp.setGoroutine peer (.calling r'))
  | .handleVote k peer =>
    match d.voteRequest k peer with
    | none => none
    | some (camp, r) =>
      match r.handler with
      | .running route =>
        let (rf, reply) := (d.servers route.server).requestVote r.args
        some ((d.setServer route.server rf).setCampaign k
          (camp.setGoroutine peer (.calling { r with handler := .finished reply })))
      | _ => none
  | .recvVoteReply k peer =>
    match d.voteRequest k peer with
    | none => none
    | some (camp, r) =>
      match r.stage with
      | .returned (some reply) =>
        let me := camp.election.me
        let (rf, e) := (d.servers me).handleVoteReply camp.election reply
        some ((d.setServer me rf).setCampaign k
          { camp.setGoroutine peer .done with election := e })
      | _ => none
  | .moveHeartbeat k m =>
    match d.heartbeats[k]? with
    | none => none
    | some r => (r.move d.net m).map (d.setHeartbeat k)
  | .handleHeartbeat k =>
    match d.heartbeats[k]? with
    | none => none
    | some r =>
      match r.handler with
      | .running route =>
        let (rf, reply) := (d.servers route.server).appendEntries r.args
        some ((d.setServer route.server rf).setHeartbeat k { r with handler := .finished reply })
      | _ => none
  | .change op => (d.net.change op).map fun net => { d with net }

/-- The votes given in a step. -/
def NetCluster.ballots (d : NetCluster n) : NetAction n → List (Ballot (Fin n) (Fin n))
  | .timeout i => [⟨i, (d.servers i).currentTerm + 1, i⟩]
  | .handleVote k peer =>
    match d.voteRequest k peer with
    | none => []
    | some (_, r) =>
      match r.handler with
      | .running route =>
        let reply := ((d.servers route.server).requestVote r.args).2
        if reply.voteGranted then [⟨route.server, reply.term, r.args.candidateID⟩] else []
      | _ => []
  | _ => []

/-- The cluster over the network, observed through its ballots. -/
def NetCluster.system (n : ℕ) :
    ObservedSystem (NetCluster n) (NetAction n) (Ballot (Fin n) (Fin n)) where
  step := NetCluster.step
  observe := NetCluster.ballots

/-- The network is wired as `config.go` does it: end-point `(i, j)` is connected to server `j`, if
to any, and under that name stands server `j`, if any. -/
structure Wired (net : Network (Fin n × Fin n) (Fin n) (Fin n)) : Prop where
  connections : ∀ e name, net.connections e = some name → name = e.2
  servers : ∀ name server, net.servers name = some server → server = name

/-- The change of the network keeps to that. -/
def KeepsWiring (_d : NetCluster n) : NetAction n → Prop
  | .change (.connect e name) => name = e.2
  | .change (.addServer name server) => server = name
  | _ => True

instance (d : NetCluster n) (a : NetAction n) : Decidable (KeepsWiring d a) :=
  match a with
  | .change (.connect e name) => inferInstanceAs (Decidable (name = e.2))
  | .change (.addServer name server) => inferInstanceAs (Decidable (server = name))
  | .change (.makeEnd _) => isTrue trivial
  | .change (.deleteEnd _) => isTrue trivial
  | .change (.deleteServer _) => isTrue trivial
  | .change (.enable _ _) => isTrue trivial
  | .change (.reliable _) => isTrue trivial
  | .change .cleanup => isTrue trivial
  | .change .stop => isTrue trivial
  | .timeout _ => isTrue trivial
  | .heartbeat _ => isTrue trivial
  | .moveVote _ _ _ => isTrue trivial
  | .handleVote _ _ => isTrue trivial
  | .recvVoteReply _ _ => isTrue trivial
  | .moveHeartbeat _ _ => isTrue trivial
  | .handleHeartbeat _ => isTrue trivial

/-! ### What the cluster sees of a call -/

section View

variable {E N V Q A : Type}

/-- What the cluster sees of a call: it is sent as long as its handler may still run, and lost when
nothing can come of it any more. -/
def seen (r : Request E N V Q A) : Call A :=
  match r.handler, r.stage with
  | .idle, .sending => .sent
  | .idle, .taken => .sent
  | .idle, .admitted _ => .sent
  | .idle, _ => .done
  | .running _, _ => .sent
  | .finished reply, .waiting _ => .replied reply
  | .finished reply, .collected _ _ => .replied reply
  | .finished reply, .answering (some _) => .replied reply
  | .finished reply, .returned (some _) => .replied reply
  | .finished _, _ => .done

variable {net : Network E N V} {r r' : Request E N V Q A} {m : Move}

/-- The handler has run. -/
theorem seen_handle {route : Route N V} (hhandler : r.handler = .running route) (reply : A) :
    seen r = .sent ∧ (seen { r with handler := .finished reply } = .replied reply ∨
      seen { r with handler := .finished reply } = .done) := by
  refine ⟨by simp [seen, hhandler], ?_⟩
  simp only [seen]
  split <;> simp_all

theorem seen_returned {reply : A} (h : r.Coherent) (hstage : r.stage = .returned (some reply)) :
    seen r = .replied reply := by
  simp [seen, h.ran_of_returned hstage, hstage]

/-- A call of which nothing will come is lost, unless its handler still runs. -/
theorem seen_of_lost {stage : Stage N V A}
    (hstage : stage = .answering none ∨ stage = .returned none) :
    seen { r with stage } = seen r ∨ seen { r with stage } = .done := by
  rcases hhandler : r.handler with _ | route | reply <;> rcases hstage with rfl | rfl <;>
    simp [seen, hhandler]

/-- A step of `Call` or `processReq` is not seen, or the call is lost. -/
theorem seen_move [DecidableEq V] (h : r.Coherent) (hmove : r.Moves net m r') :
    seen r' = seen r ∨ seen r' = .done := by
  cases hmove with
  | refuse => exact seen_of_lost (.inr rfl)
  | dropRequest | abandon | answerNone | dropReply | timeUp => exact seen_of_lost (.inl rfl)
  | take hstage | accept hstage | dispatch hstage | unreachable hstage =>
    cases h <;> simp_all [seen]
  | collect hstage hhandler => exact .inl (by simp [seen, hstage, hhandler])
  | answer hstage =>
    cases h <;> simp_all [seen]
  | @«return» reply hstage =>
    rcases hhandler : r.handler with _ | route | reply' <;> rcases reply with _ | reply <;>
      simp [seen, hstage, hhandler]

end View

/-! ### Where calls go -/

section Routes

/-- A call on end-point `(i, j)` runs its handler at server `j`. -/
structure Routed {Q A : Type} (r : PeerRequest n Q A) : Prop where
  coherent : r.Coherent
  admitted : ∀ route, r.stage = .admitted route → route.server = r.endname.2
  running : ∀ route, r.handler = .running route → route.server = r.endname.2

variable {Q A : Type} {net : Network (Fin n × Fin n) (Fin n) (Fin n)} {r r' : PeerRequest n Q A}

theorem Wired.server_eq (h : Wired net) {e : Fin n × Fin n} {route : Route (Fin n) (Fin n)}
    (hroute : net.readEndnameInfo e = some route) : route.server = e.2 := by
  rw [Network.readEndnameInfo] at hroute
  split at hroute
  · obtain ⟨name, hname, hfound⟩ := Option.bind_eq_some_iff.mp hroute
    obtain ⟨server, hserver, rfl⟩ := Option.map_eq_some_iff.mp hfound
    exact (h.servers name server hserver).trans (h.connections e name hname)
  · cases hroute

theorem routed_new (endname : Fin n × Fin n) (args : Q) :
    Routed ({ endname, args } : PeerRequest n Q A) where
  coherent := .before rfl (.inl rfl)
  admitted _ h := by cases h
  running _ h := by cases h

theorem Routed.move (h : Routed r) (hwired : Wired net) {m : Move} (hmove : r.Moves net m r') :
    Routed r' ∧ r'.endname = r.endname ∧ r'.args = r.args := by
  refine ⟨⟨h.coherent.move hmove, ?_, ?_⟩, ?_⟩
  · cases hmove with
    | accept hstage hroute =>
      intro route heq
      cases heq
      exact hwired.server_eq hroute
    | _ => exact fun route heq => by cases heq
  · cases hmove with
    | dispatch hstage =>
      intro route heq
      cases heq
      exact h.admitted _ hstage
    | _ => exact h.running
  · cases hmove <;> exact ⟨rfl, rfl⟩

theorem Routed.handle (h : Routed r) {route : Route (Fin n) (Fin n)}
    (hhandler : r.handler = .running route) (reply : A) :
    Routed { r with handler := .finished reply } where
  coherent := h.coherent.handle hhandler reply
  admitted := h.admitted
  running _ heq := by cases heq

/-- What holds of every entry holds after one has changed, if it holds of that one. -/
theorem forall_update {κ ν : Type} [DecidableEq κ] {f : κ → Option ν} (P : κ → ν → Prop) (k : κ)
    (v : Option ν) (hf : ∀ x y, f x = some y → P x y) (hv : ∀ y, v = some y → P k y) (x : κ) (y : ν)
    (hxy : Function.update f k v x = some y) : P x y := by
  by_cases heq : x = k
  · subst heq
    rw [Function.update_self] at hxy
    exact hv y hxy
  · rw [Function.update_of_ne heq] at hxy
    exact hf x y hxy

theorem Wired.change (h : Wired net) {net' : Network (Fin n × Fin n) (Fin n) (Fin n)}
    {op : Rpc.Change (Fin n × Fin n) (Fin n) (Fin n)} (hop : net.change op = some net')
    (hconnect : ∀ e name, op = .connect e name → name = e.2)
    (hadd : ∀ name server, op = .addServer name server → server = name) : Wired net' := by
  cases op <;> simp only [Network.change] at hop
  case makeEnd e | deleteEnd e =>
    split at hop <;> cases hop
    exact ⟨forall_update (fun e name => name = e.2) e none h.connections
      (fun _ heq => by cases heq), h.servers⟩
  case addServer name server =>
    cases hop
    refine ⟨h.connections, forall_update (fun name server => server = name) name _ h.servers ?_⟩
    intro _ heq
    cases heq
    exact hadd name server rfl
  case deleteServer name =>
    cases hop
    exact ⟨h.connections, forall_update (fun name server => server = name) name none h.servers
      (fun _ heq => by cases heq)⟩
  case connect e name =>
    cases hop
    refine ⟨forall_update (fun e name => name = e.2) e _ h.connections ?_, h.servers⟩
    intro _ heq
    cases heq
    exact hconnect e name rfl
  case cleanup | stop =>
    split at hop <;> cases hop
    exact ⟨h.connections, h.servers⟩
  all_goals
    cases hop
    exact ⟨h.connections, h.servers⟩

end Routes

/-! ### The cluster that is seen -/

/-- What the cluster sees of a goroutine. -/
def Goroutine.seen : Goroutine n → Call RequestVoteReply
  | .calling r => Raft.seen r
  | .done => .done

/-- What the cluster sees of an election. -/
def NetCampaign.seen (camp : NetCampaign n) : Campaign n where
  election := camp.election
  calls := fun peer => (camp.goroutines peer).seen

/-- What the cluster sees of a heartbeat. -/
def heartbeatSeen (r : PeerRequest n (AppendEntriesArgs n) AppendEntriesReply) : HeartbeatCall n :=
  ⟨r.endname.2, r.args, seen r⟩

/-- The cluster that is seen over the network. -/
def NetCluster.seen (d : NetCluster n) : Cluster n where
  servers := d.servers
  campaigns := d.campaigns.map NetCampaign.seen
  heartbeats := d.heartbeats.map heartbeatSeen

/-- The calls go where they should, with the arguments of their election. -/
structure NetCluster.InOrder (d : NetCluster n) : Prop where
  wired : Wired d.net
  votes : ∀ camp ∈ d.campaigns, ∀ peer r, camp.goroutines peer = .calling r →
    Routed r ∧ r.endname.2 = peer ∧ r.args = camp.election.args
  heartbeats : ∀ r ∈ d.heartbeats, Routed r

theorem NetCluster.inOrder_init {net : Network (Fin n × Fin n) (Fin n) (Fin n)} (h : Wired net) :
    (NetCluster.init n net).InOrder where
  wired := h
  votes _ hcamp := absurd hcamp List.not_mem_nil
  heartbeats _ hr := absurd hr List.not_mem_nil

section Seen

variable {d d' : NetCluster n}

theorem NetCampaign.seen_start (e : Election n) :
    (NetCampaign.start e).seen = Campaign.start e := by
  have hcalls : (fun peer => ((NetCampaign.start e).goroutines peer).seen) =
      (Campaign.start e).calls := by
    funext peer
    simp only [start, Campaign.start]
    split <;> rfl
  exact congrArg (Campaign.mk e) hcalls

theorem NetCampaign.seen_setGoroutine (camp : NetCampaign n) (peer : Fin n) (g : Goroutine n) :
    (camp.setGoroutine peer g).seen = camp.seen.setCall peer g.seen := by
  have hcalls : (fun p => (Function.update camp.goroutines peer g p).seen) =
      Function.update camp.seen.calls peer g.seen := by
    funext p
    by_cases hp : p = peer
    · subst hp
      simp
    · simp [Function.update_of_ne hp, NetCampaign.seen]
  exact congrArg (Campaign.mk camp.election) hcalls

theorem NetCampaign.seen_setGoroutine_of_eq {camp : NetCampaign n} {peer : Fin n}
    {g : Goroutine n} (h : g.seen = (camp.goroutines peer).seen) :
    (camp.setGoroutine peer g).seen = camp.seen := by
  rw [seen_setGoroutine, Campaign.setCall]
  have hcalls : Function.update camp.seen.calls peer g.seen = camp.seen.calls := by
    rw [h]
    exact Function.update_eq_self peer camp.seen.calls
  rw [hcalls]

theorem NetCluster.seen_setCampaign (d : NetCluster n) (k : ℕ) (camp : NetCampaign n) :
    (d.setCampaign k camp).seen = d.seen.setCampaign k camp.seen := by
  simp [seen, setCampaign, Cluster.setCampaign, List.map_set]

theorem NetCluster.seen_setHeartbeat (d : NetCluster n) (k : ℕ)
    (r : PeerRequest n (AppendEntriesArgs n) AppendEntriesReply) :
    (d.setHeartbeat k r).seen = d.seen.setHeartbeat k (heartbeatSeen r) := by
  simp [seen, setHeartbeat, Cluster.setHeartbeat, List.map_set]

theorem NetCluster.seen_setServer (d : NetCluster n) (i : Fin n) (rf : Server n) :
    (d.setServer i rf).seen = d.seen.setServer i rf := rfl

theorem NetCluster.voteRequest_eq_some {k : ℕ} {peer : Fin n} {camp : NetCampaign n}
    {r : PeerRequest n (RequestVoteArgs n) RequestVoteReply}
    (h : d.voteRequest k peer = some (camp, r)) :
    d.campaigns[k]? = some camp ∧ camp.goroutines peer = .calling r := by
  simp only [voteRequest] at h
  split at h
  · cases h
  · rename_i camp' hk
    split at h
    · rename_i r' hr
      cases h
      exact ⟨hk, hr⟩
    · cases h

theorem Cluster.setCampaign_self {c : Cluster n} {k : ℕ} {camp : Campaign n}
    (h : c.campaigns[k]? = some camp) : c.setCampaign k camp = c := by
  have hset : c.campaigns.set k camp = c.campaigns := by
    obtain ⟨hlt, heq⟩ := List.getElem?_eq_some_iff.mp h
    rw [← heq, List.set_getElem_self]
  rw [setCampaign, hset]

theorem Cluster.setHeartbeat_self {c : Cluster n} {k : ℕ} {call : HeartbeatCall n}
    (h : c.heartbeats[k]? = some call) : c.setHeartbeat k call = c := by
  have hset : c.heartbeats.set k call = c.heartbeats := by
    obtain ⟨hlt, heq⟩ := List.getElem?_eq_some_iff.mp h
    rw [← heq, List.set_getElem_self]
  rw [setHeartbeat, hset]

end Seen

/-! ### What each action does -/

/-- The steps that are possible, one constructor for each action, with what it found and the votes
it gives. -/
inductive NetCluster.Step (d : NetCluster n) :
    NetAction n → List (Ballot (Fin n) (Fin n)) → NetCluster n → Prop
  | timeout (i : Fin n) (hstate : (d.servers i).state ≠ .leader) :
      Step d (.timeout i) [⟨i, (d.servers i).currentTerm + 1, i⟩]
        { d.setServer i ((d.servers i).startElection i).1 with
          campaigns := d.campaigns ++ [.start ((d.servers i).startElection i).2] }
  | heartbeat (i : Fin n) (hstate : (d.servers i).state = .leader) :
      Step d (.heartbeat i) [] (d.sendHeartbeats i)
  | moveVote {k : ℕ} {peer : Fin n} {m : Move} {camp : NetCampaign n}
      {r r' : PeerRequest n (RequestVoteArgs n) RequestVoteReply}
      (hk : d.campaigns[k]? = some camp) (hr : camp.goroutines peer = .calling r)
      (hmove : r.Moves d.net m r') :
      Step d (.moveVote k peer m) [] (d.setCampaign k (camp.setGoroutine peer (.calling r')))
  | handleVote {k : ℕ} {peer : Fin n} {camp : NetCampaign n}
      {r : PeerRequest n (RequestVoteArgs n) RequestVoteReply} {route : Route (Fin n) (Fin n)}
      (hk : d.campaigns[k]? = some camp) (hr : camp.goroutines peer = .calling r)
      (hhandler : r.handler = .running route) :
      Step d (.handleVote k peer)
        (if ((d.servers route.server).requestVote r.args).2.voteGranted then
          [⟨route.server, ((d.servers route.server).requestVote r.args).2.term,
            r.args.candidateID⟩] else [])
        ((d.setServer route.server ((d.servers route.server).requestVote r.args).1).setCampaign k
          (camp.setGoroutine peer (.calling { r with
            handler := .finished ((d.servers route.server).requestVote r.args).2 })))
  | recvVoteReply {k : ℕ} {peer : Fin n} {camp : NetCampaign n}
      {r : PeerRequest n (RequestVoteArgs n) RequestVoteReply} {reply : RequestVoteReply}
      (hk : d.campaigns[k]? = some camp) (hr : camp.goroutines peer = .calling r)
      (hstage : r.stage = .returned (some reply)) :
      Step d (.recvVoteReply k peer) []
        ((d.setServer camp.election.me
            ((d.servers camp.election.me).handleVoteReply camp.election reply).1).setCampaign k
          { camp.setGoroutine peer .done with
            election := ((d.servers camp.election.me).handleVoteReply camp.election reply).2 })
  | moveHeartbeat {k : ℕ} {m : Move}
      {r r' : PeerRequest n (AppendEntriesArgs n) AppendEntriesReply}
      (hk : d.heartbeats[k]? = some r) (hmove : r.Moves d.net m r') :
      Step d (.moveHeartbeat k m) [] (d.setHeartbeat k r')
  | handleHeartbeat {k : ℕ} {r : PeerRequest n (AppendEntriesArgs n) AppendEntriesReply}
      {route : Route (Fin n) (Fin n)} (hk : d.heartbeats[k]? = some r)
      (hhandler : r.handler = .running route) :
      Step d (.handleHeartbeat k) []
        ((d.setServer route.server
            ((d.servers route.server).appendEntries r.args).1).setHeartbeat k
          { r with handler := .finished ((d.servers route.server).appendEntries r.args).2 })
  | change {op : Rpc.Change (Fin n × Fin n) (Fin n) (Fin n)}
      {net : Network (Fin n × Fin n) (Fin n) (Fin n)} (hop : d.net.change op = some net) :
      Step d (.change op) [] { d with net }

theorem NetCluster.Step.of_step {d d' : NetCluster n} {a : NetAction n} (h : d.step a = some d') :
    NetCluster.Step d a (d.ballots a) d' := by
  cases a with
  | timeout i =>
    simp only [step] at h
    split at h
    · cases h
    · rename_i hstate
      cases h
      exact .timeout i hstate
  | heartbeat i =>
    simp only [step] at h
    split at h
    · rename_i hstate
      cases h
      exact .heartbeat i hstate
    · cases h
  | moveVote k peer m =>
    simp only [step] at h
    split at h
    · cases h
    · rename_i camp r hfound
      obtain ⟨hk, hr⟩ := voteRequest_eq_some hfound
      obtain ⟨r', hmove, rfl⟩ := Option.map_eq_some_iff.mp h
      exact .moveVote hk hr (.of_move hmove)
  | handleVote k peer =>
    simp only [step] at h
    split at h
    · cases h
    · rename_i camp r hfound
      obtain ⟨hk, hr⟩ := voteRequest_eq_some hfound
      split at h
      · rename_i route hhandler
        cases h
        simp only [ballots, hfound, hhandler]
        exact .handleVote hk hr hhandler
      · cases h
  | recvVoteReply k peer =>
    simp only [step] at h
    split at h
    · cases h
    · rename_i camp r hfound
      obtain ⟨hk, hr⟩ := voteRequest_eq_some hfound
      split at h
      · rename_i reply hstage
        cases h
        exact .recvVoteReply hk hr hstage
      · cases h
  | moveHeartbeat k m =>
    simp only [step] at h
    split at h
    · cases h
    · rename_i r hk
      obtain ⟨r', hmove, rfl⟩ := Option.map_eq_some_iff.mp h
      exact .moveHeartbeat hk (.of_move hmove)
  | handleHeartbeat k =>
    simp only [step] at h
    split at h
    · cases h
    · rename_i r hk
      split at h
      · rename_i route hhandler
        cases h
        exact .handleHeartbeat hk hhandler
      · cases h
  | change op =>
    obtain ⟨net, hop, rfl⟩ := Option.map_eq_some_iff.mp h
    exact .change hop

/-! ### Every step is one of the cluster -/

section Match

variable {d : NetCluster n}

theorem NetCluster.InOrder.setCampaign (h : d.InOrder) {k : ℕ} {camp : NetCampaign n}
    {servers : Fin n → Server n} (hcamp : ∀ peer r, camp.goroutines peer = .calling r →
      Routed r ∧ r.endname.2 = peer ∧ r.args = camp.election.args) :
    ({ d with servers, campaigns := d.campaigns.set k camp } : NetCluster n).InOrder where
  wired := h.wired
  votes camp' hcamp' := by
    rcases List.mem_or_eq_of_mem_set hcamp' with hold | rfl
    · exact h.votes camp' hold
    · exact hcamp
  heartbeats := h.heartbeats

theorem NetCluster.InOrder.setHeartbeat (h : d.InOrder) {k : ℕ}
    {r : PeerRequest n (AppendEntriesArgs n) AppendEntriesReply} {servers : Fin n → Server n}
    (hr : Routed r) :
    ({ d with servers, heartbeats := d.heartbeats.set k r } : NetCluster n).InOrder where
  wired := h.wired
  votes := h.votes
  heartbeats r' hr' := by
    rcases List.mem_or_eq_of_mem_set hr' with hold | rfl
    · exact h.heartbeats r' hold
    · exact hr

/-- One goroutine goes on with its call. -/
theorem NetCluster.InOrder.setGoroutine (h : d.InOrder) {k : ℕ} {camp : NetCampaign n}
    (hk : d.campaigns[k]? = some camp) {peer : Fin n} {servers : Fin n → Server n}
    {r : PeerRequest n (RequestVoteArgs n) RequestVoteReply} (hr : Routed r)
    (hend : r.endname.2 = peer) (hargs : r.args = camp.election.args) :
    ({ d with
      servers
      campaigns := d.campaigns.set k (camp.setGoroutine peer (.calling r)) } :
        NetCluster n).InOrder := by
  refine h.setCampaign fun p r' hr' => ?_
  by_cases hp : p = peer
  · subst hp
    simp only [NetCampaign.setGoroutine, Function.update_self, Goroutine.calling.injEq] at hr'
    exact hr' ▸ ⟨hr, hend, hargs⟩
  · simp only [NetCampaign.setGoroutine, Function.update_of_ne hp] at hr'
    exact h.votes camp (List.mem_of_getElem? hk) p r' hr'

theorem Cluster.steps_of_step {c c' : Cluster n} {a : Action n} (h : c.step a = some c') :
    (Cluster.system n).Steps ObservedSystem.always c (c.ballots a) c' :=
  ObservedSystem.Steps.single h trivial

/-- The call of a goroutine is seen as before, or lost. -/
theorem NetCluster.steps_setGoroutine {k : ℕ} {camp : NetCampaign n} {peer : Fin n}
    {r r' : PeerRequest n (RequestVoteArgs n) RequestVoteReply}
    (hk : d.campaigns[k]? = some camp) (hr : camp.goroutines peer = .calling r)
    (hseen : Raft.seen r' = Raft.seen r ∨ Raft.seen r' = .done) :
    (Cluster.system n).Steps ObservedSystem.always d.seen []
      (d.setCampaign k (camp.setGoroutine peer (.calling r'))).seen := by
  have hk' : d.seen.campaigns[k]? = some camp.seen := by simp [seen, hk]
  rw [seen_setCampaign]
  rcases hseen with hsame | hlost
  · rw [NetCampaign.seen_setGoroutine_of_eq (by rw [hr]; exact hsame),
      Cluster.setCampaign_self hk']
    exact .refl _
  · rw [NetCampaign.seen_setGoroutine]
    have hstep : d.seen.step (.loseVoteCall k peer) =
        some (d.seen.setCampaign k (camp.seen.setCall peer .done)) := by
      simp only [Cluster.step, hk']
    show ObservedSystem.Steps _ _ _ _ (d.seen.setCampaign k (camp.seen.setCall peer (Raft.seen r')))
    rw [hlost]
    exact Cluster.steps_of_step hstep

/-- A call that has been replied to is lost. -/
theorem Cluster.steps_lose {c : Cluster n} {k : ℕ} (hk : k < c.campaigns.length) (camp : Campaign n)
    (peer : Fin n) (call : Call RequestVoteReply) :
    (Cluster.system n).Steps ObservedSystem.always (c.setCampaign k (camp.setCall peer call)) []
      (c.setCampaign k (camp.setCall peer .done)) := by
  have hget : (c.setCampaign k (camp.setCall peer call)).campaigns[k]? =
      some (camp.setCall peer call) := by
    simp [setCampaign, hk]
  have hstep : (c.setCampaign k (camp.setCall peer call)).step (.loseVoteCall k peer) =
      some (c.setCampaign k (camp.setCall peer .done)) := by
    simp only [step, hget]
    simp [setCampaign, Campaign.setCall]
  exact Cluster.steps_of_step hstep

theorem Cluster.steps_loseHeartbeat {c : Cluster n} {k : ℕ} (hk : k < c.heartbeats.length)
    (call : HeartbeatCall n) :
    (Cluster.system n).Steps ObservedSystem.always (c.setHeartbeat k call) []
      (c.setHeartbeat k { call with status := .done }) := by
  have hget : (c.setHeartbeat k call).heartbeats[k]? = some call := by simp [setHeartbeat, hk]
  have hstep : (c.setHeartbeat k call).step (.loseHeartbeat k) =
      some (c.setHeartbeat k { call with status := .done }) := by
    simp only [step, hget]
    simp [setHeartbeat]
  exact Cluster.steps_of_step hstep

/-- The handler of a vote request runs: the request arrives, and its reply may be lost at once. -/
theorem NetCluster.steps_handleVote {k : ℕ} {camp : NetCampaign n} {peer : Fin n}
    {r : PeerRequest n (RequestVoteArgs n) RequestVoteReply} {route : Route (Fin n) (Fin n)}
    (hk : d.campaigns[k]? = some camp) (hr : camp.goroutines peer = .calling r)
    (hhandler : r.handler = .running route) (hserver : route.server = peer)
    (hargs : r.args = camp.election.args) :
    (Cluster.system n).Steps ObservedSystem.always d.seen
      (if ((d.servers route.server).requestVote r.args).2.voteGranted then
        [⟨route.server, ((d.servers route.server).requestVote r.args).2.term,
          r.args.candidateID⟩] else [])
      ((d.setServer route.server ((d.servers route.server).requestVote r.args).1).setCampaign k
        (camp.setGoroutine peer (.calling { r with
          handler := .finished ((d.servers route.server).requestVote r.args).2 }))).seen := by
  subst hserver
  have hk' : d.seen.campaigns[k]? = some camp.seen := by simp [seen, hk]
  have hlt : k < d.seen.campaigns.length := (List.getElem?_eq_some_iff.mp hk').1
  obtain ⟨hsent, hafter⟩ := seen_handle hhandler ((d.servers route.server).requestVote r.args).2
  have hcall : camp.seen.calls route.server = .sent := by
    show (camp.goroutines route.server).seen = _
    rw [hr]
    exact hsent
  have hstep : d.seen.step (.recvRequestVote k route.server) =
      some ((d.seen.setServer route.server
        ((d.servers route.server).requestVote r.args).1).setCampaign k
          (camp.seen.setCall route.server
            (.replied ((d.servers route.server).requestVote r.args).2))) := by
    simp only [Cluster.step, hk', hcall, hargs]
    rfl
  have hballots : d.seen.ballots (.recvRequestVote k route.server) =
      if ((d.servers route.server).requestVote r.args).2.voteGranted then
        [⟨route.server, ((d.servers route.server).requestVote r.args).2.term,
          r.args.candidateID⟩] else [] := by
    simp only [Cluster.ballots, hk', hargs]
    rfl
  have hrecv := Cluster.steps_of_step hstep
  rw [hballots] at hrecv
  rw [seen_setCampaign, seen_setServer, NetCampaign.seen_setGoroutine]
  rcases hafter with hreplied | hlost
  · show ObservedSystem.Steps _ _ _ _ ((d.seen.setServer _ _).setCampaign k
      (camp.seen.setCall route.server (Raft.seen _)))
    rw [hreplied]
    exact hrecv
  · show ObservedSystem.Steps _ _ _ _ ((d.seen.setServer _ _).setCampaign k
      (camp.seen.setCall route.server (Raft.seen _)))
    rw [hlost]
    have hlose := hrecv.trans (Cluster.steps_lose (c := d.seen.setServer _ _) hlt _ _ _)
    rwa [List.append_nil] at hlose

/-- A heartbeat is seen as before, or lost. -/
theorem NetCluster.steps_setHeartbeat {k : ℕ}
    {r r' : PeerRequest n (AppendEntriesArgs n) AppendEntriesReply}
    (hk : d.heartbeats[k]? = some r) (hend : r'.endname = r.endname) (hargs : r'.args = r.args)
    (hseen : Raft.seen r' = Raft.seen r ∨ Raft.seen r' = .done) :
    (Cluster.system n).Steps ObservedSystem.always d.seen [] (d.setHeartbeat k r').seen := by
  have hk' : d.seen.heartbeats[k]? = some (heartbeatSeen r) := by simp [seen, hk]
  have hlt : k < d.seen.heartbeats.length := (List.getElem?_eq_some_iff.mp hk').1
  have hsame : d.seen.setHeartbeat k (heartbeatSeen r) = d.seen := Cluster.setHeartbeat_self hk'
  have hr' : heartbeatSeen r' = { heartbeatSeen r with status := Raft.seen r' } := by
    simp only [heartbeatSeen, hend, hargs]
  rw [seen_setHeartbeat, hr']
  rcases hseen with heq | hlost
  · rw [heq]
    show ObservedSystem.Steps _ _ _ _ (d.seen.setHeartbeat k (heartbeatSeen r))
    rw [hsame]
    exact .refl _
  · rw [hlost]
    have hlose := Cluster.steps_loseHeartbeat hlt (heartbeatSeen r)
    rwa [hsame] at hlose

/-- The handler of a heartbeat runs. -/
theorem NetCluster.steps_handleHeartbeat {k : ℕ}
    {r : PeerRequest n (AppendEntriesArgs n) AppendEntriesReply} {route : Route (Fin n) (Fin n)}
    (hk : d.heartbeats[k]? = some r) (hhandler : r.handler = .running route)
    (hserver : route.server = r.endname.2) :
    (Cluster.system n).Steps ObservedSystem.always d.seen []
      ((d.setServer route.server ((d.servers route.server).appendEntries r.args).1).setHeartbeat k
        { r with
          handler := .finished ((d.servers route.server).appendEntries r.args).2 }).seen := by
  rw [hserver]
  have hk' : d.seen.heartbeats[k]? = some (heartbeatSeen r) := by simp [seen, hk]
  have hlt : k < d.seen.heartbeats.length := (List.getElem?_eq_some_iff.mp hk').1
  obtain ⟨hsent, hafter⟩ := seen_handle hhandler ((d.servers r.endname.2).appendEntries r.args).2
  have hstep : d.seen.step (.recvAppendEntries k) =
      some ((d.seen.setServer r.endname.2
        ((d.servers r.endname.2).appendEntries r.args).1).setHeartbeat k
          { heartbeatSeen r with
            status := .replied ((d.servers r.endname.2).appendEntries r.args).2 }) := by
    simp only [Cluster.step, hk', heartbeatSeen, hsent]
    rfl
  have hrecv : (Cluster.system n).Steps ObservedSystem.always d.seen [] _ :=
    Cluster.steps_of_step hstep
  rw [seen_setHeartbeat, seen_setServer]
  rcases hafter with hreplied | hlost
  · simp only [heartbeatSeen, hreplied]
    exact hrecv
  · simp only [heartbeatSeen, hlost]
    exact hrecv.trans (Cluster.steps_loseHeartbeat (c := d.seen.setServer _ _) hlt
      { heartbeatSeen r with
        status := .replied ((d.servers r.endname.2).appendEntries r.args).2 })

theorem Server.args_handleVoteReply (rf : Server n) (e : Election n) (reply : RequestVoteReply) :
    (rf.handleVoteReply e reply).2.args = e.args := by
  rcases rf.handleVoteReply_election e reply with heq | ⟨-, heq⟩
  · rw [heq]
  · rw [heq]
    rfl

/-- **One step over the network** is none, one or two steps of the cluster, with the same votes. -/
theorem NetCluster.InOrder.step (h : d.InOrder) {d' : NetCluster n} {a : NetAction n}
    (hstep : d.step a = some d') (hwiring : KeepsWiring d a) :
    d'.InOrder ∧
      (Cluster.system n).Steps ObservedSystem.always d.seen (d.ballots a) d'.seen := by
  have hcases := NetCluster.Step.of_step hstep
  generalize d.ballots a = bs at hcases ⊢
  cases hcases with
  | timeout i hstate =>
    refine ⟨⟨h.wired, fun camp hcamp peer r hr => ?_, h.heartbeats⟩, ?_⟩
    · rcases List.mem_append.mp hcamp with hold | hnew
      · exact h.votes camp hold peer r hr
      · obtain rfl := List.mem_singleton.mp hnew
        simp only [NetCampaign.start] at hr
        split at hr
        · cases hr
        · cases hr
          exact ⟨routed_new _ _, rfl, rfl⟩
    · have habs : d.seen.step (.timeout i) = some { d.seen.setServer i
          ((d.servers i).startElection i).1 with
            campaigns := d.seen.campaigns ++ [.start ((d.servers i).startElection i).2] } := by
        simp only [Cluster.step]
        exact if_neg hstate
      have hsteps := Cluster.steps_of_step habs
      rw [← NetCampaign.seen_start] at hsteps
      have hcamps :
          d.seen.campaigns ++ [(NetCampaign.start ((d.servers i).startElection i).2).seen] =
          (d.campaigns ++ [NetCampaign.start ((d.servers i).startElection i).2]).map
            NetCampaign.seen := by
        simp [seen]
      rw [hcamps] at hsteps
      exact hsteps
  | heartbeat i hstate =>
    refine ⟨⟨h.wired, h.votes, fun r hr => ?_⟩, ?_⟩
    · rcases List.mem_append.mp hr with hold | hnew
      · exact h.heartbeats r hold
      · obtain ⟨peer, -, rfl⟩ := List.mem_map.mp hnew
        exact routed_new _ _
    · have habs : d.seen.step (.heartbeat i) = some (d.seen.sendHeartbeats i) := if_pos hstate
      have hseen : (d.sendHeartbeats i).seen = d.seen.sendHeartbeats i := by
        simp [seen, sendHeartbeats, Cluster.sendHeartbeats, heartbeatSeen, Raft.seen]
      rw [hseen]
      exact Cluster.steps_of_step habs
  | moveVote hk hr hmove =>
    obtain ⟨hrouted, hend, hargs⟩ := h.votes _ (List.mem_of_getElem? hk) _ _ hr
    obtain ⟨hrouted', hend', hargs'⟩ := hrouted.move h.wired hmove
    exact ⟨h.setGoroutine hk hrouted' (hend' ▸ hend) (hargs' ▸ hargs),
      steps_setGoroutine hk hr (seen_move hrouted.coherent hmove)⟩
  | handleVote hk hr hhandler =>
    obtain ⟨hrouted, hend, hargs⟩ := h.votes _ (List.mem_of_getElem? hk) _ _ hr
    exact ⟨h.setGoroutine hk (hrouted.handle hhandler _) hend hargs,
      steps_handleVote hk hr hhandler ((hrouted.running _ hhandler).trans hend) hargs⟩
  | @recvVoteReply k peer camp r reply hk hr hstage =>
    obtain ⟨hrouted, -, -⟩ := h.votes _ (List.mem_of_getElem? hk) _ _ hr
    refine ⟨h.setCampaign fun p r' hr' => ?_, ?_⟩
    · by_cases hp : p = peer
      · subst hp
        simp [NetCampaign.setGoroutine] at hr'
      · simp only [NetCampaign.setGoroutine, Function.update_of_ne hp] at hr'
        obtain ⟨hrouted', hend', hargs'⟩ := h.votes _ (List.mem_of_getElem? hk) p r' hr'
        exact ⟨hrouted', hend', hargs'.trans (Server.args_handleVoteReply _ _ _).symm⟩
    · have hk' : d.seen.campaigns[k]? = some camp.seen := by simp [seen, hk]
      have hcall : camp.seen.calls peer = .replied reply := by
        show (camp.goroutines peer).seen = _
        rw [hr]
        exact seen_returned hrouted.coherent hstage
      have habs : d.seen.step (.recvVoteReply k peer) = some
          ((d.seen.setServer camp.election.me
            ((d.servers camp.election.me).handleVoteReply camp.election reply).1).setCampaign k
              { camp.seen.setCall peer .done with
                election :=
                  ((d.servers camp.election.me).handleVoteReply camp.election reply).2 }) := by
        simp only [Cluster.step, hk', hcall]
        rfl
      have hseen : ({ camp.setGoroutine peer .done with
          election := ((d.servers camp.election.me).handleVoteReply camp.election reply).2 } :
            NetCampaign n).seen = { camp.seen.setCall peer .done with
              election := ((d.servers camp.election.me).handleVoteReply camp.election reply).2 } :=
        congrArg (fun c : Campaign n => { c with
            election := ((d.servers camp.election.me).handleVoteReply camp.election reply).2 })
          (NetCampaign.seen_setGoroutine camp peer .done)
      rw [seen_setCampaign, seen_setServer, hseen]
      exact Cluster.steps_of_step habs
  | moveHeartbeat hk hmove =>
    have hrouted := h.heartbeats _ (List.mem_of_getElem? hk)
    obtain ⟨hrouted', hend, hargs⟩ := hrouted.move h.wired hmove
    exact ⟨h.setHeartbeat hrouted',
      steps_setHeartbeat hk hend hargs (seen_move hrouted.coherent hmove)⟩
  | handleHeartbeat hk hhandler =>
    have hrouted := h.heartbeats _ (List.mem_of_getElem? hk)
    exact ⟨h.setHeartbeat (hrouted.handle hhandler _),
      steps_handleHeartbeat hk hhandler (hrouted.running _ hhandler)⟩
  | @change op net hop =>
    refine ⟨⟨h.wired.change hop ?_ ?_, h.votes, h.heartbeats⟩, .refl _⟩
    · rintro e name rfl
      exact hwiring
    · rintro name server rfl
      exact hwiring

end Match

/-- **The network refines the cluster.** Whatever happens to calls and end-points, and whatever
servers are deleted and added again, every run over the network is a run of the cluster, with the
same votes and the servers in the same states. -/
theorem NetCluster.refines {d : NetCluster n} {bs : List (Ballot (Fin n) (Fin n))}
    {net : Network (Fin n × Fin n) (Fin n) (Fin n)} (hwired : Wired net)
    (h : (NetCluster.system n).Steps KeepsWiring (NetCluster.init n net) bs d) :
    ∃ c, (Cluster.system n).Steps ObservedSystem.always (Cluster.init n) bs c ∧
      c.servers = d.servers ∧
      c.campaigns.map Campaign.election = d.campaigns.map NetCampaign.election :=
  ⟨d.seen, (h.simulate NetCluster.seen (NetCluster.inOrder_init hwired) fun hI hstep hok =>
    hI.step hstep hok).2, rfl, by simp [seen, NetCampaign.seen, Function.comp_def]⟩

theorem wired_empty : Wired ({} : Network (Fin n × Fin n) (Fin n) (Fin n)) where
  connections _ _ h := by cases h
  servers _ _ h := by cases h

/-- Server 0 asks server 1 for its vote; the end-point is disabled while the handler waits, and the
call is given up before the vote is given. -/
def abandonedVote : List (NetAction 3) :=
  [.change (.makeEnd (0, 1)), .change (.addServer 1 1), .change (.connect (0, 1) 1),
    .change (.enable (0, 1) true), .timeout 0, .moveVote 0 1 .take, .moveVote 0 1 .read,
    .moveVote 0 1 .dispatch, .change (.enable (0, 1) false), .moveVote 0 1 .abandon,
    .moveVote 0 1 .return, .handleVote 0 1]

theorem NetCluster.refines_abandonedVote :
    let run := ((NetCluster.system 3).exec KeepsWiring (NetCluster.init 3 {}) abandonedVote).get
      (by decide)
    ∃ c, (Cluster.system 3).Steps ObservedSystem.always (Cluster.init 3) run.1 c ∧
      c.servers = run.2.servers ∧
      c.campaigns.map Campaign.election = run.2.campaigns.map NetCampaign.election :=
  NetCluster.refines wired_empty (ObservedSystem.steps_get_exec (by decide))

end Raft

end Csc512
