import Csc512.Raft.Server
import Mathlib.Algebra.GroupWithZero.Nat
import Mathlib.Data.List.FinRange

/-!
# A Raft cluster and its network

The servers, and every remote call that has been started. `labrpc` delivers a request at most
once and a reply at most once, in any order and after any delay, and may lose either; a call
therefore goes from `sent` to `replied` to `done`, and a loss is the jump to `done`.

The goroutines one `startElection` starts share the captured variables of that call, so they are
kept together: a `Campaign` is an `Election` with the state of its call to each peer. A server may
have any number of campaigns open at once. The reply of a heartbeat is received and thrown away,
as in `ticker`.

## Main definitions

* `Cluster.step` — one ticker event, delivery or loss; the scheduler picks the action
* `Cluster.ballots` — the votes given in a step: granted `RequestVote` replies and a candidate's
  vote for itself
* `Cluster.system` — the cluster as a system observed through its ballots

## Main results

* `Cluster.Step.of_step` — what each enabled action does, as one case analysis
* `Cluster.votingSystem` — the cluster is a system of voters
-/

namespace Csc512

namespace Raft

/-- A constant, which the runs of three servers refer to. -/
instance neZeroThree : NeZero (3 : ℕ) := ⟨by decide⟩

variable {n : ℕ}

/-- The progress of one remote call. -/
inductive Call (ρ : Type) where
  | sent
  | replied (reply : ρ)
  | done
  deriving DecidableEq

/-- One run of `startElection`: its captured variables and its call to each peer. -/
structure Campaign (n : ℕ) where
  election : Election n
  calls : Fin n → Call RequestVoteReply

/-- One heartbeat in flight. -/
structure HeartbeatCall (n : ℕ) where
  peer : Fin n
  args : AppendEntriesArgs n
  status : Call AppendEntriesReply

structure Cluster (n : ℕ) where
  servers : Fin n → Server n
  campaigns : List (Campaign n)
  heartbeats : List (HeartbeatCall n)

/-- The cluster after every server was made. -/
def Cluster.init (n : ℕ) : Cluster n where
  servers := fun _ => Server.make n
  campaigns := []
  heartbeats := []

/-- The choices of the scheduler and of the network. A campaign and a heartbeat are named by their
position, in the order in which they were started. -/
inductive Action (n : ℕ) where
  | timeout (i : Fin n)
  | heartbeat (i : Fin n)
  | recvRequestVote (k : ℕ) (peer : Fin n)
  | recvVoteReply (k : ℕ) (peer : Fin n)
  | loseVoteCall (k : ℕ) (peer : Fin n)
  | recvAppendEntries (k : ℕ)
  | recvAppendReply (k : ℕ)
  | loseHeartbeat (k : ℕ)

/-- Every server but `i`, in the order of `rf.peers`. -/
def peersOf (i : Fin n) : List (Fin n) := (List.finRange n).filter (· ≠ i)

/-- The campaign `startElection` opens: a call to every peer, none to the candidate itself. -/
def Campaign.start (e : Election n) : Campaign n where
  election := e
  calls := fun peer => if peer = e.me then .done else .sent

def Campaign.setCall (camp : Campaign n) (peer : Fin n) (call : Call RequestVoteReply) :
    Campaign n :=
  { camp with calls := Function.update camp.calls peer call }

def Cluster.setServer (c : Cluster n) (i : Fin n) (rf : Server n) : Cluster n :=
  { c with servers := Function.update c.servers i rf }

def Cluster.setCampaign (c : Cluster n) (k : ℕ) (camp : Campaign n) : Cluster n :=
  { c with campaigns := c.campaigns.set k camp }

def Cluster.setHeartbeat (c : Cluster n) (k : ℕ) (call : HeartbeatCall n) : Cluster n :=
  { c with heartbeats := c.heartbeats.set k call }

/-- The heartbeats of a leader, to every peer and with the leader's current term. -/
def Cluster.sendHeartbeats (c : Cluster n) (i : Fin n) : Cluster n where
  servers := c.servers
  campaigns := c.campaigns
  heartbeats := c.heartbeats ++
    (peersOf i).map fun peer => ⟨peer, (c.servers i).heartbeat i, .sent⟩

/-- One step of the cluster. -/
def Cluster.step (c : Cluster n) : Action n → Option (Cluster n)
  | .timeout i =>
    -- `ticker` looks at the timer only when the server is not leader
    if (c.servers i).state = .leader then none
    else
      let (rf, e) := (c.servers i).startElection i
      some { c.setServer i rf with campaigns := c.campaigns ++ [.start e] }
  | .heartbeat i =>
    if (c.servers i).state = .leader then some (c.sendHeartbeats i) else none
  | .recvRequestVote k peer =>
    match c.campaigns[k]? with
    | none => none
    | some camp =>
      match camp.calls peer with
      | .sent =>
        let (rf, reply) := (c.servers peer).requestVote camp.election.args
        some ((c.setServer peer rf).setCampaign k (camp.setCall peer (.replied reply)))
      | _ => none
  | .recvVoteReply k peer =>
    match c.campaigns[k]? with
    | none => none
    | some camp =>
      match camp.calls peer with
      | .replied reply =>
        let me := camp.election.me
        let (rf, e) := (c.servers me).handleVoteReply camp.election reply
        some ((c.setServer me rf).setCampaign k { camp.setCall peer .done with election := e })
      | _ => none
  | .loseVoteCall k peer =>
    match c.campaigns[k]? with
    | none => none
    | some camp => some (c.setCampaign k (camp.setCall peer .done))
  | .recvAppendEntries k =>
    match c.heartbeats[k]? with
    | none => none
    | some call =>
      match call.status with
      | .sent =>
        let (rf, reply) := (c.servers call.peer).appendEntries call.args
        some ((c.setServer call.peer rf).setHeartbeat k { call with status := .replied reply })
      | _ => none
  | .recvAppendReply k =>
    match c.heartbeats[k]? with
    | none => none
    | some call =>
      match call.status with
      | .replied _ => some (c.setHeartbeat k { call with status := .done })
      | _ => none
  | .loseHeartbeat k =>
    match c.heartbeats[k]? with
    | none => none
    | some call => some (c.setHeartbeat k { call with status := .done })

/-- The votes given in a step: a candidate's own, and every granted request. -/
def Cluster.ballots (c : Cluster n) : Action n → List (Ballot (Fin n) (Fin n))
  | .timeout i => [⟨i, (c.servers i).currentTerm + 1, i⟩]
  | .recvRequestVote k peer =>
    match c.campaigns[k]? with
    | none => []
    | some camp =>
      let reply := ((c.servers peer).requestVote camp.election.args).2
      if reply.voteGranted then [⟨peer, reply.term, camp.election.me⟩] else []
  | _ => []

/-- The cluster, observed through its ballots. -/
def Cluster.system (n : ℕ) : ObservedSystem (Cluster n) (Action n) (Ballot (Fin n) (Fin n)) where
  step := Cluster.step
  observe := Cluster.ballots

/-! ### What each action does -/

/-- The enabled steps, one constructor for each action, with what the action found. -/
inductive Cluster.Step (c : Cluster n) : Action n → Cluster n → Prop
  | timeout (i : Fin n) (hstate : (c.servers i).state ≠ .leader) :
      Step c (.timeout i) { c.setServer i ((c.servers i).startElection i).1 with
        campaigns := c.campaigns ++ [.start ((c.servers i).startElection i).2] }
  | heartbeat (i : Fin n) (hstate : (c.servers i).state = .leader) :
      Step c (.heartbeat i) (c.sendHeartbeats i)
  | recvRequestVote {k : ℕ} {peer : Fin n} {camp : Campaign n} (hk : c.campaigns[k]? = some camp)
      (hcall : camp.calls peer = .sent) :
      Step c (.recvRequestVote k peer)
        ((c.setServer peer ((c.servers peer).requestVote camp.election.args).1).setCampaign k
          (camp.setCall peer (.replied ((c.servers peer).requestVote camp.election.args).2)))
  | recvVoteReply {k : ℕ} {peer : Fin n} {camp : Campaign n} {reply : RequestVoteReply}
      (hk : c.campaigns[k]? = some camp) (hcall : camp.calls peer = .replied reply) :
      Step c (.recvVoteReply k peer)
        ((c.setServer camp.election.me
            ((c.servers camp.election.me).handleVoteReply camp.election reply).1).setCampaign k
          { camp.setCall peer .done with
            election := ((c.servers camp.election.me).handleVoteReply camp.election reply).2 })
  | loseVoteCall {k : ℕ} {peer : Fin n} {camp : Campaign n} (hk : c.campaigns[k]? = some camp) :
      Step c (.loseVoteCall k peer) (c.setCampaign k (camp.setCall peer .done))
  | recvAppendEntries {k : ℕ} {call : HeartbeatCall n} (hk : c.heartbeats[k]? = some call)
      (hcall : call.status = .sent) :
      Step c (.recvAppendEntries k)
        ((c.setServer call.peer ((c.servers call.peer).appendEntries call.args).1).setHeartbeat k
          { call with status := .replied ((c.servers call.peer).appendEntries call.args).2 })
  | recvAppendReply {k : ℕ} {call : HeartbeatCall n} {reply : AppendEntriesReply}
      (hk : c.heartbeats[k]? = some call) (hcall : call.status = .replied reply) :
      Step c (.recvAppendReply k) (c.setHeartbeat k { call with status := .done })
  | loseHeartbeat {k : ℕ} {call : HeartbeatCall n} (hk : c.heartbeats[k]? = some call) :
      Step c (.loseHeartbeat k) (c.setHeartbeat k { call with status := .done })

/-- Every enabled action is one of the steps above. -/
theorem Cluster.Step.of_step {c c' : Cluster n} {a : Action n} (h : c.step a = some c') :
    Cluster.Step c a c' := by
  cases a with
  | timeout i =>
    simp only [step] at h
    split at h
    · cases h
    · rename_i hstate
      cases h
      exact .timeout i hstate
  | heartbeat i =>
    simp only [step] at h
    split at h
    · rename_i hstate
      cases h
      exact .heartbeat i hstate
    · cases h
  | recvRequestVote k peer =>
    simp only [step] at h
    split at h
    · cases h
    · rename_i camp hk
      split at h
      · rename_i hcall
        cases h
        exact .recvRequestVote hk hcall
      · cases h
  | recvVoteReply k peer =>
    simp only [step] at h
    split at h
    · cases h
    · rename_i camp hk
      split at h
      · rename_i reply hcall
        cases h
        exact .recvVoteReply hk hcall
      · cases h
  | loseVoteCall k peer =>
    simp only [step] at h
    split at h
    · cases h
    · rename_i camp hk
      cases h
      exact .loseVoteCall hk
  | recvAppendEntries k =>
    simp only [step] at h
    split at h
    · cases h
    · rename_i call hk
      split at h
      · rename_i hcall
        cases h
        exact .recvAppendEntries hk hcall
      · cases h
  | recvAppendReply k =>
    simp only [step] at h
    split at h
    · cases h
    · rename_i call hk
      split at h
      · rename_i reply hcall
        cases h
        exact .recvAppendReply hk hcall
      · cases h
  | loseHeartbeat k =>
    simp only [step] at h
    split at h
    · cases h
    · rename_i call hk
      cases h
      exact .loseHeartbeat hk

/-! ### The cluster is a system of voters -/

/-- What server `i` records as a voter. -/
def Cluster.voter (c : Cluster n) (i : Fin n) : Voter (Fin n) := (c.servers i).voter

@[simp] theorem Cluster.voter_setCampaign (c : Cluster n) (k : ℕ) (camp : Campaign n) (i : Fin n) :
    (c.setCampaign k camp).voter i = c.voter i := rfl

@[simp] theorem Cluster.voter_setHeartbeat (c : Cluster n) (k : ℕ) (call : HeartbeatCall n)
    (i : Fin n) : (c.setHeartbeat k call).voter i = c.voter i := rfl

theorem Cluster.voter_setServer_self (c : Cluster n) (i : Fin n) (rf : Server n) :
    (c.setServer i rf).voter i = rf.voter := by
  simp [voter, setServer]

/-- Replacing one server by an advanced one advances every voter. -/
theorem Cluster.setServer_advances {c : Cluster n} {i : Fin n} {rf : Server n}
    (h : (c.servers i).voter.Advances rf.voter) (j : Fin n) :
    (c.voter j).Advances ((c.setServer i rf).voter j) := by
  by_cases hj : j = i
  · subst hj
    rw [voter_setServer_self]
    exact h
  · simpa [voter, setServer, Function.update_of_ne hj] using Voter.Advances.refl _

theorem Cluster.step_advances {c c' : Cluster n} {a : Action n} (h : c.step a = some c')
    (j : Fin n) : (c.voter j).Advances (c'.voter j) := by
  cases Cluster.Step.of_step h with
  | timeout i _ => exact setServer_advances (Server.startElection_advances _ _) j
  | heartbeat i hstate => exact Voter.Advances.refl _
  | recvRequestVote hk hcall => exact setServer_advances (Server.requestVote_advances _ _) j
  | recvVoteReply hk hcall => exact setServer_advances (Server.handleVoteReply_advances _ _ _) j
  | loseVoteCall hk => exact Voter.Advances.refl _
  | recvAppendEntries hk hcall => exact setServer_advances (Server.appendEntries_advances _ _) j
  | recvAppendReply hk hcall => exact Voter.Advances.refl _
  | loseHeartbeat hk => exact Voter.Advances.refl _

/-- A ballot is on its voter's record after the step that gives it. -/
theorem Cluster.step_recorded {c c' : Cluster n} {a : Action n} (h : c.step a = some c') :
    ∀ b ∈ c.ballots a, c'.voter b.voter = ⟨b.term, some b.candidate⟩ := by
  cases Cluster.Step.of_step h with
  | timeout i _ =>
    intro b hb
    obtain rfl : b = ⟨i, (c.servers i).currentTerm + 1, i⟩ := by simpa [ballots] using hb
    exact voter_setServer_self _ _ _
  | recvRequestVote hk hcall =>
    intro b hb
    simp only [ballots, hk] at hb
    split at hb
    · rename_i hgrant
      obtain ⟨hrec, hterm⟩ := Server.requestVote_granted hgrant
      obtain rfl := List.mem_singleton.mp hb
      rw [voter_setCampaign, voter_setServer_self, hrec, hterm]
      rfl
    · cases hb
  | heartbeat | recvVoteReply | loseVoteCall | recvAppendEntries | recvAppendReply
  | loseHeartbeat =>
    intro b hb
    cases hb

/-- **The cluster is a system of voters**, whatever the network does. -/
theorem Cluster.votingSystem (n : ℕ) : VotingSystem (Cluster.system n) Cluster.voter where
  advances h v := step_advances h v
  recorded h b hb := step_recorded h b hb

end Raft

end Csc512
