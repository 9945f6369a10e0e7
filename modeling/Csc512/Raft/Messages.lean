import Csc512.Raft.Campaigns
import Csc512.Raft.TermDiscipline

/-!
# The terms of messages in flight

A message may be delivered at any later moment, when its sender has long moved on. What a receiver
may still conclude from it is what this module collects: a heartbeat of a term was sent by a server
that stood for election in that term, a reply carries a term its sender has reached and no earlier
one than the request, and a grant carries the term of the request itself.

## Main results

* `Server.requestVote_answers`, `appendEntries_answers` — what a reply says about the request
* `messages_of_steps` — every message of every run
-/

namespace Csc512

namespace Raft

variable {n : ℕ}

/-! ### Replies and requests -/

/-- A vote reply answers a request of term `t`, from a server whose term is `now`: the reply is not
behind the request nor ahead of the server, and a grant is of the term that was asked for. -/
structure RequestVoteReply.Answers (reply : RequestVoteReply) (t now : ℕ) : Prop where
  asked : t ≤ reply.term
  reached : reply.term ≤ now
  granted : reply.voteGranted = true → reply.term = t

/-- A heartbeat reply answers a heartbeat of term `t`: it succeeds where the server joined the term
and fails where the server is ahead. -/
structure AppendEntriesReply.Answers (reply : AppendEntriesReply) (t now : ℕ) : Prop where
  success : reply.success = true → reply.term = t
  failure : reply.success = false → t < reply.term
  reached : reply.term ≤ now

theorem RequestVoteReply.Answers.mono {reply : RequestVoteReply} {t now now' : ℕ}
    (h : reply.Answers t now) (hle : now ≤ now') : reply.Answers t now' :=
  ⟨h.asked, h.reached.trans hle, h.granted⟩

theorem AppendEntriesReply.Answers.mono {reply : AppendEntriesReply} {t now now' : ℕ}
    (h : reply.Answers t now) (hle : now ≤ now') : reply.Answers t now' :=
  ⟨h.success, h.failure, h.reached.trans hle⟩

theorem Server.requestVote_term (rf : Server n) (args : RequestVoteArgs n) :
    (rf.requestVote args).2.term = (rf.requestVote args).1.currentTerm := by
  simp only [requestVote]
  split
  · rfl
  · split <;> rfl

/-- A vote reply answers its request. -/
theorem Server.requestVote_answers (rf : Server n) (args : RequestVoteArgs n) :
    (rf.requestVote args).2.Answers args.term (rf.requestVote args).1.currentTerm where
  asked := by
    rw [requestVote_term]
    exact (rf.le_requestVote args).1
  reached := (rf.requestVote_term args).le
  granted h := (requestVote_granted h).2

/-- A heartbeat reply answers its heartbeat. -/
theorem Server.appendEntries_answers (rf : Server n) (args : AppendEntriesArgs n) :
    (rf.appendEntries args).2.Answers args.term (rf.appendEntries args).1.currentTerm := by
  simp only [appendEntries]
  split
  · rename_i hlt
    exact ⟨fun h => absurd h Bool.false_ne_true, fun _ => hlt, le_rfl⟩
  · rename_i hge
    refine ⟨fun _ => ?_, fun h => absurd h.symm Bool.false_ne_true, le_rfl⟩
    split
    · rfl
    · rename_i hle
      exact le_antisymm (not_lt.mp hge) (not_lt.mp hle)

/-! ### Every message of a run -/

/-- A heartbeat was sent by a server that stood in its term, to another one, and its reply answers
it. -/
structure HeartbeatCall.Answered (call : HeartbeatCall n) (c : Cluster n) : Prop where
  stood : (call.args.leaderID, call.args.term) ∈ c.candidacies
  other : call.peer ≠ call.args.leaderID
  reply : ∀ reply, call.status = .replied reply →
    reply.Answers call.args.term (c.servers call.peer).currentTerm

/-- The replies to a campaign's requests answer them, and the candidate does not ask itself. -/
structure Campaign.Answered (camp : Campaign n) (c : Cluster n) : Prop where
  own : camp.calls camp.election.me = .done
  reply : ∀ peer reply, camp.calls peer = .replied reply →
    reply.Answers camp.election.currentTerm (c.servers peer).currentTerm

/-- Every message in flight is in order. -/
structure MessagesAnswered (c : Cluster n) : Prop where
  heartbeats : ∀ call ∈ c.heartbeats, call.Answered c
  campaigns : ∀ camp ∈ c.campaigns, camp.Answered c

section Later

variable {c c' : Cluster n} {a : Action n} (hstep : c.step a = some c')

include hstep

theorem currentTerm_le_step (i : Fin n) :
    (c.servers i).currentTerm ≤ (c'.servers i).currentTerm :=
  (Cluster.step_advances hstep i).term_le

theorem mem_candidacies_step {p : Fin n × ℕ} (hp : p ∈ c.candidacies) : p ∈ c'.candidacies := by
  rw [Cluster.candidacies_step hstep]
  exact List.mem_append_left _ hp

theorem HeartbeatCall.Answered.step {call : HeartbeatCall n} (h : call.Answered c) :
    call.Answered c' :=
  ⟨mem_candidacies_step hstep h.stood, h.other,
    fun reply hreply => (h.reply reply hreply).mono (currentTerm_le_step hstep _)⟩

theorem Campaign.Answered.step {camp : Campaign n} (h : camp.Answered c) : camp.Answered c' :=
  ⟨h.own, fun peer reply hreply => (h.reply peer reply hreply).mono (currentTerm_le_step hstep _)⟩

end Later

/-- A call that ends leaves the other calls of its campaign as they are. -/
theorem Campaign.Answered.finish {camp : Campaign n} {c : Cluster n} (h : camp.Answered c)
    (peer : Fin n) {e : Election n} (hme : e.me = camp.election.me)
    (hterm : e.currentTerm = camp.election.currentTerm) :
    ({ camp.setCall peer .done with election := e } : Campaign n).Answered c where
  own := by
    by_cases hpeer : camp.election.me = peer
    · simp [setCall, hme, hpeer]
    · simpa [setCall, hme, hpeer] using h.own
  reply p r hp := by
    by_cases hpeer : p = peer
    · simp [setCall, hpeer] at hp
    · rw [hterm]
      exact h.reply p r (by simpa [setCall, hpeer] using hp)

/-- A request that is answered was sent to another server than the candidate. -/
theorem Campaign.Answered.answer {camp : Campaign n} {c : Cluster n} (h : camp.Answered c)
    {peer : Fin n} {reply : RequestVoteReply} (hcall : camp.calls peer = .sent)
    (hreply : reply.Answers camp.election.currentTerm (c.servers peer).currentTerm) :
    (camp.setCall peer (.replied reply)).Answered c where
  own := by
    have hpeer : camp.election.me ≠ peer := by
      intro heq
      rw [← heq, h.own] at hcall
      cases hcall
    simpa [setCall, hpeer] using h.own
  reply p r hp := by
    by_cases hpeer : p = peer
    · subst hpeer
      obtain rfl : reply = r := by simpa [setCall] using hp
      exact hreply
    · exact h.reply p r (by simpa [setCall, hpeer] using hp)

theorem messagesAnswered_init (n : ℕ) : MessagesAnswered (Cluster.init n) :=
  ⟨fun _ h => absurd h List.not_mem_nil, fun _ h => absurd h List.not_mem_nil⟩

/-- A server sends the heartbeats of its current term, to the others. -/
theorem mem_sendHeartbeats {c : Cluster n} {i : Fin n} {call : HeartbeatCall n}
    (h : call ∈ (c.sendHeartbeats i).heartbeats) : call ∈ c.heartbeats ∨
      call.args = (c.servers i).heartbeat i ∧ call.peer ≠ i ∧ call.status = .sent := by
  rcases List.mem_append.mp h with h | h
  · exact Or.inl h
  · obtain ⟨peer, hpeer, rfl⟩ := List.mem_map.mp h
    exact Or.inr ⟨rfl, by simpa [peersOf] using hpeer, rfl⟩

/-- Replacing one campaign by a stage of it that is in order. -/
theorem MessagesAnswered.setCampaign {c c' : Cluster n} {k : ℕ} {camp : Campaign n}
    (h : ∀ d ∈ c.campaigns, d.Answered c') (hcamps : c'.campaigns = c.campaigns.set k camp)
    (hbeats : ∀ call ∈ c'.heartbeats, call.Answered c') (hcamp : camp.Answered c') :
    MessagesAnswered c' := by
  refine ⟨hbeats, fun d hd => ?_⟩
  rw [hcamps] at hd
  rcases List.mem_or_eq_of_mem_set hd with hd | rfl
  · exact h d hd
  · exact hcamp

/-- Replacing one heartbeat by a stage of it that is in order. -/
theorem MessagesAnswered.setHeartbeat {c c' : Cluster n} {k : ℕ} {call : HeartbeatCall n}
    (h : ∀ d ∈ c.heartbeats, d.Answered c') (hbeats : c'.heartbeats = c.heartbeats.set k call)
    (hcamps : ∀ camp ∈ c'.campaigns, camp.Answered c') (hcall : call.Answered c') :
    MessagesAnswered c' := by
  refine ⟨fun d hd => ?_, hcamps⟩
  rw [hbeats] at hd
  rcases List.mem_or_eq_of_mem_set hd with hd | rfl
  · exact h d hd
  · exact hcall

theorem messagesAnswered_step {c c' : Cluster n} {a : Action n} (h : MessagesAnswered c)
    (hstand : Standing c) (hstep : c.step a = some c') : MessagesAnswered c' := by
  have hbeats : ∀ call ∈ c.heartbeats, call.Answered c' :=
    fun call hcall => (h.heartbeats call hcall).step hstep
  have hcamps : ∀ camp ∈ c.campaigns, camp.Answered c' :=
    fun camp hcamp => (h.campaigns camp hcamp).step hstep
  cases Cluster.Step.of_step hstep with
  | timeout i hstate =>
    refine ⟨hbeats, fun camp hcamp => ?_⟩
    rcases List.mem_append.mp hcamp with hcamp | hcamp
    · exact hcamps camp hcamp
    · obtain rfl := List.mem_singleton.mp hcamp
      refine ⟨by simp [Campaign.start], fun peer reply hreply => ?_⟩
      simp only [Campaign.start] at hreply
      split at hreply <;> cases hreply
  | heartbeat i hstate =>
    refine ⟨fun call hcall => ?_, hcamps⟩
    rcases mem_sendHeartbeats hcall with hcall | ⟨hargs, hpeer, hstatus⟩
    · exact hbeats call hcall
    · have hlead : (c.servers i).state ≠ .follower := by
        rw [hstate]
        exact ServerState.noConfusion
      refine ⟨?_, by rwa [hargs], fun reply hreply => ?_⟩
      · rw [hargs]
        exact (hstand.stands i hlead).2
      · rw [hstatus] at hreply
        cases hreply
  | @recvRequestVote k peer camp hk hcall =>
    refine MessagesAnswered.setCampaign hcamps rfl hbeats ?_
    refine (hcamps camp (List.mem_of_getElem? hk)).answer hcall ?_
    have hanswer := (c.servers peer).requestVote_answers camp.election.args
    simpa [Cluster.setCampaign, Cluster.setServer, Election.args] using hanswer
  | @recvVoteReply k peer camp reply hk hcall =>
    obtain ⟨hme, hterm, -⟩ :=
      (c.servers camp.election.me).handleVoteReply_stage camp.election reply
    refine MessagesAnswered.setCampaign hcamps rfl hbeats ?_
    exact (hcamps camp (List.mem_of_getElem? hk)).finish peer hme hterm
  | @loseVoteCall k peer camp hk =>
    refine MessagesAnswered.setCampaign hcamps rfl hbeats ?_
    exact (hcamps camp (List.mem_of_getElem? hk)).finish peer rfl rfl
  | @recvAppendEntries k call hk hcall =>
    have hold := hbeats call (List.mem_of_getElem? hk)
    refine MessagesAnswered.setHeartbeat hbeats rfl hcamps ⟨hold.stood, hold.other, ?_⟩
    intro reply hreply
    obtain rfl := Call.replied.inj hreply
    have hanswer := (c.servers call.peer).appendEntries_answers call.args
    simpa [Cluster.setHeartbeat, Cluster.setServer] using hanswer
  | @recvAppendReply k call reply hk hcall =>
    have hold := hbeats call (List.mem_of_getElem? hk)
    refine MessagesAnswered.setHeartbeat hbeats rfl hcamps ⟨hold.stood, hold.other, ?_⟩
    intro reply hreply
    cases hreply
  | @loseHeartbeat k call hk =>
    have hold := hbeats call (List.mem_of_getElem? hk)
    refine MessagesAnswered.setHeartbeat hbeats rfl hcamps ⟨hold.stood, hold.other, ?_⟩
    intro reply hreply
    cases hreply

/-- **Messages and terms.** In every state of every run the candidacies are in order, whoever is no
follower stands in its current term, and every message in flight agrees with its sender and with
the request it answers. -/
theorem messages_of_steps {c : Cluster n} {bs : List (Ballot (Fin n) (Fin n))}
    {ok : Cluster n → Action n → Prop} (h : (Cluster.system n).Steps ok (Cluster.init n) bs c) :
    Standing c ∧ MessagesAnswered c :=
  h.invariant (I := fun _ c => Standing c ∧ MessagesAnswered c)
    ⟨standing_init n, messagesAnswered_init n⟩
    fun hI hstep _ => ⟨standing_step hI.1 hstep, messagesAnswered_step hI.2 hI.1 hstep⟩

/-- A leader's heartbeat is answered by a server that has gone on to a later term. -/
theorem messages_of_overtaken_leader :
    let run := ((Cluster.system 3).exec ObservedSystem.always (Cluster.init 3)
      [.timeout 0, .recvRequestVote 0 1, .recvVoteReply 0 1, .heartbeat 0, .timeout 1, .timeout 1,
        .recvAppendEntries 0, .recvRequestVote 1 2]).get (by decide)
    Standing run.2 ∧ MessagesAnswered run.2 :=
  messages_of_steps (ObservedSystem.steps_get_exec (by decide))

end Raft

end Csc512
