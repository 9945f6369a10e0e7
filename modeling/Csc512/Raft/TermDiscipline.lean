import Csc512.Raft.Cluster

/-!
# Who learns of a later term

Terms reach a server on four paths: in the two requests and in the replies to them. Three of them
adopt a later term and step down. The fourth, the reply to a heartbeat, is thrown away, and a leader
that is told of a later term stays leader.

## Main results

* `Cluster.disciplined_iff` — the steps after which the receiver is up to date
* `termDiscipline_of_heedsReplies` — runs in which no heartbeat is answered from a later term
* `not_termDiscipline` — a leader that is told of a later term
-/

namespace Csc512

namespace Raft

variable {n : ℕ}

/-- A server receives a term. -/
structure Received (n : ℕ) where
  server : Fin n
  term : ℕ
  deriving DecidableEq

/-- The terms that are received in a step. -/
def Cluster.received (c : Cluster n) : Action n → List (Received n)
  | .recvRequestVote k peer =>
    match c.campaigns[k]? with
    | none => []
    | some camp => [⟨peer, camp.election.args.term⟩]
  | .recvVoteReply k peer =>
    match c.campaigns[k]? with
    | none => []
    | some camp =>
      match camp.calls peer with
      | .replied reply => [⟨camp.election.me, reply.term⟩]
      | _ => []
  | .recvAppendEntries k =>
    match c.heartbeats[k]? with
    | none => []
    | some call => [⟨call.peer, call.args.term⟩]
  | .recvAppendReply k =>
    match c.heartbeats[k]? with
    | none => []
    | some call =>
      match call.status with
      | .replied reply => [⟨call.args.leaderID, reply.term⟩]
      | _ => []
  | _ => []

/-- The cluster, observed through the terms that its servers receive. -/
def Cluster.receiving (n : ℕ) : ObservedSystem (Cluster n) (Action n) (Received n) where
  step := Cluster.step
  observe := Cluster.received

/-- After a step, whoever received a term is in it or beyond, and no leader if it is later than the
term before. -/
def Cluster.Disciplined (c : Cluster n) (a : Action n) (c' : Cluster n) : Prop :=
  ∀ m ∈ c.received a, m.term ≤ (c'.servers m.server).currentTerm ∧
    ((c.servers m.server).currentTerm < m.term → (c'.servers m.server).state ≠ .leader)

/-- No heartbeat is answered from a later term than that of its sender. -/
def Cluster.HeedsReplies (c : Cluster n) : Action n → Prop
  | .recvAppendReply k =>
    ∀ m ∈ c.received (.recvAppendReply k), m.term ≤ (c.servers m.server).currentTerm
  | _ => True

instance (c : Cluster n) : (a : Action n) → Decidable (c.HeedsReplies a)
  | .recvAppendReply k => inferInstanceAs (Decidable (∀ m ∈ c.received (.recvAppendReply k), _))
  | .timeout _ | .heartbeat _ | .recvRequestVote _ _ | .recvVoteReply _ _ | .loseVoteCall _ _
  | .recvAppendEntries _ | .loseHeartbeat _ => inferInstanceAs (Decidable True)

/-! ### The three paths that adopt a term -/

theorem Server.le_requestVote (rf : Server n) (args : RequestVoteArgs n) :
    args.term ≤ (rf.requestVote args).1.currentTerm ∧
      (rf.currentTerm < args.term → (rf.requestVote args).1.state ≠ .leader) := by
  have hstate : (rf.requestVote args).1.state = .leader → _ := Server.requestVote_leader
  have hle : args.term ≤ (rf.adoptTerm args.term).currentTerm := by
    unfold adoptTerm
    split
    · exact le_refl _
    · rename_i hle
      exact not_lt.mp hle
  have hterm : (rf.requestVote args).1.currentTerm = (rf.adoptTerm args.term).currentTerm := by
    simp only [requestVote]
    split
    · rfl
    · split <;> rfl
  refine ⟨hterm ▸ hle, fun hlt hleader => ?_⟩
  rw [hterm] at hstate
  have hsame := (hstate hleader).2
  omega

theorem Server.le_appendEntries (rf : Server n) (args : AppendEntriesArgs n) :
    args.term ≤ (rf.appendEntries args).1.currentTerm ∧
      (rf.currentTerm < args.term → (rf.appendEntries args).1.state ≠ .leader) := by
  simp only [appendEntries]
  split
  · rename_i hlt
    exact ⟨hlt.le, fun hlt' => absurd hlt' (by omega)⟩
  · rename_i hle
    constructor
    · split
      · exact le_refl _
      · rename_i hge
        exact not_lt.mp hge
    · intro _ hleader
      cases hleader

theorem Server.le_handleVoteReply (rf : Server n) (e : Election n) (reply : RequestVoteReply) :
    reply.term ≤ (rf.handleVoteReply e reply).1.currentTerm ∧
      (rf.currentTerm < reply.term → (rf.handleVoteReply e reply).1.state ≠ .leader) := by
  simp only [handleVoteReply]
  split
  · refine ⟨le_refl _, fun _ hleader => ?_⟩
    cases hleader
  · rename_i hle
    have hterm := not_lt.mp hle
    refine ⟨?_, fun hlt => absurd hlt hle⟩
    split
    · split <;> exact hterm
    · exact hterm

/-! ### Steps and runs -/

/-- **Each step** but an unheeded reply leaves the receiver of a term up to date. -/
theorem Cluster.disciplined_iff {c c' : Cluster n} {a : Action n} (h : c.step a = some c') :
    c.Disciplined a c' ↔ c.HeedsReplies a := by
  cases Cluster.Step.of_step h with
  | timeout | heartbeat | loseVoteCall | loseHeartbeat =>
    exact iff_of_true (fun m hm => absurd hm List.not_mem_nil) trivial
  | recvRequestVote hk hcall =>
    refine iff_of_true (fun m hm => ?_) trivial
    simp only [received, hk, List.mem_singleton] at hm
    subst hm
    simpa [setServer, setCampaign] using Server.le_requestVote _ _
  | recvVoteReply hk hcall =>
    refine iff_of_true (fun m hm => ?_) trivial
    simp only [received, hk, hcall, List.mem_singleton] at hm
    subst hm
    simpa [setServer, setCampaign] using Server.le_handleVoteReply _ _ _
  | recvAppendEntries hk hcall =>
    refine iff_of_true (fun m hm => ?_) trivial
    simp only [received, hk, List.mem_singleton] at hm
    subst hm
    simpa [setServer, setHeartbeat] using Server.le_appendEntries _ _
  | recvAppendReply hk hcall =>
    -- the receiver does nothing, so it is up to date only if it was
    constructor
    · exact fun hdisciplined m hm => (hdisciplined m hm).1
    · exact fun hheeds m hm => ⟨hheeds m hm, fun hlt => absurd (hheeds m hm) (by omega)⟩

theorem Cluster.currentTerm_le_of_step {c c' : Cluster n} {a : Action n}
    (h : c.step a = some c') (i : Fin n) :
    (c.servers i).currentTerm ≤ (c'.servers i).currentTerm :=
  (Cluster.step_advances h i).term_le

/-- **Term discipline** in the runs whose steps meet `ok`: at the end of a run every server is in
each term that it has received or beyond, so it leads no earlier one; and whoever has just received
a later term than its own is no leader. -/
def TermDiscipline (n : ℕ) (ok : Cluster n → Action n → Prop) : Prop :=
  ∀ {c : Cluster n} {ms : List (Received n)},
    (Cluster.receiving n).Steps ok (Cluster.init n) ms c →
    (∀ m ∈ ms, m.term ≤ (c.servers m.server).currentTerm) ∧
    ∀ {a : Action n} {c' : Cluster n}, c.step a = some c' → ok c a → c.Disciplined a c'

/-- **Term discipline** where no heartbeat is answered from a later term. -/
theorem termDiscipline_of_heedsReplies (n : ℕ) : TermDiscipline n Cluster.HeedsReplies := by
  intro c ms h
  refine ⟨?_, fun hstep hok => (Cluster.disciplined_iff hstep).mpr hok⟩
  refine h.invariant (I := fun ms c => ∀ m ∈ ms, m.term ≤ (c.servers m.server).currentTerm)
    (fun m hm => absurd hm List.not_mem_nil) ?_
  intro ms c a c' hms hstep hok m hm
  rcases List.mem_append.mp hm with hm | hm
  · exact (hms m hm).trans (Cluster.currentTerm_le_of_step hstep m.server)
  · exact ((Cluster.disciplined_iff hstep).mpr hok m hm).1

/-- Server 0 wins term 1, and server 1 answers its heartbeat. -/
theorem termDiscipline_of_heedsReplies_answered :
    let run := ((Cluster.receiving 3).exec Cluster.HeedsReplies (Cluster.init 3)
      [.timeout 0, .recvRequestVote 0 1, .recvVoteReply 0 1, .heartbeat 0, .recvAppendEntries 0,
        .recvAppendReply 0]).get (by decide)
    run.1.length = 4 ∧ ∀ m ∈ run.1, m.term ≤ (run.2.servers m.server).currentTerm :=
  ⟨by decide, (termDiscipline_of_heedsReplies 3 (ObservedSystem.steps_get_exec (by decide))).1⟩

/-- Server 0 leads term 1; server 2 stands in term 2 and answers its heartbeat from there. -/
def laterTermRun : List (Action 3) :=
  [.timeout 0, .recvRequestVote 0 1, .recvVoteReply 0 1, .heartbeat 0, .timeout 2, .timeout 2,
    .recvAppendEntries 1]

theorem exec_laterTermRun : ((Cluster.receiving 3).exec ObservedSystem.always (Cluster.init 3)
    (laterTermRun ++ [.recvAppendReply 1])).isSome := by
  decide

/-- **Term discipline fails**: a leader throws away the reply from a later term. -/
theorem not_termDiscipline : ¬ TermDiscipline 3 ObservedSystem.always := by
  intro hdiscipline
  have hrun := ObservedSystem.steps_get_exec exec_laterTermRun
  have hterms := (hdiscipline hrun).1
  revert hterms
  decide

end Raft

end Csc512
