import Csc512.Lib.Voting
import Mathlib.Data.Fin.Basic

/-!
# One Raft server

The handlers of `labraft/raft/raft.go`, each as a function from the server's state and the
message to the new state and the reply. Every handler holds the server's mutex from its first
line to its last, so each of these functions is one atomic step.

## What is modelled

The fields `currentTerm`, `votedFor` and `state`. The election timer is left out: it decides when
the ticker starts an election, and a run may start one at any moment. `LastLogIndex` and
`LastLogTerm` of a vote request are never set and never read; the log itself, `persist` and
`Snapshot` are empty in the source. The sentinel `votedFor = -1` is `none`.

## Main results

* `Server.requestVote_advances`, `appendEntries_advances`, `handleVoteReply_advances`,
  `startElection_advances` — no handler lowers a term or replaces a vote inside a term
* `Server.requestVote_granted` — a granted vote is recorded, in the term the reply carries
-/

namespace Csc512

namespace Raft

variable {n : ℕ}

/-- The values of `rf.state`. -/
inductive ServerState where
  | follower
  | candidate
  | leader
  deriving DecidableEq, Repr

/-- A single Raft peer of a cluster of `n`. -/
structure Server (n : ℕ) where
  currentTerm : ℕ
  votedFor : Option (Fin n)
  state : ServerState
  deriving DecidableEq

/-- `Make`: term zero, no vote, follower. -/
def Server.make (n : ℕ) : Server n where
  currentTerm := 0
  votedFor := none
  state := .follower

/-- What a server records as a voter. -/
def Server.voter (rf : Server n) : Voter (Fin n) := ⟨rf.currentTerm, rf.votedFor⟩

/-! ### Messages -/

structure RequestVoteArgs (n : ℕ) where
  term : ℕ
  candidateID : Fin n
  deriving DecidableEq

structure RequestVoteReply where
  term : ℕ
  voteGranted : Bool
  deriving DecidableEq

structure AppendEntriesArgs (n : ℕ) where
  term : ℕ
  leaderID : Fin n
  deriving DecidableEq

structure AppendEntriesReply where
  term : ℕ
  success : Bool
  deriving DecidableEq

/-! ### The request handlers -/

/-- The first `if` of `RequestVote`: a later term is adopted, without a vote and as follower. -/
def Server.adoptTerm (rf : Server n) (term : ℕ) : Server n :=
  if term > rf.currentTerm then { currentTerm := term, votedFor := none, state := .follower }
  else rf

/-- `Raft.RequestVote`. -/
def Server.requestVote (rf : Server n) (args : RequestVoteArgs n) :
    Server n × RequestVoteReply :=
  let rf := rf.adoptTerm args.term
  let reply : RequestVoteReply := { term := rf.currentTerm, voteGranted := false }
  if args.term < rf.currentTerm then (rf, reply)
  else if rf.votedFor = none ∨ rf.votedFor = some args.candidateID then
    ({ rf with votedFor := some args.candidateID }, { reply with voteGranted := true })
  else (rf, reply)

/-- `Raft.AppendEntries`. -/
def Server.appendEntries (rf : Server n) (args : AppendEntriesArgs n) :
    Server n × AppendEntriesReply :=
  if args.term < rf.currentTerm then (rf, { term := rf.currentTerm, success := false })
  else
    let rf := if args.term > rf.currentTerm then
      { rf with currentTerm := args.term, votedFor := none } else rf
    let rf := { rf with state := .follower }
    (rf, { term := rf.currentTerm, success := true })

/-! ### Elections -/

/-- The variables one call of `startElection` shares with the goroutines it starts: the candidate,
the term captured when the election began, and the count of votes. -/
structure Election (n : ℕ) where
  me : Fin n
  currentTerm : ℕ
  votes : ℕ
  deriving DecidableEq

/-- `startElection`, up to the loop that sends the requests. -/
def Server.startElection (rf : Server n) (me : Fin n) : Server n × Election n :=
  let rf : Server n :=
    { currentTerm := rf.currentTerm + 1, votedFor := some me, state := .candidate }
  (rf, { me := me, currentTerm := rf.currentTerm, votes := 1 })

/-- The request every goroutine of an election sends. -/
def Election.args (e : Election n) : RequestVoteArgs n :=
  { term := e.currentTerm, candidateID := e.me }

/-- The reply counts as a vote: the server is a candidate, and the reply is a grant that carries
the captured term. The server's own term takes no part in the test. -/
def Server.countsVote (rf : Server n) (e : Election n) (reply : RequestVoteReply) : Prop :=
  rf.state = .candidate ∧ reply.term = e.currentTerm ∧ reply.voteGranted = true

instance (rf : Server n) (e : Election n) (reply : RequestVoteReply) :
    Decidable (rf.countsVote e reply) :=
  inferInstanceAs (Decidable (_ ∧ _ ∧ _))

/-- What a goroutine of `startElection` does once its call has returned `ok`. -/
def Server.handleVoteReply (rf : Server n) (e : Election n) (reply : RequestVoteReply) :
    Server n × Election n :=
  if reply.term > rf.currentTerm then
    ({ currentTerm := reply.term, votedFor := none, state := .follower }, e)
  else if rf.countsVote e reply then
    let e := { e with votes := e.votes + 1 }
    if e.votes > n / 2 then ({ rf with state := .leader }, e) else (rf, e)
  else (rf, e)

/-- The heartbeat a leader sends. -/
def Server.heartbeat (rf : Server n) (me : Fin n) : AppendEntriesArgs n :=
  { term := rf.currentTerm, leaderID := me }

/-! ### Every handler advances the voter -/

theorem Server.adoptTerm_advances (rf : Server n) (term : ℕ) :
    rf.voter.Advances (rf.adoptTerm term).voter := by
  by_cases h : term > rf.currentTerm
  · rw [adoptTerm, if_pos h]
    exact Or.inl h
  · simpa [adoptTerm, h] using Voter.Advances.refl rf.voter

theorem Server.requestVote_advances (rf : Server n) (args : RequestVoteArgs n) :
    rf.voter.Advances (rf.requestVote args).1.voter := by
  refine (rf.adoptTerm_advances args.term).trans ?_
  simp only [requestVote]
  split
  · exact Voter.Advances.refl _
  · split
    · rename_i hvote
      refine Or.inr ⟨rfl, ?_⟩
      rcases hvote with hvote | hvote
      · exact Or.inl hvote
      · exact Or.inr hvote.symm
    · exact Voter.Advances.refl _

/-- A granted vote is on the voter's record, under the term of the reply, and the reply carries
the term of the request. -/
theorem Server.requestVote_granted {rf : Server n} {args : RequestVoteArgs n}
    (h : (rf.requestVote args).2.voteGranted = true) :
    (rf.requestVote args).1.voter = ⟨args.term, some args.candidateID⟩ ∧
      (rf.requestVote args).2.term = args.term := by
  have hterm : args.term ≤ (rf.adoptTerm args.term).currentTerm := by
    by_cases hgt : args.term > rf.currentTerm
    · simp [adoptTerm, hgt]
    · rw [adoptTerm, if_neg hgt]
      exact not_lt.mp hgt
  simp only [requestVote] at h ⊢
  split at h
  · exact absurd h (by simp)
  · rename_i hlt
    have heq : (rf.adoptTerm args.term).currentTerm = args.term :=
      le_antisymm (not_lt.mp hlt) hterm
    split at h
    · rename_i hvote
      rw [if_neg hlt, if_pos hvote]
      exact ⟨by rw [voter, heq], heq⟩
    · exact absurd h (by simp)

theorem Server.appendEntries_advances (rf : Server n) (args : AppendEntriesArgs n) :
    rf.voter.Advances (rf.appendEntries args).1.voter := by
  simp only [appendEntries]
  split
  · exact Voter.Advances.refl _
  · split
    · rename_i hgt
      exact Or.inl hgt
    · exact Voter.Advances.refl _

theorem Server.startElection_advances (rf : Server n) (me : Fin n) :
    rf.voter.Advances (rf.startElection me).1.voter :=
  Or.inl (Nat.lt_succ_self _)

theorem Server.handleVoteReply_advances (rf : Server n) (e : Election n)
    (reply : RequestVoteReply) : rf.voter.Advances (rf.handleVoteReply e reply).1.voter := by
  simp only [handleVoteReply]
  split
  · rename_i hgt
    exact Or.inl hgt
  · split
    · split
      · exact Voter.Advances.refl _
      · exact Voter.Advances.refl _
    · exact Voter.Advances.refl _

/-! ### When a server is leader -/

/-- A vote request leaves a leader leader only where it leaves the term alone. -/
theorem Server.requestVote_leader {rf : Server n} {args : RequestVoteArgs n}
    (h : (rf.requestVote args).1.state = .leader) :
    rf.state = .leader ∧ (rf.requestVote args).1.currentTerm = rf.currentTerm := by
  have hadopt : (rf.adoptTerm args.term).state = .leader ∧
      (rf.requestVote args).1.currentTerm = (rf.adoptTerm args.term).currentTerm := by
    simp only [requestVote] at h ⊢
    split at h
    · rename_i hlt
      exact ⟨h, by rw [if_pos hlt]⟩
    · rename_i hlt
      rw [if_neg hlt]
      split at h
      · rename_i hvote
        exact ⟨h, by rw [if_pos hvote]⟩
      · rename_i hvote
        exact ⟨h, by rw [if_neg hvote]⟩
  obtain ⟨hstate, hterm⟩ := hadopt
  by_cases hgt : args.term > rf.currentTerm
  · simp [adoptTerm, hgt] at hstate
  · rw [hterm]
    simp only [adoptTerm, if_neg hgt] at hstate ⊢
    exact ⟨hstate, trivial⟩

/-- A heartbeat leaves a leader leader only when it is stale. -/
theorem Server.appendEntries_leader {rf : Server n} {args : AppendEntriesArgs n}
    (h : (rf.appendEntries args).1.state = .leader) : (rf.appendEntries args).1 = rf := by
  simp only [appendEntries] at h ⊢
  split at h
  · rename_i hlt
    rw [if_pos hlt]
  · exact absurd h (by simp)

/-- A server that is leader after a vote reply was leader of that term before, or counted the
reply as the vote that completes a majority. -/
theorem Server.handleVoteReply_leader {rf : Server n} {e : Election n} {reply : RequestVoteReply}
    (h : (rf.handleVoteReply e reply).1.state = .leader) :
    (rf.handleVoteReply e reply).1.currentTerm = rf.currentTerm ∧
      (rf.state = .leader ∨ ¬ reply.term > rf.currentTerm ∧ rf.countsVote e reply ∧
        n / 2 < (rf.handleVoteReply e reply).2.votes) := by
  simp only [handleVoteReply] at h ⊢
  split at h
  · exact absurd h (by simp)
  · rename_i hgt
    rw [if_neg hgt]
    split at h
    · rename_i hcount
      rw [if_pos hcount]
      split at h
      · rename_i hmaj
        rw [if_pos hmaj]
        exact ⟨rfl, Or.inr ⟨hgt, hcount, hmaj⟩⟩
      · rename_i hmaj
        rw [if_neg hmaj]
        exact ⟨rfl, Or.inl h⟩
    · rename_i hcount
      rw [if_neg hcount]
      exact ⟨rfl, Or.inl h⟩

/-- The count of an election grows by one where the reply counts, and stays otherwise. -/
theorem Server.handleVoteReply_election (rf : Server n) (e : Election n)
    (reply : RequestVoteReply) :
    (rf.handleVoteReply e reply).2 = e ∨ rf.countsVote e reply ∧
      (rf.handleVoteReply e reply).2 = { e with votes := e.votes + 1 } := by
  simp only [handleVoteReply]
  split
  · exact Or.inl rfl
  · split
    · rename_i hcount
      refine Or.inr ⟨hcount, ?_⟩
      split <;> rfl
    · exact Or.inl rfl

end Raft

end Csc512
