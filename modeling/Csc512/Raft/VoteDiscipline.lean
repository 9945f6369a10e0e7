import Csc512.Raft.Cluster

/-!
# Terms only grow, and a server votes once per term

`votedFor` is written in four places: the vote handler, the heartbeat handler, the start of an
election and the handler of a reply from an earlier election. Each of them advances the server as
a voter, so the general theory of voters applies to the cluster as it stands.
-/

namespace Csc512

namespace Raft

variable {n : ℕ}

/-- Along a run no server's term decreases. -/
theorem currentTerm_le {c c' : Cluster n} {bs : List (Ballot (Fin n) (Fin n))}
    {ok : Cluster n → Action n → Prop} (h : (Cluster.system n).Steps ok c bs c') (i : Fin n) :
    (c.servers i).currentTerm ≤ (c'.servers i).currentTerm :=
  ((Cluster.votingSystem n).advances_of_steps h i).term_le

/-- **Vote discipline.** In every run, from any moment `c` of it to any later moment `c'`, no
term decreases, and all the votes a server gives in one term, its own candidacy included, go to
one candidate. -/
theorem vote_discipline (n : ℕ) {c c' : Cluster n} {bs bs' : List (Ballot (Fin n) (Fin n))}
    (h : (Cluster.system n).Steps ObservedSystem.always (Cluster.init n) bs c)
    (h' : (Cluster.system n).Steps ObservedSystem.always c bs' c') :
    (∀ i, (c.servers i).currentTerm ≤ (c'.servers i).currentTerm) ∧
      OneVotePerTerm (bs ++ bs') :=
  ⟨currentTerm_le h', (Cluster.votingSystem n).oneVotePerTerm (h.trans h')⟩

/-- Server 0 stands for election and server 1 grants its vote; then server 2 stands in the same
term and is refused. -/
theorem vote_discipline_split :
    let start := ((Cluster.system 3).exec ObservedSystem.always (Cluster.init 3)
      [.timeout 0, .recvRequestVote 0 1]).get (by decide)
    let rest := ((Cluster.system 3).exec ObservedSystem.always start.2
      [.timeout 2, .recvRequestVote 1 1]).get (by decide)
    (∀ i, (start.2.servers i).currentTerm ≤ (rest.2.servers i).currentTerm) ∧
      OneVotePerTerm (start.1 ++ rest.1) :=
  vote_discipline 3 (ObservedSystem.steps_get_exec (by decide))
    (ObservedSystem.steps_get_exec (by decide))

end Raft

end Csc512
