import Csc512.Raft.Messages
import Mathlib.Data.Fintype.Order

/-!
# A leader can always be elected

No run of a cluster of two or more servers gets stuck without a leader: whatever happened so far,
whichever messages are lost or still on their way, every server can become leader. It stands again
until its term is ahead of all others, and then asks the others one by one; each of them grants its
vote, and the vote that completes the majority makes it leader. A cluster of one never has a
leader, since the count is only looked at when a reply arrives.

## Main results

* `Asking.exists_won` — a candidate that is ahead of the servers it has yet to ask
* `leader_reachable_iff` — from every state of every run
-/

namespace Csc512

namespace Raft

variable {n : ℕ}

/-- A run that may be continued in any way. -/
def Cluster.CanReach (c c' : Cluster n) : Prop :=
  ∃ bs, (Cluster.system n).Steps ObservedSystem.always c bs c'

theorem Cluster.CanReach.refl (c : Cluster n) : c.CanReach c := ⟨[], .refl c⟩

theorem Cluster.CanReach.trans {c c' c'' : Cluster n} (h : c.CanReach c')
    (h' : c'.CanReach c'') : c.CanReach c'' := by
  obtain ⟨bs, h⟩ := h
  obtain ⟨bs', h'⟩ := h'
  exact ⟨bs ++ bs', h.trans h'⟩

theorem Cluster.CanReach.of_step {c c' : Cluster n} {a : Action n} (h : c.step a = some c') :
    c.CanReach c' :=
  ⟨_, (ObservedSystem.Steps.refl c).tail h trivial⟩

/-! ### Standing again -/

/-- The cluster after server `i` has stood for election. -/
def Cluster.stand (c : Cluster n) (i : Fin n) : Cluster n :=
  { c.setServer i ((c.servers i).startElection i).1 with
    campaigns := c.campaigns ++ [.start ((c.servers i).startElection i).2] }

theorem Cluster.step_timeout {c : Cluster n} {i : Fin n} (h : (c.servers i).state ≠ .leader) :
    c.step (.timeout i) = some (c.stand i) := by
  simp [step, h, stand]

theorem Cluster.stand_self (c : Cluster n) (i : Fin n) :
    (c.stand i).servers i = ⟨(c.servers i).currentTerm + 1, some i, .candidate⟩ := by
  simp [stand, setServer, Server.startElection]

theorem Cluster.stand_of_ne (c : Cluster n) {i j : Fin n} (h : j ≠ i) :
    (c.stand i).servers j = c.servers j := by
  simp [stand, setServer, h]

/-- A server that is not leader can raise its term as far as it likes, and nobody else notices. -/
theorem Cluster.exists_ahead {c : Cluster n} {i : Fin n} (h : (c.servers i).state ≠ .leader)
    (m : ℕ) : ∃ c', c.CanReach c' ∧ (c'.servers i).state ≠ .leader ∧
      m ≤ (c'.servers i).currentTerm ∧ ∀ j, j ≠ i → c'.servers j = c.servers j := by
  induction m with
  | zero => exact ⟨c, .refl c, h, Nat.zero_le _, fun _ _ => rfl⟩
  | succ m ih =>
    obtain ⟨d, hreach, hd, hterm, hothers⟩ := ih
    refine ⟨d.stand i, hreach.trans (.of_step (step_timeout hd)), ?_, ?_, fun j hj => ?_⟩
    · rw [stand_self]
      exact ServerState.noConfusion
    · rw [stand_self]
      exact Nat.succ_le_succ hterm
    · rw [stand_of_ne _ hj, hothers j hj]

/-! ### Asking one server after the other -/

/-- Server `i` stands in term `t` with campaign `k`, which has `votes` votes and no majority yet;
the servers `rest` have not been asked, and are behind. -/
structure Asking (c : Cluster n) (i : Fin n) (k t votes : ℕ) (rest : List (Fin n)) : Prop where
  candidate : (c.servers i).state = .candidate ∧ (c.servers i).currentTerm = t
  campaign : ∃ camp, c.campaigns[k]? = some camp ∧ camp.election = ⟨i, t, votes⟩ ∧
    ∀ p ∈ rest, camp.calls p = .sent
  behind : ∀ p ∈ rest, p ≠ i ∧ (c.servers p).currentTerm < t
  nodup : rest.Nodup
  minority : votes ≤ n / 2

/-- Server `i` is leader of term `t`, and its campaign `k` has a majority of the votes of that
term. -/
structure Won (c : Cluster n) (i : Fin n) (k t : ℕ) : Prop where
  leader : (c.servers i).state = .leader ∧ (c.servers i).currentTerm = t
  campaign : ∃ camp, c.campaigns[k]? = some camp ∧ camp.election.me = i ∧
    camp.election.currentTerm = t ∧ n / 2 < camp.election.votes

/-- Nothing else is touched than server `i`, the servers `asked` and campaign `k`. -/
structure OnlyAsked (c c' : Cluster n) (i : Fin n) (k : ℕ) (asked : List (Fin n)) : Prop where
  servers : ∀ q, q ≠ i → q ∉ asked → c'.servers q = c.servers q
  campaigns : ∀ k', k' ≠ k → c'.campaigns[k']? = c.campaigns[k']?

/-- A server that is behind grants what it is asked. -/
theorem Server.requestVote_of_behind {rf : Server n} {args : RequestVoteArgs n}
    (h : rf.currentTerm < args.term) : rf.requestVote args =
      (⟨args.term, some args.candidateID, .follower⟩, ⟨args.term, true⟩) := by
  simp [requestVote, adoptTerm, h]

/-- A candidate counts a grant of its term. -/
theorem Server.handleVoteReply_of_grant {rf : Server n} {e : Election n}
    (hstate : rf.state = .candidate) (hterm : rf.currentTerm = e.currentTerm) :
    rf.handleVoteReply e ⟨e.currentTerm, true⟩ =
      (if n / 2 < e.votes + 1 then { rf with state := .leader } else rf,
        { e with votes := e.votes + 1 }) := by
  have hcount : rf.countsVote e ⟨e.currentTerm, true⟩ := ⟨hstate, rfl, rfl⟩
  simp only [handleVoteReply, hterm, gt_iff_lt, lt_irrefl, if_false, if_pos hcount]
  split <;> rfl

/-- The candidate asks the next server and receives its vote: it is leader, or one server fewer is
left to ask and one vote fewer is missing. -/
theorem Asking.ask {c : Cluster n} {i p : Fin n} {k t votes : ℕ} {rest : List (Fin n)}
    (h : Asking c i k t votes (p :: rest)) : ∃ c', c.CanReach c' ∧ OnlyAsked c c' i k [p] ∧
      (Won c' i k t ∨ Asking c' i k t (votes + 1) rest) := by
  obtain ⟨camp, hk, helection, hsent⟩ := h.campaign
  obtain ⟨hpi, hbehind⟩ := h.behind p List.mem_cons_self
  have hcall : camp.calls p = .sent := hsent p List.mem_cons_self
  have hlt : k < c.campaigns.length := (List.getElem?_eq_some_iff.mp hk).1
  have hargs : camp.election.args = ⟨t, i⟩ := by rw [helection]; rfl
  have hgrant : (c.servers p).requestVote camp.election.args =
      (⟨t, some i, .follower⟩, ⟨t, true⟩) := by
    rw [hargs]
    exact Server.requestVote_of_behind hbehind
  -- the request arrives
  let asked := camp.setCall p (.replied ⟨t, true⟩)
  let c₁ := (c.setServer p ⟨t, some i, .follower⟩).setCampaign k asked
  have hstep₁ : c.step (.recvRequestVote k p) = some c₁ := by
    simp only [Cluster.step, hk, hcall, hgrant]
    rfl
  have hk₁ : c₁.campaigns[k]? = some asked := by
    simp [c₁, Cluster.setCampaign, Cluster.setServer, hlt]
  have hcall₁ : asked.calls p = .replied ⟨t, true⟩ := by simp [asked, Campaign.setCall]
  have hself₁ : c₁.servers i = c.servers i := by
    simp [c₁, Cluster.setCampaign, Cluster.setServer, Ne.symm hpi]
  -- and so does the reply
  have hcounted : (c₁.servers i).handleVoteReply asked.election ⟨t, true⟩ =
      (if n / 2 < votes + 1 then { c.servers i with state := .leader } else c.servers i,
        ⟨i, t, votes + 1⟩) := by
    have helection₁ : asked.election = ⟨i, t, votes⟩ := helection
    rw [helection₁, hself₁]
    exact Server.handleVoteReply_of_grant h.candidate.1 h.candidate.2
  let counted : Campaign n := { asked.setCall p .done with election := ⟨i, t, votes + 1⟩ }
  let c₂ := (c₁.setServer i (if n / 2 < votes + 1 then { c.servers i with state := .leader }
    else c.servers i)).setCampaign k counted
  have hstep₂ : c₁.step (.recvVoteReply k p) = some c₂ := by
    have hme : asked.election.me = i := by
      show camp.election.me = i
      rw [helection]
    simp only [Cluster.step, hk₁, hcall₁, hme, hcounted]
    rfl
  have hk₂ : c₂.campaigns[k]? = some counted := by
    simp [c₂, c₁, Cluster.setCampaign, Cluster.setServer, hlt]
  refine ⟨c₂, (Cluster.CanReach.of_step hstep₁).trans (.of_step hstep₂),
    ⟨fun q hqi hq => ?_, fun k' hk' => ?_⟩, ?_⟩
  · have hqp : q ≠ p := by simpa using hq
    simp [c₂, c₁, Cluster.setCampaign, Cluster.setServer, hqi, hqp]
  · simp [c₂, c₁, Cluster.setCampaign, Cluster.setServer, Ne.symm hk']
  by_cases hmaj : n / 2 < votes + 1
  · left
    refine ⟨?_, counted, hk₂, rfl, rfl, hmaj⟩
    simpa [c₂, Cluster.setCampaign, Cluster.setServer, hmaj] using h.candidate.2
  · right
    have hnodup := List.nodup_cons.mp h.nodup
    refine ⟨?_, ⟨counted, hk₂, rfl, fun q hq => ?_⟩, fun q hq => ?_, hnodup.2, not_lt.mp hmaj⟩
    · simpa [c₂, Cluster.setCampaign, Cluster.setServer, hmaj] using h.candidate
    · have hqp : q ≠ p := fun heq => hnodup.1 (heq ▸ hq)
      simpa [counted, asked, Campaign.setCall, hqp] using hsent q (List.mem_cons_of_mem _ hq)
    · have hqp : q ≠ p := fun heq => hnodup.1 (heq ▸ hq)
      obtain ⟨hqi, hterm⟩ := h.behind q (List.mem_cons_of_mem _ hq)
      refine ⟨hqi, ?_⟩
      simpa [c₂, c₁, Cluster.setCampaign, Cluster.setServer, hqp, hqi] using hterm

theorem OnlyAsked.trans {c c' c'' : Cluster n} {i p : Fin n} {k : ℕ} {rest : List (Fin n)}
    (h : OnlyAsked c c' i k [p]) (h' : OnlyAsked c' c'' i k rest) :
    OnlyAsked c c'' i k (p :: rest) where
  servers q hqi hq := by
    rw [List.mem_cons, not_or] at hq
    rw [h'.servers q hqi hq.2, h.servers q hqi (by simpa using hq.1)]
  campaigns k' hk' := (h'.campaigns k' hk').trans (h.campaigns k' hk')

/-- With enough servers left to ask, the candidate wins. -/
theorem Asking.exists_won {c : Cluster n} {i : Fin n} {k t votes : ℕ} {rest : List (Fin n)}
    (h : Asking c i k t votes rest) (henough : n / 2 < votes + rest.length) :
    ∃ c', c.CanReach c' ∧ OnlyAsked c c' i k rest ∧ Won c' i k t := by
  induction rest generalizing c votes with
  | nil => exact absurd henough (not_lt.mpr h.minority)
  | cons p rest ih =>
    obtain ⟨c₁, hreach, hasked, hwon | hasking⟩ := h.ask
    · refine ⟨c₁, hreach, ⟨fun q hqi hq => hasked.servers q hqi ?_, hasked.campaigns⟩, hwon⟩
      exact fun hq' => hq (List.mem_cons.mpr (.inl (List.mem_singleton.mp hq')))
    · obtain ⟨c₂, hreach₂, hasked₂, hwon⟩ := ih hasking (by
        simp only [List.length_cons] at henough
        omega)
      exact ⟨c₂, hreach.trans hreach₂, hasked.trans hasked₂, hwon⟩

/-! ### From any state -/

theorem ne_of_mem_peersOf {i p : Fin n} (h : p ∈ peersOf i) : p ≠ i := by
  simpa [peersOf] using h

theorem nodup_peersOf (i : Fin n) : (peersOf i).Nodup := (List.nodup_finRange n).filter _

theorem length_peersOf (i : Fin n) : (peersOf i).length = n - 1 := by
  have hcons : (i :: peersOf i).Nodup :=
    List.nodup_cons.mpr ⟨fun hi => ne_of_mem_peersOf hi rfl, nodup_peersOf i⟩
  have hperm := (List.perm_of_nodup_nodup_toFinset_eq hcons (List.nodup_finRange n)
    (by ext j; by_cases h : j = i <;> simp [peersOf, h])).length_eq
  simp only [List.length_cons, List.length_finRange] at hperm
  omega

/-- Once it is ahead of the servers it wants to ask, a server that stands has only to ask. -/
theorem Cluster.asking_stand {c : Cluster n} {i : Fin n} {rest : List (Fin n)} (hn : 2 ≤ n)
    (hrest : rest.Nodup)
    (hbehind : ∀ p ∈ rest, p ≠ i ∧ (c.servers p).currentTerm ≤ (c.servers i).currentTerm) :
    Asking (c.stand i) i c.campaigns.length ((c.servers i).currentTerm + 1) 1 rest where
  candidate := by
    rw [stand_self]
    exact ⟨rfl, rfl⟩
  campaign := by
    refine ⟨.start ((c.servers i).startElection i).2, by simp [stand], rfl, fun p hp => ?_⟩
    simp [Campaign.start, Server.startElection, (hbehind p hp).1]
  behind p hp := by
    obtain ⟨hpi, hterm⟩ := hbehind p hp
    rw [stand_of_ne _ hpi]
    exact ⟨hpi, Nat.lt_succ_of_le hterm⟩
  nodup := hrest
  minority := by omega

/-- In a cluster of two or more servers, everybody can become leader from any state. -/
theorem Cluster.exists_leader (c : Cluster n) (hn : 2 ≤ n) (i : Fin n) :
    ∃ c', c.CanReach c' ∧ (c'.servers i).state = .leader := by
  by_cases h : (c.servers i).state = .leader
  · exact ⟨c, .refl c, h⟩
  · obtain ⟨m, hm⟩ := Finite.exists_le fun j => (c.servers j).currentTerm
    obtain ⟨d, hreach, hd, hterm, hothers⟩ := exists_ahead h m
    have hbehind : ∀ p ∈ peersOf i,
        p ≠ i ∧ (d.servers p).currentTerm ≤ (d.servers i).currentTerm := by
      intro p hp
      have hpi : p ≠ i := ne_of_mem_peersOf hp
      rw [hothers p hpi]
      exact ⟨hpi, (hm p).trans hterm⟩
    have henough : n / 2 < 1 + (peersOf i).length := by
      rw [length_peersOf]
      omega
    obtain ⟨c', hreach', -, hwon⟩ := (asking_stand hn (nodup_peersOf i) hbehind).exists_won henough
    exact ⟨c', hreach.trans ((CanReach.of_step (step_timeout hd)).trans hreach'), hwon.leader.1⟩

/-- A single server receives no vote reply, so it never becomes leader. -/
theorem not_leader_of_one {c : Cluster 1} {bs : List (Ballot (Fin 1) (Fin 1))}
    (h : (Cluster.system 1).Steps ObservedSystem.always (Cluster.init 1) bs c) (i : Fin 1) :
    (c.servers i).state ≠ .leader := by
  suffices hinv : (Standing c ∧ MessagesAnswered c) ∧ (c.servers i).state ≠ .leader from hinv.2
  refine h.invariant
    (I := fun _ c => (Standing c ∧ MessagesAnswered c) ∧ (c.servers i).state ≠ .leader)
    ⟨⟨standing_init 1, messagesAnswered_init 1⟩, ServerState.noConfusion⟩ ?_
  intro _ d d' a ⟨⟨hstand, hmsgs⟩, hnot⟩ hstep _
  refine ⟨⟨standing_step hstand hstep, messagesAnswered_step hmsgs hstand hstep⟩, fun hlead => ?_⟩
  rcases Cluster.leader_step hstep hlead with hbefore | ⟨⟨k, peer, rfl⟩, -⟩
  · exact hnot hbefore
  · have hdid : d.Step (.recvVoteReply k peer) d' := Cluster.Step.of_step hstep
    cases hdid with
    | @recvVoteReply _ _ camp reply hk hcall =>
      -- the only peer there is is the candidate itself
      have hown := (hmsgs.campaigns camp (List.mem_of_getElem? hk)).own
      rw [Subsingleton.elim camp.election.me peer, hcall] at hown
      cases hown

/-- **A leader can always be elected, but not in a cluster of one.** From every state of every run,
server `i` can become leader if and only if there is another server. -/
theorem leader_reachable_iff {c : Cluster n} {bs : List (Ballot (Fin n) (Fin n))}
    (h : (Cluster.system n).Steps ObservedSystem.always (Cluster.init n) bs c) (i : Fin n) :
    (∃ c', c.CanReach c' ∧ (c'.servers i).state = .leader) ↔ 2 ≤ n := by
  refine ⟨fun hlead => ?_, fun hn => c.exists_leader hn i⟩
  by_contra hn
  obtain rfl : n = 1 := by
    have := i.isLt
    omega
  obtain ⟨c', ⟨bs', h'⟩, hlead⟩ := hlead
  exact not_leader_of_one (h.trans h') i hlead

/-- Two leaders of one term, and still server 2 can become leader. -/
theorem leader_reachable_stale :
    let run := ((Cluster.system 3).exec ObservedSystem.always (Cluster.init 3)
      staleVoteRun).get (by decide)
    (∃ c', run.2.CanReach c' ∧ (c'.servers 2).state = .leader) ↔ 2 ≤ 3 :=
  leader_reachable_iff (ObservedSystem.steps_get_exec (by decide)) 2

end Raft

end Csc512
