import Csc512.Raft.ElectionSafety

/-!
# Campaigns and their terms

Election safety asks that stale votes are not counted. This module is about what holds in every
run, whichever votes are counted. A campaign belongs to one server and one term, its *candidacy*,
which no step changes; a server opens at most one campaign in each term, and whoever is candidate
or leader has opened the one of its current term. So a term has at most one campaign that collects
a majority, and a leader has collected one, if not in the term it leads, then in an earlier one.

## Main definitions

* `Cluster.candidacies` — the server and the term of each campaign, in the order of their start
* `Standing` — what terms and candidacies have to do with each other

## Main results

* `standing_of_steps` — in every run
* `winningCampaign_unique` — at most one campaign of a term has a majority, at any two moments
* `leader_has_majority` — what makes a leader, in every run
-/

namespace Csc512

namespace Raft

variable {n : ℕ}

/-! ### Candidacies -/

/-- The server that opened a campaign, and the term it captured. -/
def Campaign.candidacy (camp : Campaign n) : Fin n × ℕ :=
  (camp.election.me, camp.election.currentTerm)

/-- The candidacies of a cluster, in the order of the campaigns. -/
def Cluster.candidacies (c : Cluster n) : List (Fin n × ℕ) := c.campaigns.map Campaign.candidacy

@[simp] theorem Cluster.candidacies_setServer (c : Cluster n) (i : Fin n) (rf : Server n) :
    (c.setServer i rf).candidacies = c.candidacies := rfl

@[simp] theorem Cluster.candidacies_setHeartbeat (c : Cluster n) (k : ℕ) (call : HeartbeatCall n) :
    (c.setHeartbeat k call).candidacies = c.candidacies := rfl

@[simp] theorem Cluster.candidacies_sendHeartbeats (c : Cluster n) (i : Fin n) :
    (c.sendHeartbeats i).candidacies = c.candidacies := rfl

/-- A later stage of a campaign has the same candidacy. -/
theorem Cluster.candidacies_setCampaign {c : Cluster n} {k : ℕ} {camp camp' : Campaign n}
    (hk : c.campaigns[k]? = some camp) (h : camp'.candidacy = camp.candidacy) :
    (c.setCampaign k camp').candidacies = c.candidacies := by
  obtain ⟨hlt, hget⟩ := List.getElem?_eq_some_iff.mp hk
  have hsame : (c.candidacies).set k camp.candidacy = c.candidacies := by
    refine List.ext_getElem (by simp) fun j hj hj' => ?_
    by_cases hkj : k = j
    · subst hkj
      simp [candidacies, hget]
    · simp [hkj]
  rw [← hsame, ← h]
  simp [candidacies, setCampaign, List.map_set]

@[simp] theorem Server.candidacy_handleVoteReply (rf : Server n) (camp : Campaign n)
    (reply : RequestVoteReply) (calls : Fin n → Call RequestVoteReply) :
    (⟨(rf.handleVoteReply camp.election reply).2, calls⟩ : Campaign n).candidacy
      = camp.candidacy := by
  rcases rf.handleVoteReply_election camp.election reply with h | ⟨-, h⟩ <;>
    rw [Campaign.candidacy, h] <;> rfl

/-- The candidacy a step opens, if it is a server's timer that ran out. -/
def Cluster.opened (c : Cluster n) : Action n → List (Fin n × ℕ)
  | .timeout i => [(i, (c.servers i).currentTerm + 1)]
  | _ => []

/-- A step keeps the candidacies and adds the one it opens. -/
theorem Cluster.candidacies_step {c c' : Cluster n} {a : Action n} (h : c.step a = some c') :
    c'.candidacies = c.candidacies ++ c.opened a := by
  cases Cluster.Step.of_step h with
  | timeout i hstate => simp [candidacies, Campaign.candidacy, Campaign.start,
      Server.startElection, opened]
  | heartbeat i hstate => simp [opened]
  | recvRequestVote hk hcall =>
    refine (candidacies_setCampaign (c := c.setServer _ _) hk ?_).trans (List.append_nil _).symm
    rfl
  | recvVoteReply hk hcall =>
    refine (candidacies_setCampaign (c := c.setServer _ _) hk ?_).trans (List.append_nil _).symm
    exact Server.candidacy_handleVoteReply _ _ _ _
  | loseVoteCall hk =>
    refine (candidacies_setCampaign hk ?_).trans (List.append_nil _).symm
    rfl
  | recvAppendEntries hk hcall => simp [opened]
  | recvAppendReply hk hcall => simp [opened]
  | loseHeartbeat hk => simp [opened]

/-- The candidacies so far are the first of those to come. -/
theorem candidacies_prefix {c c' : Cluster n} {bs : List (Ballot (Fin n) (Fin n))}
    {ok : Cluster n → Action n → Prop} (h : (Cluster.system n).Steps ok c bs c') :
    c.candidacies <+: c'.candidacies := by
  induction h with
  | refl => exact List.prefix_refl _
  | tail _ enabled _ ih =>
    rw [Cluster.candidacies_step enabled]
    exact ih.trans (List.prefix_append _ _)

/-! ### Candidates and leaders -/

/-- Whoever is no follower after the change was none before, in the same term. -/
def Server.OnlyStepsDown (rf rf' : Server n) : Prop :=
  rf'.state ≠ .follower → rf.state ≠ .follower ∧ rf'.currentTerm = rf.currentTerm

theorem Server.adoptTerm_onlyStepsDown (rf : Server n) (term : ℕ) :
    rf.OnlyStepsDown (rf.adoptTerm term) := by
  intro h
  by_cases hgt : term > rf.currentTerm
  · simp [adoptTerm, hgt] at h
  · simpa [adoptTerm, hgt] using h

theorem Server.requestVote_onlyStepsDown (rf : Server n) (args : RequestVoteArgs n) :
    rf.OnlyStepsDown (rf.requestVote args).1 := by
  intro h
  have hsame : (rf.requestVote args).1.state = (rf.adoptTerm args.term).state ∧
      (rf.requestVote args).1.currentTerm = (rf.adoptTerm args.term).currentTerm := by
    simp only [requestVote]
    split
    · exact ⟨rfl, rfl⟩
    · split <;> exact ⟨rfl, rfl⟩
  rw [hsame.2]
  exact rf.adoptTerm_onlyStepsDown args.term (hsame.1 ▸ h)

theorem Server.appendEntries_onlyStepsDown (rf : Server n) (args : AppendEntriesArgs n) :
    rf.OnlyStepsDown (rf.appendEntries args).1 := by
  intro h
  simp only [appendEntries] at h ⊢
  split at h
  · rename_i hlt
    rw [if_pos hlt]
    exact ⟨h, rfl⟩
  · exact absurd rfl h

theorem Server.handleVoteReply_onlyStepsDown (rf : Server n) (e : Election n)
    (reply : RequestVoteReply) : rf.OnlyStepsDown (rf.handleVoteReply e reply).1 := by
  intro h
  simp only [handleVoteReply] at h ⊢
  split at h
  · exact absurd rfl h
  · rename_i hgt
    rw [if_neg hgt]
    split at h
    · rename_i hcount
      have hcand : rf.state ≠ .follower := by
        rw [hcount.1]
        exact ServerState.noConfusion
      rw [if_pos hcount]
      split <;> exact ⟨hcand, rfl⟩
    · rename_i hcount
      rw [if_neg hcount]
      exact ⟨h, rfl⟩

/-! ### Where the terms stand -/

/-- The terms of servers and candidacies in every state of every run: candidacies of one server
were opened in the order of their terms, and none is ahead of its server; a candidate or leader
voted for itself and opened the candidacy of its current term. -/
structure Standing (c : Cluster n) : Prop where
  ordered : c.candidacies.Pairwise fun p q => p.1 = q.1 → p.2 < q.2
  reached : ∀ p ∈ c.candidacies, p.2 ≤ (c.servers p.1).currentTerm
  stands : ∀ i, (c.servers i).state ≠ .follower →
    (c.servers i).votedFor = some i ∧ (i, (c.servers i).currentTerm) ∈ c.candidacies

theorem standing_init (n : ℕ) : Standing (Cluster.init n) where
  ordered := List.Pairwise.nil
  reached _ hp := absurd hp List.not_mem_nil
  stands _ hi := absurd rfl hi

/-- A server that advances as a voter and only steps down keeps what holds of the terms. -/
theorem Standing.setServer {c c' : Cluster n} {j : Fin n} {rf : Server n} (h : Standing c)
    (hservers : c'.servers = Function.update c.servers j rf)
    (hcands : c'.candidacies = c.candidacies)
    (hadv : (c.servers j).voter.Advances rf.voter) (hdown : (c.servers j).OnlyStepsDown rf) :
    Standing c' where
  ordered := hcands ▸ h.ordered
  reached p hp := by
    rw [hcands] at hp
    rw [hservers]
    by_cases hpj : p.1 = j
    · rw [hpj, Function.update_self]
      exact (h.reached p hp).trans (hpj ▸ hadv.term_le)
    · rw [Function.update_of_ne hpj]
      exact h.reached p hp
  stands i hi := by
    rw [hservers] at hi ⊢
    rw [hcands]
    by_cases hij : i = j
    · subst hij
      rw [Function.update_self] at hi ⊢
      obtain ⟨hbefore, hterm⟩ := hdown hi
      obtain ⟨hvote, hmem⟩ := h.stands i hbefore
      exact ⟨hadv.votedFor_eq hterm.symm hvote, hterm ▸ hmem⟩
    · rw [Function.update_of_ne hij] at hi ⊢
      exact h.stands i hi

/-- A server that stands opens a candidacy that is ahead of all it had. -/
theorem Standing.timeout {c c' : Cluster n} {i : Fin n} (h : Standing c)
    (hservers : c'.servers = Function.update c.servers i ((c.servers i).startElection i).1)
    (hcands : c'.candidacies = c.candidacies ++ [(i, (c.servers i).currentTerm + 1)]) :
    Standing c' where
  ordered := by
    rw [hcands, List.pairwise_append]
    refine ⟨h.ordered, List.pairwise_singleton _ _, fun p hp q hq hpq => ?_⟩
    obtain rfl := List.mem_singleton.mp hq
    have hle := h.reached p hp
    rw [hpq] at hle
    exact Nat.lt_succ_of_le hle
  reached p hp := by
    rw [hservers]
    by_cases hpi : p.1 = i
    · rw [hpi, Function.update_self]
      rcases List.mem_append.mp (hcands ▸ hp) with hp | hp
      · exact (h.reached p hp).trans (hpi ▸ Nat.le_succ _)
      · obtain rfl := List.mem_singleton.mp hp
        exact le_rfl
    · rw [Function.update_of_ne hpi]
      rcases List.mem_append.mp (hcands ▸ hp) with hp | hp
      · exact h.reached p hp
      · exact absurd (congrArg Prod.fst (List.mem_singleton.mp hp)) hpi
  stands j hj := by
    rw [hservers] at hj ⊢
    rw [hcands]
    by_cases hji : j = i
    · subst hji
      rw [Function.update_self]
      exact ⟨rfl, List.mem_append_right _ (List.mem_singleton.mpr rfl)⟩
    · rw [Function.update_of_ne hji] at hj ⊢
      exact ⟨(h.stands j hj).1, List.mem_append_left _ (h.stands j hj).2⟩

/-- Steps that change neither a server nor a candidacy keep what holds of the terms. -/
theorem Standing.of_eq {c c' : Cluster n} (h : Standing c) (hservers : c'.servers = c.servers)
    (hcands : c'.candidacies = c.candidacies) : Standing c' where
  ordered := hcands ▸ h.ordered
  reached := by
    rw [hcands, hservers]
    exact h.reached
  stands := by
    rw [hcands, hservers]
    exact h.stands

theorem standing_step {c c' : Cluster n} {a : Action n} (h : Standing c)
    (hstep : c.step a = some c') : Standing c' := by
  have hcands := Cluster.candidacies_step hstep
  cases Cluster.Step.of_step hstep with
  | timeout i hstate => exact h.timeout rfl hcands
  | heartbeat i hstate => exact h.of_eq rfl rfl
  | recvRequestVote hk hcall =>
    exact h.setServer rfl (hcands.trans (List.append_nil _))
      (Server.requestVote_advances _ _) (Server.requestVote_onlyStepsDown _ _)
  | recvVoteReply hk hcall =>
    exact h.setServer rfl (hcands.trans (List.append_nil _))
      (Server.handleVoteReply_advances _ _ _) (Server.handleVoteReply_onlyStepsDown _ _ _)
  | loseVoteCall hk => exact h.of_eq rfl (hcands.trans (List.append_nil _))
  | recvAppendEntries hk hcall =>
    exact h.setServer rfl (hcands.trans (List.append_nil _))
      (Server.appendEntries_advances _ _) (Server.appendEntries_onlyStepsDown _ _)
  | recvAppendReply hk hcall => exact h.of_eq rfl rfl
  | loseHeartbeat hk => exact h.of_eq rfl rfl

theorem standing_of_steps {c : Cluster n} {bs : List (Ballot (Fin n) (Fin n))}
    {ok : Cluster n → Action n → Prop} (h : (Cluster.system n).Steps ok (Cluster.init n) bs c) :
    Standing c :=
  h.invariant (I := fun _ c => Standing c) (standing_init n)
    fun hI hstep _ => standing_step hI hstep

/-! ### The campaigns that win -/

/-- A campaign with a majority of votes was won with the ballots of that majority. -/
theorem Campaign.Inv.elected {bs : List (Ballot (Fin n) (Fin n))} {camp : Campaign n}
    (h : camp.Inv bs) (hmaj : n / 2 < camp.election.votes) :
    Elected bs camp.election.me camp.election.currentTerm := by
  obtain ⟨W, hcard, hW⟩ := h.counted
  refine ⟨W, ?_, fun w hw => (hW w hw).1⟩
  rw [IsMajority, Fintype.card_fin]
  exact hmaj.trans_le hcard

theorem Cluster.getElem?_candidacies {c : Cluster n} {k : ℕ} {camp : Campaign n}
    (hk : c.campaigns[k]? = some camp) : c.candidacies[k]? = some camp.candidacy := by
  rw [candidacies, List.getElem?_map, hk]
  rfl

/-- No candidacy is opened twice. -/
theorem Standing.injective {c : Cluster n} (h : Standing c) {k k' : ℕ} {p : Fin n × ℕ}
    (hk : c.candidacies[k]? = some p) (hk' : c.candidacies[k']? = some p) : k = k' := by
  obtain ⟨hlt, hget⟩ := List.getElem?_eq_some_iff.mp hk
  obtain ⟨hlt', hget'⟩ := List.getElem?_eq_some_iff.mp hk'
  have hpairs := List.pairwise_iff_getElem.mp h.ordered
  rcases Nat.lt_trichotomy k k' with hkk | hkk | hkk
  · have := hpairs k k' hlt hlt' hkk
    rw [hget, hget'] at this
    exact absurd (this rfl) (Nat.lt_irrefl _)
  · exact hkk
  · have := hpairs k' k hlt' hlt hkk
    rw [hget, hget'] at this
    exact absurd (this rfl) (Nat.lt_irrefl _)

/-- **One winning campaign for each term.** In every run, at any two moments of it, two campaigns
of one term that have each counted the votes of a majority are the same campaign. -/
theorem winningCampaign_unique {c c' : Cluster n} {bs bs' : List (Ballot (Fin n) (Fin n))}
    (h : (Cluster.system n).Steps ObservedSystem.always (Cluster.init n) bs c)
    (h' : (Cluster.system n).Steps ObservedSystem.always c bs' c') {k k' : ℕ}
    {camp camp' : Campaign n} (hk : c.campaigns[k]? = some camp)
    (hk' : c'.campaigns[k']? = some camp') (hmaj : n / 2 < camp.election.votes)
    (hmaj' : n / 2 < camp'.election.votes)
    (hterm : camp.election.currentTerm = camp'.election.currentTerm) : k = k' := by
  have hrun := h.trans h'
  have helect : Elected (bs ++ bs') camp.election.me camp.election.currentTerm :=
    ((campaignsBacked_of_steps h camp (List.mem_of_getElem? hk)).elected hmaj).append _
  have helect' : Elected (bs ++ bs') camp'.election.me camp'.election.currentTerm :=
    (campaignsBacked_of_steps hrun camp' (List.mem_of_getElem? hk')).elected hmaj'
  rw [hterm] at helect
  have hme := helect.unique ((Cluster.votingSystem n).oneVotePerTerm hrun) helect'
  have hsame : camp.candidacy = camp'.candidacy := Prod.ext hme hterm
  -- the earlier candidacy is still at its place later
  obtain ⟨rest, hrest⟩ := candidacies_prefix h'
  have hlater : c'.candidacies[k]? = some camp'.candidacy := by
    have hat := Cluster.getElem?_candidacies hk
    obtain ⟨hlt, -⟩ := List.getElem?_eq_some_iff.mp hat
    rw [← hrest, List.getElem?_append_left hlt, hat, hsame]
  exact (standing_of_steps hrun).injective hlater (Cluster.getElem?_candidacies hk')

/-- Servers 0 and 1 stand for term 1, and server 2 votes for server 0: the campaign of server 0 has
a majority from then on. -/
theorem winningCampaign_unique_first :
    let start := ((Cluster.system 3).exec ObservedSystem.always (Cluster.init 3)
      [.timeout 0, .timeout 1, .recvRequestVote 0 2, .recvVoteReply 0 2]).get (by decide)
    let rest := ((Cluster.system 3).exec ObservedSystem.always start.2
      [.recvRequestVote 1 2, .recvVoteReply 1 2]).get (by decide)
    ∃ camp camp', start.2.campaigns[0]? = some camp ∧ rest.2.campaigns[0]? = some camp' ∧
      3 / 2 < camp.election.votes ∧ 3 / 2 < camp'.election.votes ∧ (0 : ℕ) = 0 := by
  intro start rest
  have hstart : (Cluster.system 3).Steps ObservedSystem.always (Cluster.init 3) start.1 start.2 :=
    ObservedSystem.steps_get_exec _
  have hrest : (Cluster.system 3).Steps ObservedSystem.always start.2 rest.1 rest.2 :=
    ObservedSystem.steps_get_exec _
  have hk := List.getElem?_eq_getElem (show 0 < start.2.campaigns.length by decide)
  have hk' := List.getElem?_eq_getElem (show 0 < rest.2.campaigns.length by decide)
  exact ⟨_, _, hk, hk', by decide, by decide,
    winningCampaign_unique hstart hrest hk hk' (by decide) (by decide) (by decide)⟩

/-! ### What makes a leader -/

/-- Server `i` has a campaign with a majority of votes, of its current term or an earlier one. -/
def Cluster.HasMajority (c : Cluster n) (i : Fin n) : Prop :=
  ∃ camp ∈ c.campaigns, camp.election.me = i ∧
    camp.election.currentTerm ≤ (c.servers i).currentTerm ∧ n / 2 < camp.election.votes

/-- Majorities are not lost: terms and counts only grow, and no campaign is dropped. -/
theorem Cluster.HasMajority.of_campaigns {c c' : Cluster n} {i : Fin n} (h : c.HasMajority i)
    (hterm : (c.servers i).currentTerm ≤ (c'.servers i).currentTerm)
    (hcamps : ∀ camp ∈ c.campaigns, ∃ camp' ∈ c'.campaigns,
      camp'.election.me = camp.election.me ∧
      camp'.election.currentTerm = camp.election.currentTerm ∧
      camp.election.votes ≤ camp'.election.votes) : c'.HasMajority i := by
  obtain ⟨camp, hcamp, hme, ht, hv⟩ := h
  obtain ⟨camp', hcamp', hme', ht', hv'⟩ := hcamps camp hcamp
  exact ⟨camp', hcamp', hme'.trans hme, (ht'.le.trans ht).trans hterm, hv.trans_le hv'⟩

/-- What a vote reply leaves of the election it belongs to. -/
theorem Server.handleVoteReply_stage (rf : Server n) (e : Election n) (reply : RequestVoteReply) :
    (rf.handleVoteReply e reply).2.me = e.me ∧
      (rf.handleVoteReply e reply).2.currentTerm = e.currentTerm ∧
      e.votes ≤ (rf.handleVoteReply e reply).2.votes := by
  rcases rf.handleVoteReply_election e reply with h | ⟨-, h⟩
  · rw [h]
    exact ⟨rfl, rfl, le_rfl⟩
  · rw [h]
    exact ⟨rfl, rfl, Nat.le_succ _⟩

/-- A step keeps every campaign, or a later stage of it. -/
theorem Cluster.exists_mem_step {c c' : Cluster n} {a : Action n} (h : c.step a = some c') :
    ∀ d ∈ c.campaigns, ∃ d' ∈ c'.campaigns, d'.election.me = d.election.me ∧
      d'.election.currentTerm = d.election.currentTerm ∧ d.election.votes ≤ d'.election.votes := by
  cases Cluster.Step.of_step h with
  | timeout i hstate =>
    exact fun d hd => ⟨d, List.mem_append_left _ hd, rfl, rfl, le_rfl⟩
  | heartbeat i hstate => exact exists_mem_self c
  | recvRequestVote hk hcall =>
    exact exists_mem_setCampaign (c := c.setServer _ _) hk rfl rfl le_rfl
  | recvVoteReply hk hcall =>
    obtain ⟨hme, hterm, hvotes⟩ := Server.handleVoteReply_stage (c.servers _) _ _
    exact exists_mem_setCampaign (c := c.setServer _ _) hk hme hterm hvotes
  | loseVoteCall hk => exact exists_mem_setCampaign hk rfl rfl le_rfl
  | recvAppendEntries hk hcall => exact exists_mem_self c
  | recvAppendReply hk hcall => exact exists_mem_self c
  | loseHeartbeat hk => exact exists_mem_self c

/-- Replacing server `j` makes a leader of nobody but `j`. -/
theorem leader_setServer {c : Cluster n} {j i : Fin n} {rf : Server n} {P : Prop}
    (hi : ((c.setServer j rf).servers i).state = .leader)
    (hj : i = j → rf.state = .leader → (c.servers j).state = .leader ∨ P) :
    (c.servers i).state = .leader ∨ P := by
  simp only [Cluster.setServer] at hi
  by_cases hij : i = j
  · subst hij
    rw [Function.update_self] at hi
    exact hj rfl hi
  · rw [Function.update_of_ne hij] at hi
    exact Or.inl hi

/-- A leader after a step was leader before, or received a vote and has a majority: the vote it
counted is of a term that is not ahead of its own. -/
theorem Cluster.leader_step {c c' : Cluster n} {a : Action n} (h : c.step a = some c') {i : Fin n}
    (hi : (c'.servers i).state = .leader) : (c.servers i).state = .leader ∨
      (∃ k peer, a = .recvVoteReply k peer) ∧ c'.HasMajority i := by
  cases Cluster.Step.of_step h with
  | timeout j hstate =>
    exact leader_setServer hi fun _ hlead => absurd hlead ServerState.noConfusion
  | heartbeat j hstate => exact Or.inl hi
  | recvRequestVote hk hcall =>
    exact leader_setServer hi fun _ hlead => Or.inl (Server.requestVote_leader hlead).1
  | @recvVoteReply k peer camp reply hk hcall =>
    refine leader_setServer hi fun hme hlead => ?_
    obtain ⟨hsame, hbefore | ⟨hle, hcount, hmaj⟩⟩ := Server.handleVoteReply_leader hlead
    · exact Or.inl hbefore
    · obtain ⟨hk', -⟩ := List.getElem?_eq_some_iff.mp hk
      obtain ⟨hme', hterm, -⟩ :=
        (c.servers camp.election.me).handleVoteReply_stage camp.election reply
      refine Or.inr ⟨⟨k, peer, rfl⟩, _, List.mem_set hk' _, hme'.trans hme.symm, ?_, hmaj⟩
      simp only [setCampaign, setServer, hme, Function.update_self]
      rw [hterm, hsame, ← hcount.2.1]
      exact not_lt.mp hle
  | loseVoteCall hk => exact Or.inl hi
  | recvAppendEntries hk hcall =>
    refine leader_setServer hi fun _ hlead => Or.inl ?_
    rwa [Server.appendEntries_leader hlead] at hlead
  | recvAppendReply hk hcall => exact Or.inl hi
  | loseHeartbeat hk => exact Or.inl hi

theorem hasMajority_of_steps {c : Cluster n} {bs : List (Ballot (Fin n) (Fin n))}
    {ok : Cluster n → Action n → Prop} (h : (Cluster.system n).Steps ok (Cluster.init n) bs c) :
    ∀ i, (c.servers i).state = .leader → c.HasMajority i := by
  refine h.invariant (I := fun _ c => ∀ i, (c.servers i).state = .leader → c.HasMajority i)
    (fun i hi => ?_) fun hI hstep _ i hi => ?_
  · cases hi
  · rcases Cluster.leader_step hstep hi with hbefore | ⟨-, hnow⟩
    · exact (hI i hbefore).of_campaigns (Cluster.step_advances hstep i).term_le
        (Cluster.exists_mem_step hstep)
    · exact hnow

/-- **A leader has won some term.** In every run, whoever is leader was elected by a majority, in
its current term or an earlier one, and in that term nobody else is ever elected. -/
theorem leader_has_majority {c c' : Cluster n} {bs bs' : List (Ballot (Fin n) (Fin n))}
    (h : (Cluster.system n).Steps ObservedSystem.always (Cluster.init n) bs c)
    (h' : (Cluster.system n).Steps ObservedSystem.always c bs' c') {i : Fin n}
    (hi : (c.servers i).state = .leader) :
    ∃ t ≤ (c.servers i).currentTerm, Elected bs i t ∧ ∀ j, Elected (bs ++ bs') j t → j = i := by
  obtain ⟨camp, hcamp, hme, hle, hmaj⟩ := hasMajority_of_steps h i hi
  have helect := (campaignsBacked_of_steps h camp hcamp).elected hmaj
  rw [hme] at helect
  refine ⟨camp.election.currentTerm, hle, helect, fun j hj => ?_⟩
  exact hj.unique ((Cluster.votingSystem n).oneVotePerTerm (h.trans h')) (helect.append _)

/-- Server 0 leads term 2 with the votes of term 1, as in `staleVoteRun`. -/
theorem leader_has_majority_stale :
    let run := ((Cluster.system 3).exec ObservedSystem.always (Cluster.init 3)
      staleVoteRun).get (by decide)
    ∃ t ≤ (run.2.servers 0).currentTerm, Elected run.1 0 t ∧
      ∀ j, Elected (run.1 ++ []) j t → j = 0 :=
  leader_has_majority (ObservedSystem.steps_get_exec (by decide)) (.refl _) (by decide)

end Raft

end Csc512
