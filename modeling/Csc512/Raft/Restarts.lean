import Csc512.Raft.Progress
import Csc512.Lib.Forgetting

/-!
# Servers that crash and start again

`config.go` kills a server and makes a new one in its place. `persist` and `readPersist` do nothing,
so the new server begins in term zero and has not voted; the goroutines of the old one can no longer
send, and count votes for a server that nobody looks at. Messages that are under way still arrive,
as they may where the old server had sent them before.

Without restarts at most one campaign wins a term. With them two can, and then some server voted for
both and was restarted in between. In every cluster of three or more, two servers can be leaders of
one term, each elected by a majority of it, although one of them was never restarted.

## Main results

* `winners_share_restarted` — what it takes for two servers to win one term
* `rivals_reachable` — that it happens
-/

namespace Csc512

namespace Raft

variable {n : ℕ}

/-! ### The system -/

/-- The cluster, and the campaigns whose server was restarted since. -/
structure RestartCluster (n : ℕ) where
  cluster : Cluster n
  orphans : List ℕ := []

inductive RestartAction (n : ℕ) where
  | act (a : Action n)
  | restart (i : Fin n)

def RestartCluster.init (n : ℕ) : RestartCluster n where
  cluster := Cluster.init n

/-- The campaigns that server `i` has started. -/
def Cluster.campaignsOf (c : Cluster n) (i : Fin n) : List ℕ :=
  (List.range c.campaigns.length).filter fun k =>
    (c.campaigns[k]?.map fun camp => camp.election.me) = some i

/-- A goroutine of a killed server has no server to report to. -/
def RestartCluster.orphaned (d : RestartCluster n) : Action n → Bool
  | .recvVoteReply k _ => k ∈ d.orphans
  | _ => false

def RestartCluster.step (d : RestartCluster n) : RestartAction n → Option (RestartCluster n)
  | .act a =>
    if d.orphaned a then none else (d.cluster.step a).map fun c => { d with cluster := c }
  | .restart i =>
    -- `crash1` and `start1`
    some {
      cluster := d.cluster.setServer i (Server.make n)
      orphans := d.orphans ++ d.cluster.campaignsOf i }

def RestartCluster.events (d : RestartCluster n) :
    RestartAction n → List (VoteEvent (Fin n) (Fin n))
  | .act a => (d.cluster.ballots a).map .vote
  | .restart i => [.forget i]

/-- The cluster with restarts, observed through its ballots and the restarts. -/
def RestartCluster.system (n : ℕ) :
    ObservedSystem (RestartCluster n) (RestartAction n) (VoteEvent (Fin n) (Fin n)) where
  step := RestartCluster.step
  observe := RestartCluster.events

/-- The enabled steps. -/
inductive RestartCluster.Step (d : RestartCluster n) : RestartAction n → RestartCluster n → Prop
  | act {a : Action n} {c : Cluster n} (horphan : d.orphaned a = false)
      (hstep : d.cluster.step a = some c) : Step d (.act a) { d with cluster := c }
  | restart (i : Fin n) : Step d (.restart i)
      { cluster := d.cluster.setServer i (Server.make n)
        orphans := d.orphans ++ d.cluster.campaignsOf i }

theorem RestartCluster.Step.of_step {d d' : RestartCluster n} {a : RestartAction n}
    (h : d.step a = some d') : RestartCluster.Step d a d' := by
  cases a with
  | act a =>
    rw [step] at h
    split at h
    · cases h
    · rename_i horphan
      obtain ⟨c, hstep, rfl⟩ := Option.map_eq_some_iff.mp h
      exact .act (Bool.eq_false_iff.mpr horphan) hstep
  | restart i =>
    cases h
    exact .restart i

/-! ### Voters that may forget -/

theorem Cluster.length_ballots (c : Cluster n) (a : Action n) : (c.ballots a).length ≤ 1 := by
  cases a <;> simp only [ballots] <;> repeat' split
  all_goals simp

/-- **A cluster with restarts is a system of voters that may forget.** -/
theorem RestartCluster.forgettingSystem (n : ℕ) :
    ForgettingSystem (RestartCluster.system n) fun d => d.cluster.voter where
  atMostOne d a := by
    cases a with
    | act a => simpa [system, events] using d.cluster.length_ballots a
    | restart i => exact le_rfl
  advances h v hforget := by
    cases Step.of_step h with
    | act horphan hstep => exact Cluster.step_advances hstep v
    | restart i =>
      have hvi : v ≠ i := fun heq => hforget (List.mem_singleton.mpr (by rw [heq]))
      simpa [Cluster.voter, Cluster.setServer, hvi] using Voter.Advances.refl _
  recorded h b hb := by
    cases Step.of_step h with
    | act horphan hstep =>
      obtain ⟨b', hb', heq⟩ := List.mem_map.mp hb
      rw [VoteEvent.vote.inj heq] at hb'
      exact Cluster.step_recorded hstep b hb'
    | restart i => simp [system, events] at hb

theorem ballotsOf_events_act (es : List (VoteEvent (Fin n) (Fin n))) (d : RestartCluster n)
    (a : Action n) : ballotsOf (es ++ d.events (.act a)) = ballotsOf es ++ d.cluster.ballots a := by
  have hvotes : ∀ bs : List (Ballot (Fin n) (Fin n)),
      ballotsOf (bs.map VoteEvent.vote) = bs := by
    intro bs
    induction bs with
    | nil => rfl
    | cons b bs ih => simpa [ballotsOf, VoteEvent.ballot?] using ih
  rw [ballotsOf, List.filterMap_append]
  exact congrArg _ (hvotes _)

/-- A restart does not touch what the votes of a campaign come from. -/
theorem restartBacked_of_steps {d : RestartCluster n} {es : List (VoteEvent (Fin n) (Fin n))}
    {ok : RestartCluster n → RestartAction n → Prop}
    (h : (RestartCluster.system n).Steps ok (RestartCluster.init n) es d) :
    CampaignsBacked (ballotsOf es) d.cluster := by
  refine h.invariant (I := fun es d => CampaignsBacked (ballotsOf es) d.cluster)
    (fun _ hcamp => absurd hcamp List.not_mem_nil) fun {es d d' a} hI henabled _ => ?_
  have hdid : d.Step a d' := RestartCluster.Step.of_step henabled
  cases hdid with
  | @act a c horphan hstep =>
    show CampaignsBacked (ballotsOf (es ++ d.events (.act a))) c
    rw [ballotsOf_events_act]
    exact campaignsBacked_step hI hstep
  | restart i =>
    have hsame : ballotsOf (es ++ d.events (.restart i)) = ballotsOf es := by
      simp [ballotsOf, RestartCluster.events, VoteEvent.ballot?]
    show CampaignsBacked (ballotsOf (es ++ d.events (.restart i))) d.cluster
    rw [hsame]
    exact hI

/-- **Two servers that win one term share a voter that was restarted.** In every run with restarts,
where campaigns of two servers have a majority in one term, some server gave both its vote, and was
restarted after the one and before the other. -/
theorem winners_share_restarted {d : RestartCluster n} {es : List (VoteEvent (Fin n) (Fin n))}
    {ok : RestartCluster n → RestartAction n → Prop}
    (h : (RestartCluster.system n).Steps ok (RestartCluster.init n) es d)
    {camp camp' : Campaign n} (hcamp : camp ∈ d.cluster.campaigns)
    (hcamp' : camp' ∈ d.cluster.campaigns) (hwon : n / 2 < camp.election.votes)
    (hwon' : n / 2 < camp'.election.votes)
    (hterm : camp.election.currentTerm = camp'.election.currentTerm)
    (hrivals : camp.election.me ≠ camp'.election.me) :
    ∃ v, ForgotVote es v camp.election.currentTerm camp.election.me camp'.election.me := by
  have hbacked := restartBacked_of_steps h
  have helected := (hbacked camp hcamp).elected hwon
  have helected' := (hbacked camp' hcamp').elected hwon'
  rw [← hterm] at helected'
  exact helected.exists_forgot ((RestartCluster.forgettingSystem n).forgotBetween h) helected'
    hrivals

/-- Server 1 votes for server 0, is restarted, and votes for server 2 in the same term. -/
def forgottenVote : List (RestartAction 3) :=
  [.act (.timeout 0), .act (.recvRequestVote 0 1), .act (.recvVoteReply 0 1), .restart 1,
    .act (.timeout 2), .act (.recvRequestVote 1 1), .act (.recvVoteReply 1 1)]

theorem winners_share_restarted_once :
    let run := ((RestartCluster.system 3).exec ObservedSystem.always (RestartCluster.init 3)
      forgottenVote).get (by decide)
    ∃ v, ForgotVote run.1 v 1 0 2 :=
  winners_share_restarted (ObservedSystem.steps_get_exec (by decide))
    (List.get_mem _ ⟨0, by decide⟩) (List.get_mem _ ⟨1, by decide⟩) (by decide) (by decide)
    (by decide) (by decide)

/-! ### Two leaders of one term -/

/-- A run with restarts that may be continued in any way, in which nobody but `js` is restarted. -/
def RestartCluster.CanReach (d : RestartCluster n) (js : List (Fin n)) (d' : RestartCluster n) :
    Prop :=
  ∃ es, (RestartCluster.system n).Steps ObservedSystem.always d es d' ∧ ∀ v, .forget v ∈ es → v ∈ js

theorem RestartCluster.CanReach.trans {d d' d'' : RestartCluster n} {js : List (Fin n)}
    (h : d.CanReach js d') (h' : d'.CanReach js d'') : d.CanReach js d'' := by
  obtain ⟨es, h, hjs⟩ := h
  obtain ⟨es', h', hjs'⟩ := h'
  exact ⟨es ++ es', h.trans h', fun v hv => (List.mem_append.mp hv).elim (hjs v) (hjs' v)⟩

/-- A run without restarts, where no campaign is orphaned. -/
theorem Cluster.CanReach.restarts {c c' : Cluster n} (h : c.CanReach c') (js : List (Fin n)) :
    RestartCluster.CanReach ⟨c, []⟩ js ⟨c', []⟩ := by
  obtain ⟨bs, h⟩ := h
  refine ⟨bs.map .vote, ?_, fun v hv => ?_⟩
  · induction h with
    | refl => exact .refl _
    | @tail t u os a run enabled cond ih =>
      have horphan : RestartCluster.orphaned ⟨t, []⟩ a = false := by
        cases a <;> simp [RestartCluster.orphaned]
      have henabled : t.step a = some u := enabled
      have hstep : (RestartCluster.system n).step ⟨t, []⟩ (.act a) = some ⟨u, []⟩ := by
        simp [RestartCluster.system, RestartCluster.step, horphan, henabled]
      rw [List.map_append]
      exact ih.tail hstep trivial
  · simp at hv

/-- A server that has started no campaign is restarted. -/
theorem RestartCluster.canReach_restart {c : Cluster n} {i : Fin n} {js : List (Fin n)}
    (hi : i ∈ js) (hcamps : ∀ camp ∈ c.campaigns, camp.election.me ≠ i) :
    RestartCluster.CanReach ⟨c, []⟩ js ⟨c.setServer i (Server.make n), []⟩ := by
  have hnone : c.campaignsOf i = [] := by
    refine List.filter_eq_nil_iff.mpr fun k hk => ?_
    have hlt : k < c.campaigns.length := List.mem_range.mp hk
    simpa [List.getElem?_eq_getElem hlt] using hcamps _ (List.getElem_mem hlt)
  have hstep : (system n).step ⟨c, []⟩ (.restart i) =
      some ⟨c.setServer i (Server.make n), []⟩ := by
    simp [system, step, hnone]
  refine ⟨_, .single hstep trivial, fun v hv => ?_⟩
  obtain rfl : v = i := by simpa [system, events] using hv
  exact hi

/-- The cluster after the servers `js` were restarted. -/
def Cluster.restartAll (c : Cluster n) (js : List (Fin n)) : Cluster n :=
  { c with servers := fun q => if q ∈ js then Server.make n else c.servers q }

theorem RestartCluster.canReach_restartAll {c : Cluster n} {js : List (Fin n)}
    (hcamps : ∀ camp ∈ c.campaigns, camp.election.me ∉ js) :
    RestartCluster.CanReach ⟨c, []⟩ js ⟨c.restartAll js, []⟩ := by
  suffices hpart : ∀ ks : List (Fin n), ks ⊆ js →
      RestartCluster.CanReach ⟨c, []⟩ js ⟨c.restartAll ks, []⟩ from hpart js (List.Subset.refl js)
  intro ks hks
  induction ks with
  | nil =>
    refine ⟨[], ?_, fun v hv => absurd hv List.not_mem_nil⟩
    simpa [Cluster.restartAll] using .refl _
  | cons k ks ih =>
    obtain ⟨hk, hks⟩ := List.cons_subset.mp hks
    have hnext : c.restartAll (k :: ks) = (c.restartAll ks).setServer k (Server.make n) := by
      simp only [Cluster.restartAll, Cluster.setServer, Cluster.mk.injEq, and_true]
      funext q
      by_cases hq : q = k <;> simp [hq]
    rw [hnext]
    exact (ih hks).trans (canReach_restart hk fun camp hcamp heq => hcamps camp hcamp (heq ▸ hk))

/-- **Two leaders of one term.** In a cluster of three or more servers, any two can be leaders of
one term at the same moment, each with the votes of a majority for it, although the first is never
restarted. -/
theorem rivals_reachable {i j : Fin n} (hn : 3 ≤ n) (hij : i ≠ j) :
    ∃ d es, (RestartCluster.system n).Steps ObservedSystem.always (RestartCluster.init n) es d ∧
      .forget i ∉ es ∧ (d.cluster.servers i).state = .leader ∧
      (d.cluster.servers j).state = .leader ∧
      (d.cluster.servers i).currentTerm = (d.cluster.servers j).currentTerm ∧
      d.cluster.HasWon i ∧ d.cluster.HasWon j := by
  -- `i` asks everybody in term 1
  have hfirst : Asking ((Cluster.init n).stand i) i 0 1 1 (peersOf i) :=
    Cluster.asking_stand (c := Cluster.init n) (by omega) (nodup_peersOf i)
      fun p hp => ⟨ne_of_mem_peersOf hp, le_rfl⟩
  obtain ⟨c₁, hreach₁, hasked₁, hwon₁⟩ := hfirst.exists_won (by rw [length_peersOf]; omega)
  obtain ⟨camp₁, hk₁, hme₁, hterm₁, hmaj₁⟩ := hwon₁.campaign
  have hcamps₁ : ∀ camp ∈ c₁.campaigns, camp.election.me = i := by
    intro camp hmem
    obtain ⟨k, hk⟩ := List.mem_iff_getElem?.mp hmem
    by_cases hzero : k = 0
    · subst hzero
      obtain rfl := Option.some.inj (hk.symm.trans hk₁)
      exact hme₁
    · rw [hasked₁.campaigns k hzero] at hk
      obtain ⟨k, rfl⟩ := Nat.exists_eq_succ_of_ne_zero hzero
      simp [Cluster.stand, Cluster.init] at hk
  -- everybody else is restarted
  let c₂ := c₁.restartAll (peersOf i)
  have hrestarted : ∀ p, p ≠ i → c₂.servers p = Server.make n := fun p hp => by
    simp [c₂, Cluster.restartAll, peersOf, hp]
  have hkept : c₂.servers i = c₁.servers i := by simp [c₂, Cluster.restartAll, peersOf]
  -- and `j` asks all but `i`
  have hrest : ∀ p ∈ (peersOf j).erase i, p ≠ j ∧ p ≠ i := fun p hp => by
    obtain ⟨hpi, hpj⟩ := (nodup_peersOf j).mem_erase_iff.mp hp
    exact ⟨ne_of_mem_peersOf hpj, hpi⟩
  have hsecond : Asking (c₂.stand j) j c₂.campaigns.length 1 1 ((peersOf j).erase i) := by
    have hstand := Cluster.asking_stand (c := c₂) (i := j) (by omega) ((nodup_peersOf j).erase i)
      fun p hp => ⟨(hrest p hp).1, by rw [hrestarted p (hrest p hp).2]; exact Nat.zero_le _⟩
    rwa [hrestarted j hij.symm] at hstand
  have hlength : ((peersOf j).erase i).length = n - 2 := by
    rw [List.length_erase_of_mem (by simp [peersOf, hij]), length_peersOf]
    omega
  obtain ⟨c₃, hreach₃, hasked₃, hwon₃⟩ := hsecond.exists_won (by rw [hlength]; omega)
  obtain ⟨camp₃, hk₃, hme₃, hterm₃, hmaj₃⟩ := hwon₃.campaign
  have hleader : c₃.servers i = c₁.servers i := by
    rw [hasked₃.servers i hij fun hmem => (hrest i hmem).2 rfl, Cluster.stand_of_ne _ hij, hkept]
  have hfirst₃ : c₃.campaigns[0]? = some camp₁ := by
    have hlt : 0 < c₂.campaigns.length := (List.getElem?_eq_some_iff.mp hk₁).1
    rw [hasked₃.campaigns 0 hlt.ne, ← hk₁]
    exact List.getElem?_append_left hlt
  have hstart : (Cluster.init n).CanReach c₁ :=
    (Cluster.CanReach.of_step (Cluster.step_timeout ServerState.noConfusion)).trans hreach₁
  have hend : c₂.CanReach c₃ := by
    refine (Cluster.CanReach.of_step (Cluster.step_timeout ?_)).trans hreach₃
    rw [hrestarted j hij.symm]
    exact ServerState.noConfusion
  have hmiddle : RestartCluster.CanReach ⟨c₁, []⟩ (peersOf i) ⟨c₂, []⟩ :=
    RestartCluster.canReach_restartAll fun camp hcamp hmem =>
      ne_of_mem_peersOf hmem (hcamps₁ camp hcamp)
  obtain ⟨es, hsteps, hjs⟩ := ((hstart.restarts _).trans hmiddle).trans (hend.restarts _)
  refine ⟨⟨c₃, []⟩, es, hsteps, fun hforget => ne_of_mem_peersOf (hjs i hforget) rfl, ?_,
    hwon₃.leader.1, ?_, ⟨camp₁, List.mem_of_getElem? hfirst₃, hme₁, ?_, hmaj₁⟩,
    ⟨camp₃, List.mem_of_getElem? hk₃, hme₃, ?_, hmaj₃⟩⟩
  · rw [hleader]
    exact hwon₁.leader.1
  · rw [hleader, hwon₁.leader.2, hwon₃.leader.2]
  · rw [hterm₁, hleader, hwon₁.leader.2]
  · rw [hterm₃, hwon₃.leader.2]

theorem rivals_reachable_three :
    ∃ d es, (RestartCluster.system 3).Steps ObservedSystem.always (RestartCluster.init 3) es d ∧
      .forget 0 ∉ es ∧ (d.cluster.servers 0).state = .leader ∧
      (d.cluster.servers 1).state = .leader ∧
      (d.cluster.servers 0).currentTerm = (d.cluster.servers 1).currentTerm ∧
      d.cluster.HasWon 0 ∧ d.cluster.HasWon 1 :=
  rivals_reachable (i := 0) (j := 1) le_rfl (by decide)

end Raft

end Csc512
