import Csc512.Raft.VoteDiscipline

/-!
# Election safety, and when it holds

A candidate counts the granted replies that carry the term captured when its election began. It
does not compare that term with the term it is in. A reply of an earlier election that arrives
while the server stands again is therefore counted, and can make it leader of a term for which it
has no majority: `not_electionSafety` runs this to two leaders of one term.

`electionSafety_of_countsOwnTerm` is the other side. In a run where every counted reply belongs to
the term the server is still in, a leader has the votes of a majority in its own term, and one
vote per server and term leaves room for one leader only.

## Main results

* `Campaign.Inv`, `campaignInv_of_steps` — a campaign's count is backed by ballots, in every run
* `leader_elected` — under the condition, a leader of a term was elected in it
* `electionSafety_of_countsOwnTerm` — two leaders of one term are one server, at any two moments
* `not_electionSafety` — without the condition this fails
-/

namespace Csc512

namespace Raft

variable {n : ℕ}

/-! ### The count of a campaign -/

/-- The reply a call holds, if it holds one. -/
def Call.reply? {ρ : Type} : Call ρ → Option ρ
  | .replied reply => some reply
  | _ => none

theorem Call.reply?_eq_some {ρ : Type} {call : Call ρ} {reply : ρ} :
    call.reply? = some reply ↔ call = .replied reply := by
  cases call <;> simp [reply?]

/-- What backs a campaign: a grant in flight is a ballot, and the votes counted so far come from
distinct servers whose calls are over. -/
structure Campaign.Inv (bs : List (Ballot (Fin n) (Fin n))) (camp : Campaign n) : Prop where
  granted : ∀ peer reply, camp.calls peer = .replied reply → reply.voteGranted = true →
    ⟨peer, reply.term, camp.election.me⟩ ∈ bs
  counted : ∃ W : Finset (Fin n), camp.election.votes ≤ W.card ∧
    ∀ w ∈ W, ⟨w, camp.election.currentTerm, camp.election.me⟩ ∈ bs ∧ camp.calls w = .done

/-- Later ballots do not hurt. -/
theorem Campaign.Inv.append {bs : List (Ballot (Fin n) (Fin n))} {camp : Campaign n}
    (h : camp.Inv bs) (more : List (Ballot (Fin n) (Fin n))) : camp.Inv (bs ++ more) where
  granted peer reply hcall hgrant := List.mem_append_left _ (h.granted peer reply hcall hgrant)
  counted := by
    obtain ⟨W, hcard, hW⟩ := h.counted
    exact ⟨W, hcard, fun w hw => ⟨List.mem_append_left _ (hW w hw).1, (hW w hw).2⟩⟩

/-- A new campaign has counted the candidate's own vote. -/
theorem Campaign.Inv.start {bs : List (Ballot (Fin n) (Fin n))} {e : Election n}
    (hvotes : e.votes = 1) (hmem : ⟨e.me, e.currentTerm, e.me⟩ ∈ bs) :
    (Campaign.start e).Inv bs where
  granted peer reply hcall _ := by
    simp only [Campaign.start] at hcall
    split at hcall <;> cases hcall
  counted := by
    refine ⟨{e.me}, by simp [Campaign.start, hvotes], fun w hw => ?_⟩
    obtain rfl := Finset.mem_singleton.mp hw
    exact ⟨hmem, by simp [Campaign.start]⟩

/-- Answering a call that was waiting keeps the campaign backed. -/
theorem Campaign.Inv.reply {bs : List (Ballot (Fin n) (Fin n))} {camp : Campaign n} {peer : Fin n}
    {reply : RequestVoteReply} (h : camp.Inv bs) (hcall : camp.calls peer = .sent)
    (hgrant : reply.voteGranted = true → ⟨peer, reply.term, camp.election.me⟩ ∈ bs) :
    (camp.setCall peer (.replied reply)).Inv bs where
  granted p r hp hr := by
    by_cases hpeer : p = peer
    · subst hpeer
      obtain rfl : reply = r := by simpa [Campaign.setCall] using hp
      exact hgrant hr
    · exact h.granted p r (by simpa [Campaign.setCall, hpeer] using hp) hr
  counted := by
    obtain ⟨W, hcard, hW⟩ := h.counted
    refine ⟨W, hcard, fun w hw => ⟨(hW w hw).1, ?_⟩⟩
    have hne : w ≠ peer := by
      rintro rfl
      rw [(hW w hw).2] at hcall
      cases hcall
    simpa [Campaign.setCall, hne] using (hW w hw).2

/-- Ending a call keeps the campaign backed. -/
theorem Campaign.Inv.finish {bs : List (Ballot (Fin n) (Fin n))} {camp : Campaign n}
    (h : camp.Inv bs) (peer : Fin n) : (camp.setCall peer .done).Inv bs where
  granted p r hp hr := by
    by_cases hpeer : p = peer
    · subst hpeer
      simp [Campaign.setCall] at hp
    · exact h.granted p r (by simpa [Campaign.setCall, hpeer] using hp) hr
  counted := by
    obtain ⟨W, hcard, hW⟩ := h.counted
    refine ⟨W, hcard, fun w hw => ⟨(hW w hw).1, ?_⟩⟩
    by_cases hpeer : w = peer
    · subst hpeer
      simp [Campaign.setCall]
    · simpa [Campaign.setCall, hpeer] using (hW w hw).2

/-- Counting a granted reply of the captured term adds its sender, whose call was not over. -/
theorem Campaign.Inv.count {bs : List (Ballot (Fin n) (Fin n))} {camp : Campaign n} {peer : Fin n}
    {reply : RequestVoteReply} (h : camp.Inv bs) (hcall : camp.calls peer = .replied reply)
    (hterm : reply.term = camp.election.currentTerm) (hgrant : reply.voteGranted = true) :
    ({ camp.setCall peer .done with
      election := { camp.election with votes := camp.election.votes + 1 } } :
        Campaign n).Inv bs where
  granted := (h.finish peer).granted
  counted := by
    obtain ⟨W, hcard, hW⟩ := h.counted
    have hpeer : peer ∉ W := by
      intro hw
      rw [(hW peer hw).2] at hcall
      cases hcall
    refine ⟨insert peer W, ?_, fun w hw => ?_⟩
    · rw [Finset.card_insert_of_notMem hpeer]
      exact Nat.succ_le_succ hcard
    · rcases Finset.mem_insert.mp hw with rfl | hw
      · refine ⟨?_, by simp [Campaign.setCall]⟩
        rw [← hterm]
        exact h.granted w reply hcall hgrant
      · refine ⟨(hW w hw).1, ?_⟩
        have hne : w ≠ peer := fun heq => hpeer (heq ▸ hw)
        simpa [Campaign.setCall, hne] using (hW w hw).2

/-- Handling a reply keeps the campaign backed, whether or not the reply counts. -/
theorem Campaign.Inv.handleVoteReply {bs : List (Ballot (Fin n) (Fin n))} {camp : Campaign n}
    {peer : Fin n} {reply : RequestVoteReply} (h : camp.Inv bs)
    (hcall : camp.calls peer = .replied reply) (rf : Server n) :
    ({ camp.setCall peer .done with
      election := (rf.handleVoteReply camp.election reply).2 } : Campaign n).Inv bs := by
  rcases rf.handleVoteReply_election camp.election reply with heq | ⟨hcount, heq⟩
  · rw [heq]
    exact h.finish peer
  · rw [heq]
    exact h.count hcall hcount.2.1 hcount.2.2

/-! ### Every campaign of every run -/

/-- Every open or finished campaign is backed by the ballots cast so far. -/
def CampaignsBacked (bs : List (Ballot (Fin n) (Fin n))) (c : Cluster n) : Prop :=
  ∀ camp ∈ c.campaigns, camp.Inv bs

theorem campaignsBacked_setCampaign {bs : List (Ballot (Fin n) (Fin n))} {c : Cluster n} {k : ℕ}
    {camp : Campaign n} (h : CampaignsBacked bs c) (hcamp : camp.Inv bs) :
    CampaignsBacked bs (c.setCampaign k camp) := by
  intro d hd
  rcases List.mem_or_eq_of_mem_set hd with hd | rfl
  · exact h d hd
  · exact hcamp

theorem campaignsBacked_step {bs : List (Ballot (Fin n) (Fin n))} {c c' : Cluster n} {a : Action n}
    (h : CampaignsBacked bs c) (hstep : c.step a = some c') :
    CampaignsBacked (bs ++ c.ballots a) c' := by
  have hold : CampaignsBacked (bs ++ c.ballots a) c := fun camp hcamp => (h camp hcamp).append _
  cases Cluster.Step.of_step hstep with
  | timeout i hstate =>
    intro camp hcamp
    rcases List.mem_append.mp hcamp with hcamp | hcamp
    · exact hold camp hcamp
    · obtain rfl := List.mem_singleton.mp hcamp
      refine Campaign.Inv.start rfl (List.mem_append_right _ ?_)
      exact List.mem_singleton.mpr rfl
  | heartbeat i hstate => exact hold
  | @recvRequestVote k peer camp hk hcall =>
    refine campaignsBacked_setCampaign (c := c.setServer _ _) hold ?_
    refine (hold camp (List.mem_of_getElem? hk)).reply hcall fun hgrant => ?_
    refine List.mem_append_right _ ?_
    simp only [Cluster.ballots, hk, if_pos hgrant]
    exact List.mem_singleton.mpr rfl
  | @recvVoteReply k peer camp reply hk hcall =>
    exact campaignsBacked_setCampaign (c := c.setServer _ _) hold
      ((hold camp (List.mem_of_getElem? hk)).handleVoteReply hcall _)
  | @loseVoteCall k peer camp hk =>
    exact campaignsBacked_setCampaign hold ((hold camp (List.mem_of_getElem? hk)).finish peer)
  | recvAppendEntries hk hcall => exact hold
  | recvAppendReply hk hcall => exact hold
  | loseHeartbeat hk => exact hold

theorem campaignsBacked_of_steps {bs : List (Ballot (Fin n) (Fin n))} {c : Cluster n}
    {ok : Cluster n → Action n → Prop} (h : (Cluster.system n).Steps ok (Cluster.init n) bs c) :
    CampaignsBacked bs c :=
  h.invariant (fun _ hcamp => absurd hcamp List.not_mem_nil)
    fun hI hstep _ => campaignsBacked_step hI hstep

/-! ### Leaders -/

/-- A step counts only votes of the term its server is in: where the reply that is handled
counts, the election it belongs to began in the server's current term. -/
def Cluster.CountsOwnTerm (c : Cluster n) : Action n → Prop
  | .recvVoteReply k peer =>
    ∀ camp ∈ c.campaigns[k]?, ∀ reply ∈ (camp.calls peer).reply?,
      (c.servers camp.election.me).countsVote camp.election reply →
        camp.election.currentTerm = (c.servers camp.election.me).currentTerm
  | _ => True

instance (c : Cluster n) : ∀ a, Decidable (c.CountsOwnTerm a)
  | .recvVoteReply _ _ => inferInstanceAs (Decidable (∀ _ ∈ _, _))
  | .timeout _ | .heartbeat _ | .recvRequestVote _ _ | .loseVoteCall _ _ | .recvAppendEntries _
  | .recvAppendReply _ | .loseHeartbeat _ => isTrue trivial

/-- Server `i` has a campaign of its current term with a majority of votes. -/
def Cluster.HasWon (c : Cluster n) (i : Fin n) : Prop :=
  ∃ camp ∈ c.campaigns, camp.election.me = i ∧
    camp.election.currentTerm = (c.servers i).currentTerm ∧ n / 2 < camp.election.votes

/-- Every leader has won its term. -/
def LeadersHaveWon (c : Cluster n) : Prop :=
  ∀ i, (c.servers i).state = .leader → c.HasWon i

/-- A server that stays in its term keeps what it has won, as long as campaigns are only added,
or replaced by ones of the same election with no fewer votes. -/
theorem Cluster.HasWon.of_campaigns {c c' : Cluster n} {i : Fin n} (h : c.HasWon i)
    (hterm : (c'.servers i).currentTerm = (c.servers i).currentTerm)
    (hcamps : ∀ camp ∈ c.campaigns, ∃ camp' ∈ c'.campaigns,
      camp'.election.me = camp.election.me ∧
      camp'.election.currentTerm = camp.election.currentTerm ∧
      camp.election.votes ≤ camp'.election.votes) : c'.HasWon i := by
  obtain ⟨camp, hcamp, hme, ht, hv⟩ := h
  obtain ⟨camp', hcamp', hme', ht', hv'⟩ := hcamps camp hcamp
  exact ⟨camp', hcamp', hme'.trans hme, (ht'.trans ht).trans hterm.symm, hv.trans_le hv'⟩

/-- Campaign `k` replaced by a later stage of itself. -/
theorem exists_mem_setCampaign {c : Cluster n} {k : ℕ} {camp camp' : Campaign n}
    (hk : c.campaigns[k]? = some camp) (hme : camp'.election.me = camp.election.me)
    (hterm : camp'.election.currentTerm = camp.election.currentTerm)
    (hvotes : camp.election.votes ≤ camp'.election.votes) :
    ∀ d ∈ c.campaigns, ∃ d' ∈ (c.setCampaign k camp').campaigns,
      d'.election.me = d.election.me ∧ d'.election.currentTerm = d.election.currentTerm ∧
      d.election.votes ≤ d'.election.votes := by
  intro d hd
  obtain ⟨j, hj, rfl⟩ := List.mem_iff_getElem.mp hd
  obtain ⟨hk', hkd⟩ := List.getElem?_eq_some_iff.mp hk
  have hj' : j < (c.campaigns.set k camp').length := by simpa using hj
  refine ⟨(c.campaigns.set k camp')[j], List.getElem_mem hj', ?_⟩
  by_cases hjk : k = j
  · subst hjk
    rw [List.getElem_set_self, hkd]
    exact ⟨hme, hterm, hvotes⟩
  · rw [List.getElem_set_ne hjk]
    exact ⟨rfl, rfl, le_rfl⟩

/-- The campaigns that were there are still there. -/
theorem exists_mem_self (c : Cluster n) : ∀ d ∈ c.campaigns, ∃ d' ∈ c.campaigns,
    d'.election.me = d.election.me ∧ d'.election.currentTerm = d.election.currentTerm ∧
    d.election.votes ≤ d'.election.votes :=
  fun d hd => ⟨d, hd, rfl, rfl, le_rfl⟩

/-- Replacing one server by a state that is leader only if it was, in the same term, keeps every
leader a winner. -/
theorem LeadersHaveWon.setServer {c c' : Cluster n} {j : Fin n} {rf : Server n}
    (h : LeadersHaveWon c) (hservers : c'.servers = Function.update c.servers j rf)
    (hcamps : ∀ d ∈ c.campaigns, ∃ d' ∈ c'.campaigns, d'.election.me = d.election.me ∧
      d'.election.currentTerm = d.election.currentTerm ∧ d.election.votes ≤ d'.election.votes)
    (hrf : rf.state = .leader →
      c'.HasWon j ∨ (c.servers j).state = .leader ∧ rf.currentTerm = (c.servers j).currentTerm) :
    LeadersHaveWon c' := by
  intro i hi
  rw [hservers] at hi
  by_cases hij : i = j
  · subst hij
    rw [Function.update_self] at hi
    rcases hrf hi with hwon | ⟨hlead, hterm⟩
    · exact hwon
    · exact (h i hlead).of_campaigns (by rw [hservers, Function.update_self, hterm]) hcamps
  · rw [Function.update_of_ne hij] at hi
    exact (h i hi).of_campaigns (by rw [hservers, Function.update_of_ne hij]) hcamps

theorem leadersHaveWon_step {c c' : Cluster n} {a : Action n} (h : LeadersHaveWon c)
    (hstep : c.step a = some c') (hok : c.CountsOwnTerm a) : LeadersHaveWon c' := by
  cases Cluster.Step.of_step hstep with
  | timeout i hstate =>
    refine h.setServer rfl (fun d hd => ⟨d, List.mem_append_left _ hd, rfl, rfl, le_rfl⟩) ?_
    intro hlead
    cases hlead
  | heartbeat i hstate => exact h
  | @recvRequestVote k peer camp hk hcall =>
    refine h.setServer rfl (exists_mem_setCampaign (c := c.setServer _ _) hk rfl rfl le_rfl) ?_
    intro hlead
    exact Or.inr (Server.requestVote_leader hlead)
  | @recvVoteReply k peer camp reply hk hcall =>
    -- the only step that makes a leader: the campaign that counted is the one it has won
    have hstage := (c.servers camp.election.me).handleVoteReply_election camp.election reply
    have hme : ((c.servers camp.election.me).handleVoteReply camp.election reply).2.me
        = camp.election.me := by
      rcases hstage with heq | ⟨-, heq⟩ <;> rw [heq]
    have hterm : ((c.servers camp.election.me).handleVoteReply camp.election reply).2.currentTerm
        = camp.election.currentTerm := by
      rcases hstage with heq | ⟨-, heq⟩ <;> rw [heq]
    have hvotes : camp.election.votes
        ≤ ((c.servers camp.election.me).handleVoteReply camp.election reply).2.votes := by
      rcases hstage with heq | ⟨-, heq⟩ <;> rw [heq]
      exact Nat.le_succ _
    refine h.setServer rfl
      (exists_mem_setCampaign (c := c.setServer _ _) hk hme hterm hvotes) ?_
    intro hlead
    obtain ⟨hsame, hbefore | ⟨-, hcount, hmaj⟩⟩ := Server.handleVoteReply_leader hlead
    · exact Or.inr ⟨hbefore, hsame⟩
    · have hown : camp.election.currentTerm = (c.servers camp.election.me).currentTerm :=
        hok camp hk reply (Call.reply?_eq_some.mpr hcall) hcount
      obtain ⟨hk', -⟩ := List.getElem?_eq_some_iff.mp hk
      refine Or.inl ⟨_, List.mem_set hk' _, hme, ?_, hmaj⟩
      simp only [Cluster.setCampaign, Cluster.setServer, Function.update_self]
      rw [hterm, hown, hsame]
  | @loseVoteCall k peer camp hk =>
    intro i hi
    exact (h i hi).of_campaigns rfl (exists_mem_setCampaign hk rfl rfl le_rfl)
  | recvAppendEntries hk hcall =>
    refine h.setServer rfl (exists_mem_self c) ?_
    intro hlead
    have heq := Server.appendEntries_leader hlead
    rw [heq] at hlead
    exact Or.inr ⟨hlead, by rw [heq]⟩
  | recvAppendReply hk hcall => exact h
  | loseHeartbeat hk => exact h

theorem leadersHaveWon_of_steps {c : Cluster n} {bs : List (Ballot (Fin n) (Fin n))}
    (h : (Cluster.system n).Steps Cluster.CountsOwnTerm (Cluster.init n) bs c) :
    LeadersHaveWon c := by
  refine h.invariant (I := fun _ c => LeadersHaveWon c) (fun i hi => ?_)
    fun hI hstep hok => leadersHaveWon_step hI hstep hok
  cases hi

/-- A leader of a term was elected in it, if only votes of the current term were counted. -/
theorem leader_elected {c : Cluster n} {bs : List (Ballot (Fin n) (Fin n))}
    (h : (Cluster.system n).Steps Cluster.CountsOwnTerm (Cluster.init n) bs c) {i : Fin n}
    (hi : (c.servers i).state = .leader) : Elected bs i (c.servers i).currentTerm := by
  obtain ⟨camp, hcamp, hme, hterm, hmaj⟩ := leadersHaveWon_of_steps h i hi
  obtain ⟨W, hcard, hW⟩ := (campaignsBacked_of_steps h camp hcamp).counted
  refine ⟨W, ?_, fun w hw => ?_⟩
  · rw [IsMajority, Fintype.card_fin]
    exact hmaj.trans_le hcard
  · have hb := (hW w hw).1
    rw [hme, hterm] at hb
    exact hb

/-! ### Election safety -/

/-- No two servers are leader of one term, at one moment of a run or at two, in the runs whose
steps meet `ok`. -/
def ElectionSafety (n : ℕ) (ok : Cluster n → Action n → Prop) : Prop :=
  ∀ {c c' : Cluster n} {bs bs' : List (Ballot (Fin n) (Fin n))},
    (Cluster.system n).Steps ok (Cluster.init n) bs c → (Cluster.system n).Steps ok c bs' c' →
    ∀ i j, (c.servers i).state = .leader → (c'.servers j).state = .leader →
      (c.servers i).currentTerm = (c'.servers j).currentTerm → i = j

/-- **Election safety when no vote of an earlier election is counted.** -/
theorem electionSafety_of_countsOwnTerm (n : ℕ) : ElectionSafety n Cluster.CountsOwnTerm := by
  intro c c' bs bs' h h' i j hi hj hterm
  have hone : OneVotePerTerm (bs ++ bs') :=
    (Cluster.votingSystem n).oneVotePerTerm (h.trans h')
  have helect : Elected (bs ++ bs') i (c.servers i).currentTerm := (leader_elected h hi).append _
  have helect' : Elected (bs ++ bs') j (c'.servers j).currentTerm :=
    leader_elected (h.trans h') hj
  rw [hterm] at helect
  exact helect.unique hone helect'

/-- Server 0 wins term 1 with the vote of server 1, and nobody else leads that term. -/
theorem electionSafety_first_term :
    let run := ((Cluster.system 3).exec Cluster.CountsOwnTerm (Cluster.init 3)
      [.timeout 0, .recvRequestVote 0 1, .recvVoteReply 0 1, .heartbeat 0,
        .recvAppendEntries 1]).get (by decide)
    (run.2.servers 0).state = .leader ∧ ∀ j, (run.2.servers j).state = .leader →
      (run.2.servers 0).currentTerm = (run.2.servers j).currentTerm → 0 = j :=
  ⟨by decide, fun j hj hterm => electionSafety_of_countsOwnTerm 3
    (ObservedSystem.steps_get_exec (by decide)) (.refl _) 0 j (by decide) hj hterm⟩

/-- Server 0 collects its vote in term 1 but stands again before it hears of it; server 1 wins
term 2, and then the old vote of server 2 makes server 0 leader of term 2 as well. -/
def staleVoteRun : List (Action 3) :=
  [.timeout 0, .recvRequestVote 0 2, .timeout 1, .timeout 1, .recvRequestVote 2 2,
    .recvVoteReply 2 2, .timeout 0, .recvVoteReply 0 2]

theorem exec_staleVoteRun :
    ((Cluster.system 3).exec ObservedSystem.always (Cluster.init 3) staleVoteRun).isSome := by
  decide

/-- **Election safety fails**: a stale vote makes two leaders of term 2. -/
theorem not_electionSafety : ¬ ElectionSafety 3 ObservedSystem.always := by
  intro hsafe
  have hrun := ObservedSystem.steps_get_exec exec_staleVoteRun
  have hsame : (0 : Fin 3) = 1 :=
    hsafe hrun (.refl _) 0 1 (by decide) (by decide) (by decide)
  exact absurd hsame (by decide)

end Raft

end Csc512
