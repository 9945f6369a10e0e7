import Csc512.Lib.ObservedSystem
import Mathlib.Data.Fintype.Card

/-!
# Voting by term

What an election by majority rests on, with no protocol in sight. A voter has a term and at most
one candidate it voted for in that term; it may move to a later term, or cast its vote in the
term it is in. Ballots are what an observer sees.

Two facts do the work. A system whose voters only ever advance, and whose ballots are backed by
the voter's own record when they are cast, gives each voter at most one candidate per term. And
two majorities share a voter, so two candidates with a majority of one term are the same.

## Main results

* `Voter.Advances.trans` — advancing is transitive, so it holds along a run
* `VotingSystem.oneVotePerTerm` — one candidate per voter and term, along every run
* `Elected.unique` — at most one candidate is elected in a term
-/

namespace Csc512

variable {V C : Type*}

/-- A voter's own record: its term and the candidate it voted for in that term. -/
structure Voter (C : Type*) where
  term : ℕ
  votedFor : Option C

/-- A vote, as the observer sees it. -/
structure Ballot (V C : Type*) where
  voter : V
  term : ℕ
  candidate : C
  deriving DecidableEq

/-! ### How a voter may move -/

/-- A voter advances when its term grows, or when the term stays and a vote already cast stays
with it. -/
def Voter.Advances (p q : Voter C) : Prop :=
  p.term < q.term ∨ p.term = q.term ∧ (p.votedFor = none ∨ q.votedFor = p.votedFor)

theorem Voter.Advances.refl (p : Voter C) : p.Advances p := Or.inr ⟨rfl, Or.inr rfl⟩

theorem Voter.Advances.term_le {p q : Voter C} (h : p.Advances q) : p.term ≤ q.term := by
  rcases h with h | ⟨h, -⟩
  · exact h.le
  · exact h.le

theorem Voter.Advances.trans {p q r : Voter C} (h₁ : p.Advances q) (h₂ : q.Advances r) :
    p.Advances r := by
  rcases h₁ with h₁ | ⟨ht₁, hv₁⟩
  · exact Or.inl (h₁.trans_le h₂.term_le)
  · rcases h₂ with h₂ | ⟨ht₂, hv₂⟩
    · exact Or.inl (ht₁ ▸ h₂)
    · refine Or.inr ⟨ht₁.trans ht₂, ?_⟩
      rcases hv₁ with hv₁ | hv₁
      · exact Or.inl hv₁
      · rw [← hv₁]
        exact hv₂

/-- A vote cast in the term a voter is still in survives every advance inside that term. -/
theorem Voter.Advances.votedFor_eq {p q : Voter C} {c : C} (h : p.Advances q)
    (ht : p.term = q.term) (hv : p.votedFor = some c) : q.votedFor = some c := by
  rcases h with h | ⟨-, h | h⟩
  · omega
  · rw [hv] at h
    cases h
  · rw [h, hv]

/-! ### Ballots and the record behind them -/

/-- A ballot is backed by a voter's record when the voter has reached the ballot's term and,
while it is still in that term, names the ballot's candidate. -/
def Ballot.BackedBy (b : Ballot V C) (p : Voter C) : Prop :=
  b.term ≤ p.term ∧ (b.term = p.term → p.votedFor = some b.candidate)

theorem Ballot.BackedBy.advance {b : Ballot V C} {p q : Voter C} (hb : b.BackedBy p)
    (h : p.Advances q) : b.BackedBy q := by
  refine ⟨hb.1.trans h.term_le, fun ht => ?_⟩
  have hp : b.term = p.term := le_antisymm hb.1 (ht ▸ h.term_le)
  exact h.votedFor_eq (hp ▸ ht) (hb.2 hp)

/-- No voter gives two candidates a vote in the same term. -/
def OneVotePerTerm (ballots : List (Ballot V C)) : Prop :=
  ∀ b ∈ ballots, ∀ b' ∈ ballots, b.voter = b'.voter → b.term = b'.term →
    b.candidate = b'.candidate

/-! ### Systems of voters -/

/-- A transition system whose states hold a record for each voter, whose steps advance every
voter, and whose observed ballots are recorded by their voter in the state after the step. -/
structure VotingSystem {σ α : Type*} (M : ObservedSystem σ α (Ballot V C))
    (voter : σ → V → Voter C) : Prop where
  advances : ∀ {s t a}, M.step s a = some t → ∀ v, (voter s v).Advances (voter t v)
  recorded : ∀ {s t a}, M.step s a = some t → ∀ b ∈ M.observe s a,
    voter t b.voter = ⟨b.term, some b.candidate⟩

namespace VotingSystem

variable {σ α : Type*} {M : ObservedSystem σ α (Ballot V C)} {voter : σ → V → Voter C}
  {ok : σ → α → Prop}

/-- Along a run every voter advances. -/
theorem advances_of_steps (hM : VotingSystem M voter) {s t : σ} {bs : List (Ballot V C)}
    (h : M.Steps ok s bs t) (v : V) : (voter s v).Advances (voter t v) := by
  induction h with
  | refl => exact Voter.Advances.refl _
  | tail _ enabled _ ih => exact ih.trans (hM.advances enabled v)

/-- What a run from a state without ballots keeps: every ballot cast so far is backed by its
voter's record, and no voter has voted twice in one term. -/
def Inv (voter : σ → V → Voter C) (bs : List (Ballot V C)) (s : σ) : Prop :=
  (∀ b ∈ bs, b.BackedBy (voter s b.voter)) ∧ OneVotePerTerm bs

theorem inv_step (hM : VotingSystem M voter) {bs : List (Ballot V C)} {s t : σ} {a : α}
    (hI : Inv voter bs s) (hstep : M.step s a = some t) : Inv voter (bs ++ M.observe s a) t := by
  have hbacked : ∀ b ∈ bs ++ M.observe s a, b.BackedBy (voter t b.voter) := by
    intro b hb
    rcases List.mem_append.mp hb with hb | hb
    · exact (hI.1 b hb).advance (hM.advances hstep b.voter)
    · rw [hM.recorded hstep b hb]
      exact ⟨le_rfl, fun _ => rfl⟩
  -- a ballot of this step fixes its voter's record, which any other ballot must agree with
  have hnew : ∀ b ∈ bs ++ M.observe s a, ∀ b' ∈ M.observe s a, b.voter = b'.voter →
      b.term = b'.term → b.candidate = b'.candidate := by
    intro b hb b' hb' hv ht
    have hrec := hM.recorded hstep b' hb'
    have hcand := (hbacked b hb).2 (by rw [hv, hrec]; exact ht)
    rw [hv, hrec] at hcand
    exact (Option.some.inj hcand).symm
  refine ⟨hbacked, fun b hb b' hb' hv ht => ?_⟩
  rcases List.mem_append.mp hb' with hold' | hnew'
  · rcases List.mem_append.mp hb with hold | hnew''
    · exact hI.2 b hold b' hold' hv ht
    · exact (hnew b' hb' b hnew'' hv.symm ht.symm).symm
  · exact hnew b hb b' hnew' hv ht

theorem inv_of_steps (hM : VotingSystem M voter) {s t : σ} {bs : List (Ballot V C)}
    (h : M.Steps ok s bs t) : Inv voter bs t :=
  h.invariant ⟨fun _ hb => absurd hb List.not_mem_nil, fun _ hb => absurd hb List.not_mem_nil⟩
    fun hI hstep _ => hM.inv_step hI hstep

/-- **One vote per voter and term**, along every run. -/
theorem oneVotePerTerm (hM : VotingSystem M voter) {s t : σ} {bs : List (Ballot V C)}
    (h : M.Steps ok s bs t) : OneVotePerTerm bs :=
  (hM.inv_of_steps h).2

end VotingSystem

/-! ### Majorities -/

section Majority

variable [Fintype V]

/-- More than half of the voters. -/
def IsMajority (W : Finset V) : Prop := Fintype.card V / 2 < W.card

/-- Two majorities share a voter. -/
theorem IsMajority.exists_mem_both {W W' : Finset V} (h : IsMajority W) (h' : IsMajority W') :
    ∃ v, v ∈ W ∧ v ∈ W' := by
  classical
  have hcard : (Finset.univ : Finset V).card < W.card + W'.card := by
    rw [Finset.card_univ]
    simp only [IsMajority] at h h'
    omega
  obtain ⟨v, hv⟩ := Finset.inter_nonempty_of_card_lt_card_add_card
    (Finset.subset_univ W) (Finset.subset_univ W') hcard
  exact ⟨v, (Finset.mem_inter.mp hv).1, (Finset.mem_inter.mp hv).2⟩

/-- A majority of the voters gave candidate `c` their vote in term `t`. -/
def Elected (ballots : List (Ballot V C)) (c : C) (t : ℕ) : Prop :=
  ∃ W : Finset V, IsMajority W ∧ ∀ w ∈ W, (⟨w, t, c⟩ : Ballot V C) ∈ ballots

/-- Being elected is permanent. -/
theorem Elected.append {ballots : List (Ballot V C)} {c : C} {t : ℕ} (h : Elected ballots c t)
    (more : List (Ballot V C)) : Elected (ballots ++ more) c t := by
  obtain ⟨W, hW, hb⟩ := h
  exact ⟨W, hW, fun w hw => List.mem_append_left _ (hb w hw)⟩

/-- **At most one candidate is elected in a term.** -/
theorem Elected.unique {ballots : List (Ballot V C)} {c c' : C} {t : ℕ}
    (hone : OneVotePerTerm ballots) (h : Elected ballots c t) (h' : Elected ballots c' t) :
    c = c' := by
  obtain ⟨W, hW, hb⟩ := h
  obtain ⟨W', hW', hb'⟩ := h'
  obtain ⟨v, hv, hv'⟩ := hW.exists_mem_both hW'
  exact hone _ (hb v hv) _ (hb' v hv') rfl rfl

end Majority

end Csc512
