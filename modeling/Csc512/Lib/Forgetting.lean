import Csc512.Lib.Voting

/-!
# Voters that may forget

A voter whose record is lost gives its vote again. What is left of one vote per voter and term is
this: a voter that is asked twice in a term for two candidates, and votes for both, has forgotten
something in between. So two candidates with a majority of one term share a voter that has.

## Main results

* `ForgettingSystem.forgotBetween` — two votes of a term, and the loss between them
* `Elected.exists_forgot` — two candidates elected in one term
-/

namespace Csc512

variable {V C : Type*}

/-- What is observed of voters that may forget. -/
inductive VoteEvent (V C : Type*) where
  | vote (b : Ballot V C)
  | forget (v : V)
  deriving DecidableEq

/-- The vote that an event is. -/
def VoteEvent.ballot? : VoteEvent V C → Option (Ballot V C)
  | vote b => some b
  | forget _ => none

/-- The votes among some events. -/
def ballotsOf (es : List (VoteEvent V C)) : List (Ballot V C) := es.filterMap VoteEvent.ballot?

theorem mem_ballotsOf {es : List (VoteEvent V C)} {b : Ballot V C} :
    b ∈ ballotsOf es ↔ .vote b ∈ es := by
  rw [ballotsOf, List.mem_filterMap]
  constructor
  · rintro ⟨e, he, heq⟩
    cases e with
    | vote b' =>
      obtain rfl := Option.some.inj heq
      exact he
    | forget v => cases heq
  · exact fun h => ⟨_, h, rfl⟩

/-- A vote was given, and its voter has not forgotten it. -/
def Remembered (es : List (VoteEvent V C)) (b : Ballot V C) : Prop :=
  ∃ before after, es = before ++ .vote b :: after ∧ .forget b.voter ∉ after

/-- Where two votes of a voter in one term are for two candidates, the voter forgot in between. -/
def ForgotBetween (es : List (VoteEvent V C)) : Prop :=
  ∀ before b between b' after, es = before ++ .vote b :: (between ++ .vote b' :: after) →
    b.voter = b'.voter → b.term = b'.term → b.candidate ≠ b'.candidate → .forget b.voter ∈ between

/-- A system of voters in which a step observes one event at most, and only a voter that it observes
to forget may go back. -/
structure ForgettingSystem {σ α : Type*} (M : ObservedSystem σ α (VoteEvent V C))
    (voter : σ → V → Voter C) : Prop where
  atMostOne : ∀ s a, (M.observe s a).length ≤ 1
  advances : ∀ {s t a}, M.step s a = some t → ∀ v, .forget v ∉ M.observe s a →
    (voter s v).Advances (voter t v)
  recorded : ∀ {s t a}, M.step s a = some t → ∀ b, .vote b ∈ M.observe s a →
    voter t b.voter = ⟨b.term, some b.candidate⟩

/-! ### A further event -/

theorem Remembered.of_append {es es' : List (VoteEvent V C)} {b : Ballot V C}
    (h : Remembered (es ++ es') b) :
    Remembered es b ∧ .forget b.voter ∉ es' ∨ .vote b ∈ es' := by
  obtain ⟨before, after, heq, hnot⟩ := h
  rcases List.append_eq_append_iff.mp heq with ⟨rest, rfl, hes'⟩ | ⟨rest, hes, hrest⟩
  · exact .inr (by rw [hes']; simp)
  · cases rest with
    | nil => exact .inr (by rw [List.nil_append] at hrest; simp [← hrest])
    | cons e rest =>
      obtain ⟨rfl, hafter⟩ := List.cons.inj (hrest.trans (List.cons_append ..))
      rw [hafter, List.mem_append, not_or] at hnot
      exact .inl ⟨⟨before, rest, hes, hnot.1⟩, hnot.2⟩

/-- With one event more, the later one of two votes is an old one or the new event. -/
theorem ForgotBetween.append {es es' : List (VoteEvent V C)} (h : ForgotBetween es)
    (hlen : es'.length ≤ 1)
    (hnew : ∀ b b', .vote b' ∈ es' → Remembered es b → b.voter = b'.voter → b.term = b'.term →
      b.candidate = b'.candidate) : ForgotBetween (es ++ es') := by
  intro before b between b' after heq hv ht hc
  rcases List.eq_nil_or_concat es' with rfl | ⟨init, e, rfl⟩
  · exact h before b between b' after (by rw [← heq, List.append_nil]) hv ht hc
  · obtain rfl : init = [] := List.eq_nil_of_length_eq_zero (by simpa using hlen)
    rcases List.eq_nil_or_concat after with rfl | ⟨after', e', rfl⟩
    · have hsplit : es ++ [e] = (before ++ .vote b :: between) ++ [.vote b'] := by
        simpa using heq
      obtain ⟨rfl, hlast⟩ := List.append_inj' hsplit rfl
      obtain rfl := List.singleton_inj.mp hlast
      by_contra hnot
      exact hc (hnew b b' (by simp) ⟨before, between, rfl, hnot⟩ hv ht)
    · have hsplit : es ++ [e] = (before ++ .vote b :: (between ++ .vote b' :: after')) ++ [e'] := by
        simpa using heq
      obtain ⟨rfl, -⟩ := List.append_inj' hsplit rfl
      exact h before b between b' after' rfl hv ht hc

namespace ForgettingSystem

variable {σ α : Type*} {M : ObservedSystem σ α (VoteEvent V C)} {voter : σ → V → Voter C}
  {ok : σ → α → Prop}

/-- What a run keeps: the votes that are remembered are backed by their voter's record. -/
def Inv (voter : σ → V → Voter C) (es : List (VoteEvent V C)) (s : σ) : Prop :=
  (∀ b, Remembered es b → b.BackedBy (voter s b.voter)) ∧ ForgotBetween es

theorem inv_step (hM : ForgettingSystem M voter) {es : List (VoteEvent V C)} {s t : σ} {a : α}
    (hI : Inv voter es s) (hstep : M.step s a = some t) :
    Inv voter (es ++ M.observe s a) t := by
  have hone := hM.atMostOne s a
  refine ⟨fun b hb => ?_, hI.2.append hone fun b b' hb' hb hv ht => ?_⟩
  · rcases hb.of_append with ⟨hold, hnot⟩ | hnew
    · exact (hI.1 b hold).advance (hM.advances hstep b.voter hnot)
    · rw [hM.recorded hstep b hnew]
      exact ⟨le_rfl, fun _ => rfl⟩
  · -- the step that votes forgets nobody, so the older vote is still backed after it
    have hnot : .forget b.voter ∉ M.observe s a := by
      intro hforget
      obtain ⟨e, he⟩ := List.length_eq_one_iff.mp
        (le_antisymm hone (List.length_pos_of_mem hb'))
      rw [he, List.mem_singleton] at hb' hforget
      rw [← hb'] at hforget
      cases hforget
    have hbacked := (hI.1 b hb).advance (hM.advances hstep b.voter hnot)
    rw [hv, hM.recorded hstep b' hb'] at hbacked
    exact (Option.some.inj (hbacked.2 ht)).symm

theorem inv_of_steps (hM : ForgettingSystem M voter) {s t : σ} {es : List (VoteEvent V C)}
    (h : M.Steps ok s es t) : Inv voter es t := by
  refine h.invariant ⟨fun b hb => ?_, fun before b between b' after heq => ?_⟩
    fun hI hstep _ => hM.inv_step hI hstep
  · obtain ⟨before, after, heq, -⟩ := hb
    simp at heq
  · simp at heq

/-- **Two votes of a term for two candidates have a loss between them**, along every run. -/
theorem forgotBetween (hM : ForgettingSystem M voter) {s t : σ} {es : List (VoteEvent V C)}
    (h : M.Steps ok s es t) : ForgotBetween es :=
  (hM.inv_of_steps h).2

end ForgettingSystem

/-! ### Two candidates elected -/

/-- A voter voted for both candidates in one term and forgot between the two votes. -/
def ForgotVote (es : List (VoteEvent V C)) (v : V) (t : ℕ) (c c' : C) : Prop :=
  ∃ before between after, .forget v ∈ between ∧
    (es = before ++ .vote ⟨v, t, c⟩ :: (between ++ .vote ⟨v, t, c'⟩ :: after) ∨
      es = before ++ .vote ⟨v, t, c'⟩ :: (between ++ .vote ⟨v, t, c⟩ :: after))

/-- Of two members of a list, one stands before the other. -/
theorem exists_split_of_mem {α : Type*} {l : List α} {x y : α} (hx : x ∈ l) (hy : y ∈ l)
    (hne : x ≠ y) : ∃ before between after,
      l = before ++ x :: (between ++ y :: after) ∨ l = before ++ y :: (between ++ x :: after) := by
  obtain ⟨before, after, rfl⟩ := List.append_of_mem hx
  rcases List.mem_append.mp hy with hy | hy
  · obtain ⟨front, between, rfl⟩ := List.append_of_mem hy
    exact ⟨front, between, after, .inr (by simp)⟩
  · obtain ⟨between, rest, rfl⟩ :=
      List.append_of_mem ((List.mem_cons.mp hy).resolve_left hne.symm)
    exact ⟨before, between, rest, .inl rfl⟩

theorem ForgotBetween.forgotVote {es : List (VoteEvent V C)} (h : ForgotBetween es) {v : V} {t : ℕ}
    {c c' : C} (hc : .vote ⟨v, t, c⟩ ∈ es) (hc' : .vote ⟨v, t, c'⟩ ∈ es) (hne : c ≠ c') :
    ForgotVote es v t c c' := by
  obtain ⟨before, between, after, heq | heq⟩ := exists_split_of_mem hc hc' (by simpa using hne)
  · exact ⟨before, between, after, h before _ between _ after heq rfl rfl hne, .inl heq⟩
  · exact ⟨before, between, after, h before _ between _ after heq rfl rfl hne.symm, .inr heq⟩

/-- **Two candidates elected in one term share a voter that forgot.** -/
theorem Elected.exists_forgot [Fintype V] {es : List (VoteEvent V C)} {c c' : C} {t : ℕ}
    (hforgot : ForgotBetween es) (h : Elected (ballotsOf es) c t)
    (h' : Elected (ballotsOf es) c' t) (hne : c ≠ c') : ∃ v, ForgotVote es v t c c' := by
  obtain ⟨W, hW, hb⟩ := h
  obtain ⟨W', hW', hb'⟩ := h'
  obtain ⟨v, hv, hv'⟩ := hW.exists_mem_both hW'
  exact ⟨v, hforgot.forgotVote (mem_ballotsOf.mp (hb v hv)) (mem_ballotsOf.mp (hb' v hv')) hne⟩

end Csc512
