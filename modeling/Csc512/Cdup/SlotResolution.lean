import Csc512.Cdup.Matrix
import Csc512.Cdup.ScopePaths
import Csc512.Cdup.Type2Forms

/-!
# Innermost scopes first

A name is looked up by spelling: the paths of the scope and of the scopes around it are joined with
the name, the longest path first, and the first text that some slot is spelled like is the slot of
the name. A slot is a scope with a name, and both can hold dots. So the member `x` of a variable `a`
of a scope is spelled like the variable `x` of a scope `a` inside, and the lookup can end at a slot
of a scope that is not around the place of the name at all.

## Main results

* `findInScopes_eq_some_iff` — the lookup ends at the innermost scope with a slot of this spelling
* `resolvesInnermost_iff` — when a name gets the slot that innermost-first resolution asks for
* `not_resolvesInnermost` — a member that gets a variable of another scope
-/

namespace Csc512

/-! ### Slots and scopes -/

/-- A slot: a scope and a name in it. -/
structure ScopedSlot where
  scope : Text
  name : Text
deriving DecidableEq, Repr

/-- The scoped name of a slot. -/
def ScopedSlot.spelling (s : ScopedSlot) : Text := s.scope ++ '.' :: s.name

/-- The components of a scope path. -/
def scopeParts (path : Text) : List Text := path.splitOn '.'

/-- The scope `p` is the scope `q` or one around it: its path is a prefix of the path of `q`,
component by component. -/
def IsAround (p q : Text) : Prop := scopeParts p <+: scopeParts q

instance (p q : Text) : Decidable (IsAround p q) :=
  inferInstanceAs (Decidable (scopeParts p <+: scopeParts q))

theorem scopeParts_injective : Function.Injective scopeParts := by
  intro p q h
  calc p = ['.'].intercalate (scopeParts p) := (List.intercalate_splitOn '.').symm
    _ = ['.'].intercalate (scopeParts q) := congrArg _ h
    _ = q := List.intercalate_splitOn '.'

/-- Two scopes around a scope are the same when they are equally deep. -/
theorem IsAround.eq_of_length {p q path : Text} (hp : IsAround p path) (hq : IsAround q path)
    (h : (scopeParts p).length = (scopeParts q).length) : p = q :=
  scopeParts_injective ((List.prefix_of_prefix_length_le hp hq h.le).eq_of_length h)

/-- The path of the `k + 1` outermost components of a scope path. -/
def outerScope (path : Text) (k : ℕ) : Text := ['.'].intercalate ((scopeParts path).take (k + 1))

theorem enclosingScopes_eq (path : Text) : enclosingScopes path
    = ((List.range (scopeParts path).length).map (outerScope path)).reverse := rfl

theorem scopeParts_outerScope (path : Text) (k : ℕ) :
    scopeParts (outerScope path k) = (scopeParts path).take (k + 1) := by
  refine List.splitOn_intercalate '.' (fun w hw => ?_) ?_
  · exact notMem_of_mem_splitOn (List.mem_of_mem_take hw)
  · rw [ne_eq, List.take_eq_nil_iff, not_or]
    exact ⟨Nat.succ_ne_zero k, List.splitOn_ne_nil _ _⟩

theorem mem_enclosingScopes_iff {p path : Text} : p ∈ enclosingScopes path ↔ IsAround p path := by
  rw [enclosingScopes_eq, List.mem_reverse, List.mem_map]
  constructor
  · rintro ⟨k, -, rfl⟩
    rw [IsAround, scopeParts_outerScope]
    exact List.take_prefix _ _
  · intro h
    have hpos : 0 < (scopeParts p).length := List.length_pos_of_ne_nil (List.splitOn_ne_nil _ _)
    refine ⟨(scopeParts p).length - 1, List.mem_range.mpr ?_, scopeParts_injective ?_⟩
    · have hle := h.length_le
      omega
    · rw [scopeParts_outerScope, Nat.sub_add_cancel hpos]
      exact (List.prefix_iff_eq_take.mp h).symm

/-- The deeper scopes come first. -/
theorem pairwise_enclosingScopes (path : Text) : (enclosingScopes path).Pairwise
    fun p q => (scopeParts q).length < (scopeParts p).length := by
  rw [enclosingScopes_eq, List.pairwise_reverse, List.pairwise_map]
  refine (List.pairwise_lt_range (n := (scopeParts path).length)).imp_of_mem ?_
  intro j k hj hk hlt
  rw [List.mem_range] at hj hk
  rw [scopeParts_outerScope, scopeParts_outerScope, List.length_take, List.length_take]
  omega

section Lookup

variable (slots : List ScopedSlot) (path : Text)

/-- `p` is the innermost scope around the path at which some slot is spelled like the name `n`. -/
structure IsFirstHit (n p : Text) : Prop where
  around : IsAround p path
  hit : p ++ '.' :: n ∈ slots.map ScopedSlot.spelling
  longest : ∀ q, IsAround q path → q ++ '.' :: n ∈ slots.map ScopedSlot.spelling →
    (scopeParts q).length ≤ (scopeParts p).length

/-- `s` is the slot of the name `n` in the innermost scope around the path that has one. -/
structure IsInnermost (n : Text) (s : ScopedSlot) : Prop where
  mem : s ∈ slots
  name : s.name = n
  around : IsAround s.scope path
  longest : ∀ t ∈ slots, t.name = n → IsAround t.scope path →
    (scopeParts t.scope).length ≤ (scopeParts s.scope).length

variable {slots path} {n p q : Text}

theorem IsFirstHit.unique (hp : IsFirstHit slots path n p) (hq : IsFirstHit slots path n q) :
    p = q :=
  hp.around.eq_of_length hq.around
    (le_antisymm (hq.longest p hp.around hp.hit) (hp.longest q hq.around hq.hit))

/-- **What the lookup finds**: the text at the innermost scope with a slot of this spelling. -/
theorem findInScopes_eq_some_iff {t : Text} :
    findInScopes path (slots.map ScopedSlot.spelling) n = some t ↔
      ∃ p, IsFirstHit slots path n p ∧ p ++ '.' :: n = t := by
  have hfound : ∀ t, findInScopes path (slots.map ScopedSlot.spelling) n = some t →
      ∃ p, IsFirstHit slots path n p ∧ p ++ '.' :: n = t := by
    intro t h
    rw [findInScopes, List.find?_map, Option.map_eq_some_iff] at h
    obtain ⟨p, hp, rfl⟩ := h
    obtain ⟨hhit, before, after, hscopes, hbefore⟩ := List.find?_eq_some_iff_append.mp hp
    have hsorted := pairwise_enclosingScopes path
    rw [hscopes] at hsorted
    have haround : IsAround p path := mem_enclosingScopes_iff.mp (hscopes ▸ by simp)
    refine ⟨p, ⟨haround, by simpa using hhit, fun q hq hqhit => ?_⟩, rfl⟩
    have hq := mem_enclosingScopes_iff.mpr hq
    rw [hscopes] at hq
    rcases List.mem_append.mp hq with hq | hq
    · exact absurd hqhit (by simpa using hbefore q hq)
    · rcases List.mem_cons.mp hq with rfl | hq
      · exact le_rfl
      · exact ((List.pairwise_cons.mp (List.pairwise_append.mp hsorted).2.1).1 q hq).le
  refine ⟨hfound t, ?_⟩
  rintro ⟨p, hp, rfl⟩
  have hsome : (findInScopes path (slots.map ScopedSlot.spelling) n).isSome := by
    rw [findInScopes, List.find?_isSome]
    exact ⟨_, List.mem_map_of_mem (mem_enclosingScopes_iff.mpr hp.around), by simpa using hp.hit⟩
  obtain ⟨u, hu⟩ := Option.isSome_iff_exists.mp hsome
  obtain ⟨q, hq, rfl⟩ := hfound u hu
  rw [hu, hp.unique hq]

theorem findInScopes_eq_none (h : ∀ p, ¬ IsFirstHit slots path n p) :
    findInScopes path (slots.map ScopedSlot.spelling) n = none := by
  by_contra hne
  obtain ⟨t, ht⟩ := Option.ne_none_iff_exists'.mp hne
  obtain ⟨p, hp, -⟩ := findInScopes_eq_some_iff.mp ht
  exact h p hp

/-- A name with a slot around has a hit. -/
theorem exists_isFirstHit {s : ScopedSlot} (hs : s ∈ slots) (haround : IsAround s.scope path) :
    ∃ p, IsFirstHit slots path s.name p := by
  by_contra hnone
  have hfind := findInScopes_eq_none (not_exists.mp hnone)
  rw [findInScopes, List.find?_eq_none] at hfind
  refine hfind _ (List.mem_map_of_mem (mem_enclosingScopes_iff.mpr haround)) ?_
  simpa using ⟨s, hs, rfl⟩

end Lookup

/-! ### Names -/

section Names

variable (U : CharTable)

/-- The names that are looked up for a name, in order: for the place `u[0]` of an array that of the
place and that of the array, for `u[i]` that of the array, and otherwise the name itself. -/
inductive Tries : Text → List Text → Prop
  | place {base idx : Text} (hbase : Pattern.Reads (identPattern U) base)
      (hidx : Pattern.Reads (digitsPattern U) idx) :
      Tries (base ++ '[' :: (idx ++ [']'])) [base ++ '.' :: idx, base]
  | array {base idx : Text} (hbase : Pattern.Reads (identPattern U) base)
      (hidx : Pattern.Reads (identPattern U) idx) : Tries (base ++ '[' :: (idx ++ [']'])) [base]
  | own {name : Text} (hname : ∀ base idx, Pattern.Reads (identPattern U) base →
      Pattern.Reads (digitsPattern U) idx ∨ Pattern.Reads (identPattern U) idx →
      name ≠ base ++ '[' :: (idx ++ [']'])) : Tries name [name]

/-- Every name is of one of the three forms. -/
theorem exists_tries (name : Text) : ∃ names, Tries U name names := by
  by_cases h : ∃ base idx, Pattern.Reads (identPattern U) base ∧
      (Pattern.Reads (digitsPattern U) idx ∨ Pattern.Reads (identPattern U) idx) ∧
      name = base ++ '[' :: (idx ++ [']'])
  · obtain ⟨base, idx, hbase, hidx | hidx, rfl⟩ := h
    · exact ⟨_, .place hbase hidx⟩
    · exact ⟨_, .array hbase hidx⟩
  · exact ⟨_, .own fun base idx hbase hidx hname => h ⟨base, idx, hbase, hidx, hname⟩⟩

variable {U}

/-- An identifier in brackets or a number in brackets behind an identifier. -/
theorem reads_indexed {k : ℕ} {idx : Pattern} {name : Text}
    (h : Pattern.Reads (.seqs [.group k (identPattern U), .one '[', idx, .one ']']) name) :
    ∃ base i, Pattern.Reads (identPattern U) base ∧ Pattern.Reads idx i ∧
      name = base ++ '[' :: (i ++ [']']) := by
  simp only [Pattern.seqs] at h
  cases h with
  | @seq _ _ base t hbase ht =>
    cases hbase with
    | group hbase =>
      cases ht with
      | @seq _ _ opening t hopen ht =>
        cases hopen with
        | char hc =>
          obtain rfl := of_decide_eq_true hc
          cases ht with
          | @seq _ _ i closing hi hclose =>
            have hclosing : closing = [']'] := hclose.eq_of_literal (s := [']'])
            exact ⟨base, i, hbase, hi, by rw [hclosing]; rfl⟩

theorem bracket_not_isWordChar : isWordChar U '[' = false ∧ isWordChar U ']' = false := by
  rw [isWordChar, isWordChar, U.isAlnum_ascii _ (by decide), U.isAlnum_ascii _ (by decide)]
  decide

/-- The match of a name with an index, when the index is read up to the bracket. -/
theorem fullMatch_indexed {base i : Text} {idx : Pattern}
    {groups : List (ℕ × Text)} (hbase : Pattern.Reads (identPattern U) base)
    (hi : ∀ before, (idx.run ⟨before, i ++ [']'], [(1, base)]⟩).head?
      = some ⟨i.reverse ++ before, [']'], groups⟩) :
    ∃ m, (Pattern.seqs [.group 1 (identPattern U), .one '[', idx, .one ']']).fullMatch
      (base ++ '[' :: (i ++ [']'])) = some m ∧ m.groups = groups := by
  have hword : ∀ c ∈ ('[' :: (i ++ [']'])).head?, isWordChar U c = false := by
    intro c hc
    rw [← Option.some.inj hc]
    exact bracket_not_isWordChar.1
  have hname := Pattern.head?_run_group (k := 1)
    (Pattern.head?_run_of_reads_letters hbase hword [] [])
  rw [between_append] at hname
  have hopen := Pattern.head?_run_char (f := (· = '[')) (c := '[') rfl (base.reverse ++ [])
    (i ++ [']']) [(1, base)]
  have hclose := Pattern.head?_run_char (f := (· = ']')) (c := ']') rfl
    (i.reverse ++ '[' :: (base.reverse ++ [])) [] groups
  have hrun := Pattern.head?_run_seq hname (Pattern.head?_run_seq hopen
    (Pattern.head?_run_seq (hi _) (Pattern.head?_run_seq (q := .empty) hclose rfl)))
  exact ⟨_, Pattern.fullMatch_of_head? hrun rfl, rfl⟩

theorem groupText_of_groups {m : Cursor} {k : ℕ} {t : Text} {groups : List (ℕ × Text)}
    (hgroups : m.groups = groups) (h : groups.find? (fun g => g.1 = k) = some (k, t)) :
    groupText k m = t := by
  rw [groupText, Cursor.group?, hgroups, h]
  rfl

/-- A number is no identifier. -/
theorem digits_ne_ident {s : Text} (hdigits : Pattern.Reads (digitsPattern U) s)
    (hident : Pattern.Reads (identPattern U) s) : False := by
  obtain ⟨c, hc, hstart⟩ := head_of_identPattern ((Pattern.isSome_fullMatch_iff rfl).mpr hident)
  obtain ⟨d, hd, hdecimal⟩ : ∃ d, s.head? = some d ∧ U.isDecimal d = true := by
    cases hdigits with
    | @seq _ _ v w hv hw =>
      cases hv with
      | char hd => exact ⟨_, rfl, hd⟩
  obtain rfl := Option.some.inj (hc.symm.trans hd)
  rw [(not_decimal_of_isIdentStart hstart).1] at hdecimal
  cases hdecimal

theorem bracket_notMem_ident {s : Text} (h : Pattern.Reads (identPattern U) s) : '[' ∉ s := by
  refine h.notMem ?_
  have hword : isWordChar U '[' = false := bracket_not_isWordChar.1
  simp only [identPattern, Pattern.avoids, hword]
  decide

/-- **What is looked up** for a name, in order. -/
theorem resolveSlot_eq {name : Text} {names : List Text} (h : Tries U name names) (path : Text)
    (slotIndex : List Text) :
    resolveSlot U path slotIndex name = names.findSome? (findInScopes path slotIndex) := by
  rw [resolveSlot]
  cases h with
  | @place base idx hbase hidx =>
    have hstop : ∀ c ∈ [']'].head?, U.isDecimal c = false := by
      intro c hc
      rw [← Option.some.inj hc, U.isDecimal_ascii _ (by decide)]
      decide
    have hdigits : ∀ before, ((Pattern.group 2 (digitsPattern U)).run
        ⟨before, idx ++ [']'], [(1, base)]⟩).head?
          = some ⟨idx.reverse ++ before, [']'], [(2, idx), (1, base)]⟩ := by
      intro before
      have hrun := Pattern.head?_run_group (k := 2)
        (Pattern.head?_run_of_reads_letters hidx hstop before [(1, base)])
      rwa [between_append] at hrun
    obtain ⟨m, hm, hgroups⟩ := fullMatch_indexed hbase hdigits
    rw [hm]
    dsimp only
    rw [groupText_of_groups (k := 1) hgroups rfl, groupText_of_groups (k := 2) hgroups rfl,
      List.findSome?_cons, List.findSome?_singleton]
    cases findInScopes path slotIndex (base ++ '.' :: idx) <;> rfl
  | @array base idx hbase hidx =>
    have hstop : ∀ c ∈ [']'].head?, isWordChar U c = false := by
      intro c hc
      rw [← Option.some.inj hc]
      exact bracket_not_isWordChar.2
    have hrun : ∀ before, ((identPattern U).run ⟨before, idx ++ [']'], [(1, base)]⟩).head?
        = some ⟨idx.reverse ++ before, [']'], [(1, base)]⟩ := fun before =>
      Pattern.head?_run_of_reads_letters hidx hstop before [(1, base)]
    obtain ⟨m, hm, hgroups⟩ := fullMatch_indexed hbase hrun
    have hfixed : (Pattern.seqs [.group 1 (identPattern U), .one '[', .group 2 (digitsPattern U),
        .one ']']).fullMatch (base ++ '[' :: (idx ++ [']'])) = none := by
      by_contra hne
      obtain ⟨base', i, hbase', hi, heq⟩ := reads_indexed
        ((Pattern.isSome_fullMatch_iff rfl).mp (Option.isSome_iff_ne_none.mpr hne))
      obtain ⟨-, heq⟩ := append_cons_inj (bracket_notMem_ident hbase)
        (bracket_notMem_ident hbase') heq
      rw [List.append_cancel_right heq] at hidx
      cases hi with
      | group hi => exact digits_ne_ident hi hidx
    rw [hfixed, hm]
    dsimp only
    rw [Option.elim_some, groupText_of_groups (k := 1) hgroups rfl, List.findSome?_singleton]
  | own hname =>
    have hnone : ∀ idx : Pattern, idx.anchorless = true → (∀ i, Pattern.Reads idx i →
        Pattern.Reads (digitsPattern U) i ∨ Pattern.Reads (identPattern U) i) →
        (Pattern.seqs [.group 1 (identPattern U), .one '[', idx, .one ']']).fullMatch name
          = none := by
      intro idx hidx hreads
      by_contra hne
      have hanchorless : (Pattern.seqs [.group 1 (identPattern U), .one '[', idx,
          .one ']']).anchorless = true := by
        simp only [Pattern.seqs, Pattern.anchorless, hidx]
        rfl
      obtain ⟨base, i, hbase, hi, heq⟩ := reads_indexed
        ((Pattern.isSome_fullMatch_iff hanchorless).mp (Option.isSome_iff_ne_none.mpr hne))
      exact hname base i hbase (hreads i hi) heq
    rw [hnone (.group 2 (digitsPattern U)) rfl fun i hi => by cases hi with | group hi => exact .inl hi,
      hnone (identPattern U) rfl fun i hi => .inr hi]
    dsimp only
    rw [Option.elim_none, List.findSome?_singleton]

end Names

/-! ### Innermost first -/

section Innermost

variable (slots : List ScopedSlot) (path : Text)

/-- The slot that a list of names asks for: the innermost one of the first name that has one. -/
def Wanted : List Text → ScopedSlot → Prop
  | [], _ => False
  | n :: names, s =>
    IsInnermost slots path n s ∨ (∀ t, ¬ IsInnermost slots path n t) ∧ Wanted names s

/-- What is found for some names is what innermost-first resolution asks for: the wanted slot,
nothing exactly if no scope around has a slot of the names, and never a slot of a scope that is not
around. -/
structure InnermostFirst (names : List Text) (found : Option Text) : Prop where
  eq_some_iff : ∀ t, found = some t ↔ ∃ s, Wanted slots path names s ∧ s.spelling = t
  eq_none_iff : found = none ↔ ∀ n ∈ names, ∀ s ∈ slots, s.name = n → ¬ IsAround s.scope path
  around : ∀ s ∈ slots, found = some s.spelling → IsAround s.scope path

/-- The spelling of a name tells its slots apart: at the innermost scope around at which some slot
is spelled like the name there is a slot of this name, and no slot of a scope that is not around is
spelled in the same way. -/
def TellsApart (n : Text) : Prop :=
  ∀ p, IsFirstHit slots path n p → ⟨p, n⟩ ∈ slots ∧
    ∀ s ∈ slots, s.spelling = p ++ '.' :: n → IsAround s.scope path

/-- The spellings of the names up to the first one with a hit tell their slots apart. -/
def TellApart : List Text → Prop
  | [] => True
  | n :: names =>
    TellsApart slots path n ∧ ((∃ p, IsFirstHit slots path n p) ∨ TellApart names)

variable {slots path}

/-- The innermost slot of a name that is told apart is the one at the first hit. -/
theorem IsFirstHit.isInnermost_iff {n p : Text} (hp : IsFirstHit slots path n p)
    (hmem : ⟨p, n⟩ ∈ slots) {s : ScopedSlot} : IsInnermost slots path n s ↔ s = ⟨p, n⟩ := by
  constructor
  · rintro ⟨hs, rfl, haround, hlongest⟩
    have hle := hlongest _ hmem rfl hp.around
    have hge := hp.longest s.scope haround (List.mem_map_of_mem hs)
    exact congrArg (ScopedSlot.mk · s.name)
      (haround.eq_of_length hp.around (le_antisymm hge hle))
  · rintro rfl
    refine ⟨hmem, rfl, hp.around, fun t ht hname haround => ?_⟩
    exact hp.longest t.scope haround (List.mem_map.mpr ⟨t, ht, by rw [← hname]; rfl⟩)

theorem not_isInnermost {n : Text} (h : ∀ p, ¬ IsFirstHit slots path n p) (s : ScopedSlot) :
    ¬ IsInnermost slots path n s := by
  rintro ⟨hs, rfl, haround, -⟩
  obtain ⟨p, hp⟩ := exists_isFirstHit hs haround
  exact h p hp

/-- Names that are spelled alike in no two scopes. -/
def SpelledApart (m n : Text) : Prop := ∀ p q : Text, p ++ '.' :: m ≠ q ++ '.' :: n

theorem Tries.pairwise_spelledApart {U : CharTable} {name : Text} {names : List Text}
    (h : Tries U name names) : names.Pairwise SpelledApart := by
  cases h with
  | @place base idx hbase hidx =>
    refine List.pairwise_pair.mpr fun p q heq => ?_
    -- the last components are compared
    have hrev : idx.reverse ++ '.' :: (base.reverse ++ '.' :: p.reverse)
        = base.reverse ++ '.' :: q.reverse := by
      simpa using congrArg List.reverse heq
    have hbasedot : '.' ∉ base := dot_not_mem_of_reads_identPattern hbase
    have hidxdot : '.' ∉ idx := by
      refine hidx.notMem ?_
      have hdecimal : U.isDecimal '.' = false := U.isDecimal_ascii '.' (by decide)
      simp [digitsPattern, Pattern.plus, Pattern.avoids, hdecimal]
    obtain ⟨hlast, -⟩ := append_cons_inj (by simpa using hidxdot) (by simpa using hbasedot) hrev
    exact digits_ne_ident (List.reverse_injective hlast ▸ hidx) hbase
  | array | own => exact List.pairwise_singleton _ _

/-- The wanted slot has one of the names. -/
theorem Wanted.name_mem {names : List Text} {s : ScopedSlot} (h : Wanted slots path names s) :
    s.name ∈ names := by
  induction names with
  | nil => exact h.elim
  | cons n names ih =>
    rcases h with h | ⟨-, h⟩
    · exact h.name ▸ List.mem_cons_self
    · exact List.mem_cons_of_mem n (ih h)

/-- The first name has no hit: it can be left out. -/
theorem innermostFirst_cons_iff {n : Text} {names : List Text} {found : Option Text}
    (h : ∀ p, ¬ IsFirstHit slots path n p) :
    InnermostFirst slots path (n :: names) found ↔ InnermostFirst slots path names found := by
  have hwanted : ∀ s, Wanted slots path (n :: names) s ↔ Wanted slots path names s := by
    intro s
    exact ⟨fun hs => hs.elim (fun hs => absurd hs (not_isInnermost h s)) And.right,
      fun hs => .inr ⟨not_isInnermost h, hs⟩⟩
  have hnone : ∀ s ∈ slots, s.name = n → ¬ IsAround s.scope path := by
    rintro s hs rfl haround
    obtain ⟨p, hp⟩ := exists_isFirstHit hs haround
    exact h p hp
  constructor
  · rintro ⟨hsome, hnothing, haround⟩
    refine ⟨fun t => ?_, ?_, haround⟩
    · rw [hsome]
      simp only [hwanted]
    · rw [hnothing, List.forall_mem_cons]
      exact and_iff_right hnone
  · rintro ⟨hsome, hnothing, haround⟩
    refine ⟨fun t => ?_, ?_, haround⟩
    · rw [hsome]
      simp only [hwanted]
    · rw [hnothing, List.forall_mem_cons]
      exact (and_iff_right hnone).symm

/-- The first name has a hit: it is all that counts. -/
theorem innermostFirst_hit_iff {n p : Text} {names : List Text}
    (hapart : ∀ m ∈ names, SpelledApart n m) (hp : IsFirstHit slots path n p) :
    InnermostFirst slots path (n :: names) (some (p ++ '.' :: n)) ↔
      TellsApart slots path n := by
  constructor
  · rintro ⟨hsome, -, haround⟩ q hq
    obtain rfl := hq.unique hp
    obtain ⟨s, hs, hspelling⟩ := (hsome _).mp rfl
    refine ⟨?_, fun t ht htspelling => haround t ht (congrArg some htspelling.symm)⟩
    rcases hs with hs | ⟨-, hs⟩
    · obtain ⟨scope, name⟩ := s
      obtain rfl : name = n := hs.name
      obtain rfl : scope = q := List.append_cancel_right hspelling
      exact hs.mem
    · exact absurd hspelling.symm (hapart _ hs.name_mem q s.scope)
  · intro h
    obtain ⟨hmem, haround⟩ := h p hp
    have hwanted : ∀ s, Wanted slots path (n :: names) s ↔ s = ⟨p, n⟩ := by
      intro s
      rw [← hp.isInnermost_iff hmem]
      refine ⟨fun hs => hs.elim id fun hs => ?_, .inl⟩
      exact absurd ((hp.isInnermost_iff hmem).mpr rfl) (hs.1 _)
    refine ⟨fun t => ?_, ?_, fun s hs hspelling => ?_⟩
    · simp only [hwanted, exists_eq_left, Option.some.injEq]
      rfl
    · exact iff_of_false nofun fun hnone => hnone n List.mem_cons_self _ hmem rfl hp.around
    · exact haround s hs (Option.some.inj hspelling).symm

/-- **Innermost scopes first**: a name gets the slot that innermost-first resolution asks for
exactly if the spellings that are looked up for it tell slots apart. -/
theorem resolvesInnermost_iff (U : CharTable) (slots : List ScopedSlot) (path : Text) {name : Text}
    {names : List Text} (h : Tries U name names) :
    InnermostFirst slots path names
        (resolveSlot U path (slots.map ScopedSlot.spelling) name) ↔
      TellApart slots path names := by
  have hapart := h.pairwise_spelledApart
  rw [resolveSlot_eq h]
  clear h
  induction names with
  | nil =>
    refine iff_of_true ⟨fun t => ?_, ?_, nofun⟩ trivial
    · exact iff_of_false nofun fun ⟨s, hs, _⟩ => hs
    · exact iff_of_true rfl fun n hn => absurd hn List.not_mem_nil
  | cons n names ih =>
    obtain ⟨hfirst, hrest⟩ := List.pairwise_cons.mp hapart
    rw [List.findSome?_cons]
    by_cases hhit : ∃ p, IsFirstHit slots path n p
    · obtain ⟨p, hp⟩ := hhit
      rw [findInScopes_eq_some_iff.mpr ⟨p, hp, rfl⟩]
      exact (innermostFirst_hit_iff hfirst hp).trans
        ⟨fun h => ⟨h, .inl ⟨p, hp⟩⟩, And.left⟩
    · have hmiss := not_exists.mp hhit
      rw [findInScopes_eq_none hmiss]
      refine (innermostFirst_cons_iff hmiss).trans ((ih hrest).trans ⟨fun h => ⟨?_, .inr h⟩, ?_⟩)
      · exact fun p hp => absurd hp (hmiss p)
      · exact fun h => h.2.resolve_left hhit

/-- It is enough that no scope around shows a coincidence. -/
theorem tellsApart_of_forall {n : Text}
    (h : ∀ p ∈ enclosingScopes path, p ++ '.' :: n ∈ slots.map ScopedSlot.spelling →
      ⟨p, n⟩ ∈ slots ∧ ∀ s ∈ slots, s.spelling = p ++ '.' :: n → IsAround s.scope path) :
    TellsApart slots path n :=
  fun p hp => h p (mem_enclosingScopes_iff.mpr hp.around) hp.hit

end Innermost

/-- A place of an array of the file, from a function. -/
theorem resolvesInnermost_iff_array :
    let slots : List ScopedSlot := [⟨lit "root", lit "u"⟩, ⟨lit "root.f", lit "i"⟩]
    InnermostFirst slots (lit "root.f") [lit "u.0", lit "u"]
      (resolveSlot .ascii (lit "root.f") (slots.map ScopedSlot.spelling) (lit "u[0]")) := by
  intro slots
  have hbase : Pattern.Reads (identPattern .ascii) (lit "u") := .seq (s := ['u']) (.char rfl) .done
  have hidx : Pattern.Reads (digitsPattern .ascii) (lit "0") := .seq (s := ['0']) (.char rfl) .done
  refine (resolvesInnermost_iff .ascii slots (lit "root.f") (.place hbase hidx)).mpr
    ⟨tellsApart_of_forall ?_, .inr ⟨tellsApart_of_forall ?_, .inr trivial⟩⟩ <;> decide

/-- The slots of a file in which the function `f` declares a structure `a` with a field `x`, while
the variable `a` of the file is of another structure. -/
def tagSlots : List ScopedSlot :=
  [⟨lit "root", lit "a.x"⟩, ⟨lit "root.f", lit "y"⟩, ⟨lit "root.f.a", lit "x"⟩]

/-- **A slot of another scope**: in `f`, the member `a.x` gets the field of the structure. -/
theorem not_resolvesInnermost : ¬ ∀ (U : CharTable) (slots : List ScopedSlot) (path name : Text)
    (names : List Text), Tries U name names → InnermostFirst slots path names
      (resolveSlot U path (slots.map ScopedSlot.spelling) name) := by
  intro h
  have hname : Tries .ascii (lit "a.x") [lit "a.x"] := by
    refine .own fun base idx _ _ heq => ?_
    have hmem : '[' ∈ lit "a.x" := heq ▸ by simp
    exact absurd hmem (by decide)
  have hfound := h .ascii tagSlots (lit "root.f") _ _ hname
  rw [resolveSlot_eq hname] at hfound
  have haround := hfound.around ⟨lit "root.f.a", lit "x"⟩ (by decide) (by decide)
  exact absurd haround (by decide)

end Csc512
