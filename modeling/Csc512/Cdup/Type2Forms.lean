import Csc512.Cdup.Normalize
import Csc512.Lib.PatternLanguage
import Mathlib.Data.List.Nodup
import Mathlib.Data.List.Zip
import Mathlib.Data.Set.Function

/-!
# What the Type II normal form says

The Type II normal form shows the kinds of the tokens of a statement, the tokens that are left
alone, and which identifiers are the same. It shows nothing else: two statements have the same
normal form if their tokens correspond one by one, the identifiers through a renaming.

## Main results

* `abstractTokens_eq_iff` — when two lists of tokens have the same abstraction
* `normalizeStmtType2_eq_iff` — when two statements have the same normal form
* `agreeOn_keywords_iff` — when two such statements have the same keywords of both languages
-/

namespace Csc512

/-! ### Joined texts -/

/-- Texts without the separator can be read off from the text that joins them. -/
theorem intercalate_inj {α : Type*} [DecidableEq α] {x : α} {ls ls' : List (List α)}
    (h : ∀ l ∈ ls, l ≠ [] ∧ x ∉ l) (h' : ∀ l ∈ ls', l ≠ [] ∧ x ∉ l) :
    [x].intercalate ls = [x].intercalate ls' ↔ ls = ls' := by
  have hne : ∀ ls : List (List α), (∀ l ∈ ls, l ≠ [] ∧ x ∉ l) → [x].intercalate ls = [] →
      ls = [] := by
    intro ls hls hnil
    cases ls with
    | nil => rfl
    | cons l ls =>
      have hl := (hls l List.mem_cons_self).1
      cases ls with
      | nil => exact absurd (by simpa using hnil) hl
      | cons l' ls =>
        rw [List.intercalate_cons_cons] at hnil
        exact absurd (List.append_eq_nil_iff.mp (List.append_eq_nil_iff.mp hnil).1).1 hl
  constructor
  · intro heq
    by_cases hnil : ls = []
    · subst hnil
      exact (hne ls' h' (heq.symm.trans rfl)).symm
    · by_cases hnil' : ls' = []
      · subst hnil'
        exact hne ls h (heq.trans rfl)
      · rw [← List.splitOn_intercalate x (fun l hl => (h l hl).2) hnil, heq,
          List.splitOn_intercalate x (fun l hl => (h' l hl).2) hnil']
  · exact congrArg _

/-! ### Kinds of tokens -/

/-- A token that is shown as `STR_LIT`. -/
def IsString (token : Text) : Prop := token.head? = some '"'

instance (token : Text) : Decidable (IsString token) := inferInstanceAs (Decidable (_ = _))

section Kinds

variable (U : CharTable)

/-- A token that is shown as `NUM_LIT`. -/
def IsNumber (token : Text) : Prop :=
  ((Pattern.alt (decimalPattern U) (digitsPattern U)).fullMatch token).isSome

instance (token : Text) : Decidable (IsNumber U token) := inferInstanceAs (Decidable (_ = true))

/-- An identifier that is no keyword. -/
def IsIdentifier (token : Text) : Prop :=
  ((identPattern U).fullMatch token).isSome ∧ token ∉ cKeywords

instance (token : Text) : Decidable (IsIdentifier U token) :=
  inferInstanceAs (Decidable (_ ∧ _))

/-- A token that is left alone: a keyword, or any other single character that is no letter, digit
or underscore. -/
def IsFixed (token : Text) : Prop :=
  token ∈ cKeywords ∨
    (¬ IsString token ∧ ¬ IsNumber U token ∧ ∃ c, isWordChar U c = false ∧ token = [c])

/-- The kinds of tokens. -/
inductive TokenKind where
  | string
  | number
  | fixed
  | identifier
deriving DecidableEq

/-- The kind of a token, in the order in which the normal form asks. -/
def tokenKind (token : Text) : TokenKind :=
  if IsString token then .string
  else if IsNumber U token then .number
  else if token ∈ cKeywords then .fixed
  else if ((identPattern U).fullMatch token).isSome then .identifier
  else .fixed

/-- The identifiers seen after a token. -/
def addIdentifier (identifiers : List Text) (token : Text) : List Text :=
  if token ∈ identifiers then identifiers else identifiers ++ [token]

/-- **The abstraction of a token** by its kind. -/
theorem abstractToken_eq (identifiers : List Text) (token : Text) :
    abstractToken U identifiers token = match tokenKind U token with
      | .string => (lit "STR_LIT", identifiers)
      | .number => (lit "NUM_LIT", identifiers)
      | .fixed => (token, identifiers)
      | .identifier => (lit "VAR_" ++ natText ((addIdentifier identifiers token).idxOf token),
          addIdentifier identifiers token) := by
  rw [abstractToken, tokenKind]
  by_cases hstring : IsString token
  · rw [if_pos hstring]
    exact if_pos hstring
  rw [if_neg hstring]
  refine (if_neg hstring).trans ?_
  by_cases hnumber : IsNumber U token
  · rw [if_pos hnumber]
    exact if_pos hnumber
  rw [if_neg hnumber]
  refine (if_neg hnumber).trans ?_
  by_cases hkeyword : token ∈ cKeywords
  · rw [if_pos hkeyword, if_pos hkeyword]
  rw [if_neg hkeyword, if_neg hkeyword]
  split
  · rfl
  · rfl

variable {U}

theorem not_decimal_of_isIdentStart {c : Char} (h : isIdentStart c = true) :
    U.isDecimal c = false ∧ c ≠ '"' := by
  have hascii := ascii_of_isIdentStart h
  have hall : ∀ n < 128, isIdentStart (Char.ofNat n) = true →
      (Char.ofNat n).isDigit = false ∧ Char.ofNat n ≠ '"' := by decide
  have hc := hall c.toNat hascii
  rw [Char.ofNat_toNat] at hc
  rw [U.isDecimal_ascii c hascii]
  exact hc h

theorem not_isDecimal_quote : U.isDecimal '"' = false := by
  rw [U.isDecimal_ascii _ (by decide)]
  decide

open Pattern in
theorem head_of_stringPattern {token : Text} (h : Reads stringPattern token) : IsString token := by
  rw [stringPattern, seqs] at h
  cases h with
  | @seq _ _ s t hp hq =>
    cases hp with
    | char hc => exact congrArg some (of_decide_eq_true hc)

open Pattern in
/-- A number begins with a digit. -/
theorem IsNumber.head {token : Text} (h : IsNumber U token) :
    ∃ c, token.head? = some c ∧ U.isDecimal c = true := by
  have hdigits : ∀ {s : Text}, Reads (digitsPattern U) s →
      ∃ c, s.head? = some c ∧ U.isDecimal c = true := by
    intro s hs
    cases hs with
    | @seq _ _ s t hp hq =>
      cases hp with
      | char hc => exact ⟨_, rfl, hc⟩
  cases (isSome_fullMatch_iff rfl).mp h with
  | left hdecimal =>
    cases hdecimal with
    | @seq _ _ s t hp hq =>
      obtain ⟨c, hc, hdec⟩ := hdigits hp
      exact ⟨c, by rw [List.head?_append, hc]; rfl, hdec⟩
  | right h => exact hdigits h

open Pattern in
theorem head_of_identPattern {token : Text} (h : ((identPattern U).fullMatch token).isSome) :
    ∃ c, token.head? = some c ∧ isIdentStart c = true := by
  cases (isSome_fullMatch_iff rfl).mp h with
  | @seq _ _ s t hp hq =>
    cases hp with
    | char hc => exact ⟨_, rfl, hc⟩

theorem head_of_mem_cKeywords : ∀ token ∈ cKeywords, ∃ c, token.head? = some c ∧
    isIdentStart c = true := by
  have hall : ∀ token ∈ cKeywords, token.head?.any isIdentStart = true := by decide
  intro token htoken
  exact (Option.any_eq_true _ _).mp (hall token htoken)

/-- What begins like an identifier is neither a string nor a number. -/
theorem not_literal_of_head {token : Text}
    (h : ∃ c, token.head? = some c ∧ isIdentStart c = true) :
    ¬ IsString token ∧ ¬ IsNumber U token := by
  obtain ⟨c, hc, hstart⟩ := h
  obtain ⟨hdecimal, hquote⟩ := not_decimal_of_isIdentStart (U := U) hstart
  constructor
  · intro hstring
    exact hquote (Option.some.inj (hc.symm.trans hstring))
  · intro hnumber
    obtain ⟨d, hd, hdec⟩ := hnumber.head
    obtain rfl := Option.some.inj (hc.symm.trans hd)
    rw [hdecimal] at hdec
    cases hdec

theorem tokenKind_eq_string_iff {token : Text} : tokenKind U token = .string ↔ IsString token := by
  constructor
  · intro h
    unfold tokenKind at h
    split at h
    · assumption
    · split at h
      · cases h
      · split at h
        · cases h
        · split at h <;> cases h
  · exact fun h => if_pos h

theorem tokenKind_eq_number_iff {token : Text} :
    tokenKind U token = .number ↔ IsNumber U token := by
  constructor
  · intro h
    unfold tokenKind at h
    split at h
    · cases h
    · split at h
      · assumption
      · split at h
        · cases h
        · split at h <;> cases h
  · intro h
    have hstring : ¬ IsString token := by
      intro hstring
      obtain ⟨c, hc, hdecimal⟩ := h.head
      obtain rfl := Option.some.inj (hc.symm.trans hstring)
      rw [not_isDecimal_quote] at hdecimal
      cases hdecimal
    rw [tokenKind, if_neg hstring, if_pos h]

theorem tokenKind_eq_identifier_iff {token : Text} :
    tokenKind U token = .identifier ↔ IsIdentifier U token := by
  constructor
  · intro h
    unfold tokenKind at h
    split at h
    · cases h
    · split at h
      · cases h
      · split at h
        · cases h
        · split at h
          · exact ⟨‹_›, ‹_›⟩
          · cases h
  · rintro ⟨hident, hkeyword⟩
    obtain ⟨hstring, hnumber⟩ := not_literal_of_head (U := U) (head_of_identPattern hident)
    rw [tokenKind, if_neg hstring, if_neg hnumber, if_neg hkeyword, if_pos hident]

open Pattern in
/-- The tokens that are left alone. -/
theorem tokenKind_eq_fixed_iff {token : Text} (htoken : Reads (tokenPattern U) token) :
    tokenKind U token = .fixed ↔ IsFixed U token := by
  constructor
  · intro h
    have hstring : ¬ IsString token := fun hs => by
      rw [tokenKind_eq_string_iff.mpr hs] at h
      cases h
    have hnumber : ¬ IsNumber U token := fun hn => by
      rw [tokenKind_eq_number_iff.mpr hn] at h
      cases h
    by_cases hkeyword : token ∈ cKeywords
    · exact Or.inl hkeyword
    have hident : ¬ ((identPattern U).fullMatch token).isSome := fun hi => by
      rw [tokenKind_eq_identifier_iff.mpr ⟨hi, hkeyword⟩] at h
      cases h
    -- what is left are single characters
    refine Or.inr ⟨hstring, hnumber, ?_⟩
    simp only [tokenPattern, alts] at htoken
    cases htoken with
    | left h => exact absurd (head_of_stringPattern h) hstring
    | right h =>
      cases h with
      | left h => exact absurd ((isSome_fullMatch_iff rfl).mpr h) hident
      | right h =>
        cases h with
        | left h => exact absurd ((isSome_fullMatch_iff rfl).mpr (.left h)) hnumber
        | right h =>
          cases h with
          | left h => exact absurd ((isSome_fullMatch_iff rfl).mpr (.right h)) hnumber
          | right h =>
            cases h with
            | @char _ c hc =>
              rw [Bool.and_eq_true, Bool.not_eq_true', Bool.not_eq_true'] at hc
              exact ⟨c, hc.2, rfl⟩
  · rintro (hkeyword | ⟨hstring, hnumber, c, hc, rfl⟩)
    · obtain ⟨hstring, hnumber⟩ := not_literal_of_head (U := U)
        (head_of_mem_cKeywords token hkeyword)
      rw [tokenKind, if_neg hstring, if_neg hnumber, if_pos hkeyword]
    · have hident : ¬ ((identPattern U).fullMatch [c]).isSome := by
        intro hident
        obtain ⟨d, hd, hstart⟩ := head_of_identPattern hident
        obtain rfl := Option.some.inj hd
        rw [isWordChar_of_isIdentStart hstart] at hc
        cases hc
      rw [tokenKind, if_neg hstring, if_neg hnumber, if_neg hident, ite_self]

end Kinds

/-! ### Renamings -/

/-- No two of the pairs share one side only. -/
def OneToOne (l : List (Text × Text)) : Prop := ∀ p ∈ l, ∀ q ∈ l, p.1 = q.1 ↔ p.2 = q.2

theorem nodup_addIdentifier {as : List Text} (h : as.Nodup) (s : Text) :
    (addIdentifier as s).Nodup := by
  unfold addIdentifier
  split
  · exact h
  · rename_i hs
    exact List.Nodup.append h (List.nodup_singleton s) (List.disjoint_singleton.mpr hs)

/-- Two identifiers with the same number are both new, or both not. -/
theorem length_addIdentifier_eq {as bs : List Text} (hlen : as.length = bs.length) {s t : Text}
    (hidx : (addIdentifier as s).idxOf s = (addIdentifier bs t).idxOf t) :
    (addIdentifier as s).length = (addIdentifier bs t).length := by
  unfold addIdentifier at *
  by_cases hs : s ∈ as
  · by_cases ht : t ∈ bs
    · rw [if_pos hs, if_pos ht, hlen]
    · rw [if_pos hs, if_neg ht] at hidx
      have hlt := List.idxOf_lt_length_of_mem hs
      rw [hidx, List.idxOf_append_of_notMem ht] at hlt
      omega
  · by_cases ht : t ∈ bs
    · rw [if_neg hs, if_pos ht] at hidx
      have hlt := List.idxOf_lt_length_of_mem ht
      rw [← hidx, List.idxOf_append_of_notMem hs] at hlt
      omega
    · rw [if_neg hs, if_neg ht, List.length_append, List.length_append, hlen]
      rfl

theorem oneToOne_congr {l l' : List (Text × Text)} (h : ∀ p, p ∈ l ↔ p ∈ l') :
    OneToOne l ↔ OneToOne l' := by
  simp only [OneToOne, h]

theorem oneToOne_zip {as bs : List Text} (has : as.Nodup) (hbs : bs.Nodup) :
    OneToOne (as.zip bs) := by
  intro p hp q hq
  obtain ⟨i, hi, rfl⟩ := List.getElem_of_mem hp
  obtain ⟨j, hj, rfl⟩ := List.getElem_of_mem hq
  rw [List.getElem_zip, List.getElem_zip]
  exact (List.Nodup.getElem_inj_iff has).trans (List.Nodup.getElem_inj_iff hbs).symm

/-- The identifier at a place is paired with the one at the same place. -/
theorem mem_zip_of_idxOf {as bs : List Text} (hlen : as.length = bs.length) {s : Text}
    (hs : s ∈ as) : ∃ t ∈ bs, (s, t) ∈ as.zip bs ∧ bs[as.idxOf s]? = some t := by
  have hlt : as.idxOf s < as.length := List.idxOf_lt_length_of_mem hs
  refine ⟨bs[as.idxOf s], List.getElem_mem _, ?_, List.getElem?_eq_getElem _⟩
  refine List.mem_iff_getElem.mpr ⟨as.idxOf s, by simp only [List.length_zip]; omega, ?_⟩
  rw [List.getElem_zip, List.getElem_idxOf hlt]

/-- **One more pair**: the numbers of two identifiers are the same if the renaming can be extended
by them. -/
theorem idxOf_eq_and_oneToOne_iff {as bs : List Text} (hlen : as.length = bs.length)
    (hbs : bs.Nodup) (s t : Text) (rest : List (Text × Text)) :
    ((addIdentifier as s).idxOf s = (addIdentifier bs t).idxOf t ∧
      OneToOne ((addIdentifier as s).zip (addIdentifier bs t) ++ rest)) ↔
      OneToOne (as.zip bs ++ (s, t) :: rest) := by
  have hmid : (s, t) ∈ as.zip bs ++ (s, t) :: rest :=
    List.mem_append_right _ List.mem_cons_self
  unfold addIdentifier
  by_cases hs : s ∈ as
  · by_cases ht : t ∈ bs
    · rw [if_pos hs, if_pos ht]
      obtain ⟨u, hu, hpair, hget⟩ := mem_zip_of_idxOf hlen hs
      constructor
      · rintro ⟨hidx, hone⟩
        -- the pair is there already
        rw [hidx, List.getElem?_eq_getElem (List.idxOf_lt_length_of_mem ht),
          List.getElem_idxOf] at hget
        obtain rfl := Option.some.inj hget
        refine (oneToOne_congr fun p => ?_).mp hone
        simp only [List.mem_append, List.mem_cons]
        constructor
        · rintro (hp | hp)
          · exact Or.inl hp
          · exact Or.inr (Or.inr hp)
        · rintro (hp | rfl | hp)
          · exact Or.inl hp
          · exact Or.inl hpair
          · exact Or.inr hp
      · intro hone
        have hut : u = t :=
          (hone (s, u) (List.mem_append_left _ hpair) (s, t) hmid).mp rfl
        subst hut
        refine ⟨?_, fun p hp q hq => hone p ?_ q ?_⟩
        · obtain ⟨hlt, hget⟩ := List.getElem?_eq_some_iff.mp hget
          rw [← hget, hbs.idxOf_getElem]
        · rcases List.mem_append.mp hp with hp | hp
          · exact List.mem_append_left _ hp
          · exact List.mem_append_right _ (List.mem_cons_of_mem _ hp)
        · rcases List.mem_append.mp hq with hq | hq
          · exact List.mem_append_left _ hq
          · exact List.mem_append_right _ (List.mem_cons_of_mem _ hq)
    · rw [if_pos hs, if_neg ht]
      constructor
      · rintro ⟨hidx, -⟩
        have hlt := List.idxOf_lt_length_of_mem hs
        rw [hidx, List.idxOf_append_of_notMem ht] at hlt
        omega
      · intro hone
        obtain ⟨u, hu, hpair, -⟩ := mem_zip_of_idxOf hlen hs
        obtain rfl := (hone (s, u) (List.mem_append_left _ hpair) (s, t) hmid).mp rfl
        exact absurd hu ht
  · by_cases ht : t ∈ bs
    · rw [if_neg hs, if_pos ht]
      constructor
      · rintro ⟨hidx, -⟩
        have hlt := List.idxOf_lt_length_of_mem ht
        rw [← hidx, List.idxOf_append_of_notMem hs] at hlt
        omega
      · intro hone
        obtain ⟨u, hu, hpair, -⟩ := mem_zip_of_idxOf hlen.symm ht
        have hpair : (u, t) ∈ as.zip bs := by
          rw [← List.zip_swap, List.mem_map]
          exact ⟨(t, u), hpair, rfl⟩
        obtain rfl := (hone (u, t) (List.mem_append_left _ hpair) (s, t) hmid).mpr rfl
        exact absurd hu hs
    · rw [if_neg hs, if_neg ht, List.zip_append hlen, List.append_assoc]
      refine and_iff_right ?_
      rw [List.idxOf_append_of_notMem hs, List.idxOf_append_of_notMem ht, hlen]
      simp

/-! ### Lists of tokens -/

section Tokens

variable (U : CharTable)

/-- Two tokens of the same kind, and the same token where it is left alone. -/
def SameKind (p : Text × Text) : Prop :=
  tokenKind U p.1 = tokenKind U p.2 ∧ (tokenKind U p.1 = .fixed → p.1 = p.2)

/-- The identifiers of a list of tokens, with the tokens at their places in another one. -/
def identPairs (ss ts : List Text) : List (Text × Text) :=
  (ss.zip ts).filter fun p => tokenKind U p.1 = .identifier

/-- The kind of token that is shown by a text. -/
def shownKind (shown : Text) : TokenKind :=
  if shown = lit "STR_LIT" then .string
  else if shown = lit "NUM_LIT" then .number
  else if lit "VAR_" <+: shown then .identifier
  else .fixed

variable {U}

/-- **No token imitates a placeholder**: what a token becomes shows its kind. -/
theorem shownKind_abstractToken {token : Text} (htoken : (tokenPattern U).Reads token)
    (identifiers : List Text) :
    shownKind (abstractToken U identifiers token).1 = tokenKind U token := by
  rw [abstractToken_eq]
  cases hkind : tokenKind U token with
  | string => rfl
  | number => rfl
  | identifier =>
    show shownKind (lit "VAR_" ++ natText _) = _
    generalize natText _ = n
    have hstring : lit "VAR_" ++ n ≠ lit "STR_LIT" := fun h =>
      absurd (Option.some.inj (congrArg List.head? h)) (show 'V' ≠ 'S' by decide)
    have hnumber : lit "VAR_" ++ n ≠ lit "NUM_LIT" := fun h =>
      absurd (Option.some.inj (congrArg List.head? h)) (show 'V' ≠ 'N' by decide)
    rw [shownKind, if_neg hstring, if_neg hnumber, if_pos (List.prefix_append _ _)]
  | fixed =>
    show shownKind token = _
    have hkeywords : ∀ w ∈ cKeywords, shownKind w = .fixed := by decide
    rcases (tokenKind_eq_fixed_iff htoken).mp hkind with hmem | ⟨-, -, c, -, rfl⟩
    · exact hkeywords token hmem
    · have hlen : ∀ {t : Text}, 1 < t.length → [c] ≠ t := by
        rintro t hlt rfl
        exact absurd hlt (by simp)
      rw [shownKind, if_neg (hlen (by decide)), if_neg (hlen (by decide)),
        if_neg fun h => absurd (h.length_le : 4 ≤ 1) (by decide)]

/-- **When two lists of tokens have the same abstraction**: token by token the same kinds, and the
identifiers are renamed one to one, the ones seen before included. -/
theorem abstractTokens_eq_iff {ss ts : List Text} (hss : ∀ s ∈ ss, (tokenPattern U).Reads s)
    (hts : ∀ t ∈ ts, (tokenPattern U).Reads t) {as bs : List Text}
    (hlen : as.length = bs.length) (has : as.Nodup) (hbs : bs.Nodup) :
    abstractTokens U as ss = abstractTokens U bs ts ↔ ss.length = ts.length ∧
      (∀ p ∈ ss.zip ts, SameKind U p) ∧ OneToOne (as.zip bs ++ identPairs U ss ts) := by
  induction ss generalizing ts as bs with
  | nil =>
    cases ts with
    | nil => simpa [abstractTokens, identPairs] using oneToOne_zip has hbs
    | cons t ts => simp [abstractTokens]
  | cons s ss ih =>
    cases ts with
    | nil => simp [abstractTokens]
    | cons t ts =>
      obtain ⟨hs, hss⟩ := List.forall_mem_cons.mp hss
      obtain ⟨ht, hts⟩ := List.forall_mem_cons.mp hts
      simp only [abstractTokens, List.cons.injEq, List.length_cons, Nat.add_right_cancel_iff,
        List.zip_cons_cons, List.forall_mem_cons]
      by_cases hkind : tokenKind U s = tokenKind U t
      · cases hs' : tokenKind U s with
        | identifier =>
          have ht' := hkind.symm.trans hs'
          have hpairs : identPairs U (s :: ss) (t :: ts) = (s, t) :: identPairs U ss ts := by
            rw [identPairs, List.zip_cons_cons, List.filter_cons_of_pos (by simpa using hs')]
            rfl
          have hsame : SameKind U (s, t) := ⟨hkind, fun h => by rw [hs'] at h; cases h⟩
          rw [hpairs, ← idxOf_eq_and_oneToOne_iff hlen hbs]
          simp only [abstractToken_eq, hs', ht', List.append_cancel_left_eq,
            natText_injective.eq_iff, hsame, true_and]
          constructor
          · rintro ⟨hidx, hrest⟩
            obtain ⟨hl, hk, hone⟩ := (ih hss hts (length_addIdentifier_eq hlen hidx)
              (nodup_addIdentifier has s) (nodup_addIdentifier hbs t)).mp hrest
            exact ⟨hl, hk, hidx, hone⟩
          · rintro ⟨hl, hk, hidx, hone⟩
            exact ⟨hidx, (ih hss hts (length_addIdentifier_eq hlen hidx)
              (nodup_addIdentifier has s) (nodup_addIdentifier hbs t)).mpr ⟨hl, hk, hone⟩⟩
        | fixed =>
          have ht' := hkind.symm.trans hs'
          have hpairs : identPairs U (s :: ss) (t :: ts) = identPairs U ss ts := by
            rw [identPairs, List.zip_cons_cons, List.filter_cons_of_neg (by simp [hs'])]
            rfl
          have hsame : SameKind U (s, t) ↔ s = t := ⟨fun h => h.2 hs', fun h => ⟨hkind, fun _ => h⟩⟩
          simp only [abstractToken_eq, hs', ht', hpairs, hsame, ih hss hts hlen has hbs]
          tauto
        | _ =>
          have ht' := hkind.symm.trans hs'
          have hpairs : identPairs U (s :: ss) (t :: ts) = identPairs U ss ts := by
            rw [identPairs, List.zip_cons_cons, List.filter_cons_of_neg (by simp [hs'])]
            rfl
          have hsame : SameKind U (s, t) := ⟨hkind, fun h => by rw [hs'] at h; cases h⟩
          simp only [abstractToken_eq, hs', ht', hpairs, hsame, true_and]
          exact ih hss hts hlen has hbs
      · constructor
        · rintro ⟨hhead, -⟩
          have hshown := congrArg shownKind hhead
          rw [shownKind_abstractToken hs, shownKind_abstractToken ht] at hshown
          exact absurd hshown hkind
        · rintro ⟨-, ⟨⟨hsame, -⟩, -⟩, -⟩
          exact absurd hsame hkind

end Tokens

/-! ### Statements -/

section Statements

variable (U : CharTable)

/-- Two lists of tokens correspond: strings to strings, numbers to numbers, what is left alone to
itself, and the identifiers through a bijection. -/
structure Corresponds (ss ts : List Text) : Prop where
  length : ss.length = ts.length
  string : ∀ p ∈ ss.zip ts, IsString p.1 ↔ IsString p.2
  number : ∀ p ∈ ss.zip ts, IsNumber U p.1 ↔ IsNumber U p.2
  fixed : ∀ p ∈ ss.zip ts, IsFixed U p.1 ∨ IsFixed U p.2 → p.1 = p.2
  renamed : ∃ f : Text → Text,
    Set.BijOn f {s | s ∈ ss ∧ IsIdentifier U s} {t | t ∈ ts ∧ IsIdentifier U t} ∧
    ∀ p ∈ ss.zip ts, IsIdentifier U p.1 → f p.1 = p.2

variable {U}

theorem mem_identPairs {ss ts : List Text} {p : Text × Text} :
    p ∈ identPairs U ss ts ↔ p ∈ ss.zip ts ∧ IsIdentifier U p.1 := by
  rw [identPairs, List.mem_filter, decide_eq_true_eq, tokenKind_eq_identifier_iff]

/-- What stands at the same place. -/
theorem exists_mem_zip {ss ts : List Text} (hlen : ss.length = ts.length) {s : Text}
    (hs : s ∈ ss) : ∃ t, (s, t) ∈ ss.zip ts := by
  obtain ⟨t, -, hpair, -⟩ := mem_zip_of_idxOf hlen hs
  exact ⟨t, hpair⟩

theorem exists_mem_zip' {ss ts : List Text} (hlen : ss.length = ts.length) {t : Text}
    (ht : t ∈ ts) : ∃ s, (s, t) ∈ ss.zip ts := by
  obtain ⟨s, hpair⟩ := exists_mem_zip hlen.symm ht
  refine ⟨s, ?_⟩
  rw [← List.zip_swap, List.mem_map]
  exact ⟨(t, s), hpair, rfl⟩

/-- A renaming that is one to one is a bijection between the identifiers. -/
theorem exists_bijOn_iff {ss ts : List Text} (hlen : ss.length = ts.length)
    (hident : ∀ p ∈ ss.zip ts, IsIdentifier U p.1 ↔ IsIdentifier U p.2) :
    (∃ f : Text → Text,
      Set.BijOn f {s | s ∈ ss ∧ IsIdentifier U s} {t | t ∈ ts ∧ IsIdentifier U t} ∧
      ∀ p ∈ ss.zip ts, IsIdentifier U p.1 → f p.1 = p.2) ↔ OneToOne (identPairs U ss ts) := by
  constructor
  · rintro ⟨f, hbij, hf⟩ p hp q hq
    obtain ⟨hp, hpi⟩ := mem_identPairs.mp hp
    obtain ⟨hq, hqi⟩ := mem_identPairs.mp hq
    rw [← hf p hp hpi, ← hf q hq hqi]
    refine ⟨congrArg f, fun h => hbij.injOn ⟨?_, hpi⟩ ⟨?_, hqi⟩ h⟩
    · exact (List.of_mem_zip (a := p.1) (b := p.2) hp).1
    · exact (List.of_mem_zip (a := q.1) (b := q.2) hq).1
  · intro hone
    have hall : ∀ s ∈ ss, ∃ t, (s, t) ∈ ss.zip ts := fun s hs => exists_mem_zip hlen hs
    choose! f hf using hall
    have hmap : ∀ p ∈ ss.zip ts, IsIdentifier U p.1 → f p.1 = p.2 := by
      intro p hp hpi
      have hmem := (List.of_mem_zip (a := p.1) (b := p.2) hp).1
      exact (hone (p.1, f p.1) (mem_identPairs.mpr ⟨hf p.1 hmem, hpi⟩) p
        (mem_identPairs.mpr ⟨hp, hpi⟩)).mp rfl
    refine ⟨f, ⟨?_, ?_, ?_⟩, hmap⟩
    · rintro s ⟨hs, hsi⟩
      exact ⟨(List.of_mem_zip (hf s hs)).2, (hident _ (hf s hs)).mp hsi⟩
    · rintro s ⟨hs, hsi⟩ s' ⟨hs', hsi'⟩ heq
      exact (hone _ (mem_identPairs.mpr ⟨hf s hs, hsi⟩) _
        (mem_identPairs.mpr ⟨hf s' hs', hsi'⟩)).mpr heq
    · rintro t ⟨ht, hti⟩
      obtain ⟨s, hpair⟩ := exists_mem_zip' hlen ht
      have hsi := (hident _ hpair).mpr hti
      exact ⟨s, ⟨(List.of_mem_zip hpair).1, hsi⟩, hmap _ hpair hsi⟩

/-- Correspondence, through the kinds of the tokens. -/
theorem corresponds_iff {ss ts : List Text} (hss : ∀ s ∈ ss, (tokenPattern U).Reads s)
    (hts : ∀ t ∈ ts, (tokenPattern U).Reads t) : Corresponds U ss ts ↔ ss.length = ts.length ∧
      (∀ p ∈ ss.zip ts, SameKind U p) ∧ OneToOne (identPairs U ss ts) := by
  have hreads : ∀ p ∈ ss.zip ts, (tokenPattern U).Reads p.1 ∧ (tokenPattern U).Reads p.2 := by
    intro p hp
    obtain ⟨hs, ht⟩ := List.of_mem_zip (a := p.1) (b := p.2) hp
    exact ⟨hss _ hs, hts _ ht⟩
  constructor
  · rintro ⟨hlen, hstring, hnumber, hfixed, f, hbij, hf⟩
    have hsame : ∀ p ∈ ss.zip ts, SameKind U p := by
      intro p hp
      obtain ⟨hs, ht⟩ := hreads p hp
      refine ⟨?_, fun h => hfixed p hp (Or.inl ((tokenKind_eq_fixed_iff hs).mp h))⟩
      cases hkind : tokenKind U p.1 with
      | string =>
        exact (tokenKind_eq_string_iff.mpr
          ((hstring p hp).mp (tokenKind_eq_string_iff.mp hkind))).symm
      | number =>
        exact (tokenKind_eq_number_iff.mpr
          ((hnumber p hp).mp (tokenKind_eq_number_iff.mp hkind))).symm
      | fixed =>
        rw [← hfixed p hp (Or.inl ((tokenKind_eq_fixed_iff hs).mp hkind)), hkind]
      | identifier =>
        have hi := tokenKind_eq_identifier_iff.mp hkind
        have hmem := hbij.mapsTo ⟨(List.of_mem_zip (a := p.1) (b := p.2) hp).1, hi⟩
        rw [hf p hp hi] at hmem
        exact (tokenKind_eq_identifier_iff.mpr hmem.2).symm
    refine ⟨hlen, hsame, (exists_bijOn_iff hlen fun p hp => ?_).mp ⟨f, hbij, hf⟩⟩
    rw [← tokenKind_eq_identifier_iff, ← tokenKind_eq_identifier_iff, (hsame p hp).1]
  · rintro ⟨hlen, hsame, hone⟩
    exact
      { length := hlen
        string := fun p hp => by
          rw [← tokenKind_eq_string_iff (U := U), ← tokenKind_eq_string_iff (U := U),
            (hsame p hp).1]
        number := fun p hp => by
          rw [← tokenKind_eq_number_iff, ← tokenKind_eq_number_iff, (hsame p hp).1]
        fixed := fun p hp h => by
          obtain ⟨hs, ht⟩ := hreads p hp
          rw [← tokenKind_eq_fixed_iff hs, ← tokenKind_eq_fixed_iff ht, ← (hsame p hp).1,
            or_self] at h
          exact (hsame p hp).2 h
        renamed := (exists_bijOn_iff hlen fun p hp => by
          rw [← tokenKind_eq_identifier_iff, ← tokenKind_eq_identifier_iff,
            (hsame p hp).1]).mpr hone }

open Pattern in
/-- A token that is left alone is not empty, and holds no space. -/
theorem token_of_fixed {token : Text} (htoken : Reads (tokenPattern U) token)
    (hkind : tokenKind U token = .fixed) : token ≠ [] ∧ ' ' ∉ token := by
  have hkeywords : ∀ w ∈ cKeywords, w ≠ [] ∧ ' ' ∉ w := by decide
  rcases (tokenKind_eq_fixed_iff htoken).mp hkind with hmem | ⟨hstring, hnumber, c, hword, rfl⟩
  · exact hkeywords token hmem
  · refine ⟨List.cons_ne_nil _ _, fun hspace => ?_⟩
    obtain rfl := List.mem_singleton.mp hspace
    simp only [tokenPattern, alts] at htoken
    cases htoken with
    | left h => exact absurd (head_of_stringPattern h) hstring
    | right h =>
      cases h with
      | left h =>
        obtain ⟨d, hd, hstart⟩ := head_of_identPattern ((isSome_fullMatch_iff rfl).mpr h)
        obtain rfl := Option.some.inj hd
        exact absurd hstart (by decide)
      | right h =>
        cases h with
        | left h => exact absurd ((isSome_fullMatch_iff rfl).mpr (.left h)) hnumber
        | right h =>
          cases h with
          | left h => exact absurd ((isSome_fullMatch_iff rfl).mpr (.right h)) hnumber
          | right h =>
            cases h with
            | char hc => simp [isSpace] at hc

/-- The abstractions can be read off from the text that joins them. -/
theorem shown_tokens {ss : List Text} (hss : ∀ s ∈ ss, (tokenPattern U).Reads s)
    (identifiers : List Text) :
    ∀ shown ∈ abstractTokens U identifiers ss, shown ≠ [] ∧ ' ' ∉ shown := by
  induction ss generalizing identifiers with
  | nil => nofun
  | cons s ss ih =>
    obtain ⟨hs, hss⟩ := List.forall_mem_cons.mp hss
    rw [abstractTokens]
    refine List.forall_mem_cons.mpr ⟨?_, ih hss _⟩
    rw [abstractToken_eq]
    cases hkind : tokenKind U s with
    | string => exact (show lit "STR_LIT" ≠ [] ∧ ' ' ∉ lit "STR_LIT" by decide)
    | number => exact (show lit "NUM_LIT" ≠ [] ∧ ' ' ∉ lit "NUM_LIT" by decide)
    | identifier =>
      refine ⟨by simp, List.not_mem_append (by decide) fun h => ?_⟩
      exact absurd (isDigit_of_mem_natText h) (by decide)
    | fixed => exact token_of_fixed hs hkind

theorem reads_tokenize (s : Text) : ∀ token ∈ tokenize U s, (tokenPattern U).Reads token :=
  fun _ h => Pattern.reads_of_mem_findTexts h

theorem normalizeStmtType2_eq_iff_sameKind (s t : Text) :
    normalizeStmtType2 U s = normalizeStmtType2 U t ↔
      (tokenize U s).length = (tokenize U t).length ∧
      (∀ p ∈ (tokenize U s).zip (tokenize U t), SameKind U p) ∧
      OneToOne (identPairs U (tokenize U s) (tokenize U t)) := by
  have hs := reads_tokenize (U := U) s
  have ht := reads_tokenize (U := U) t
  rw [normalizeStmtType2, normalizeStmtType2,
    intercalate_inj (shown_tokens hs []) (shown_tokens ht []),
    abstractTokens_eq_iff hs ht rfl List.nodup_nil List.nodup_nil]
  rfl

/-- **The Type II normal form** of two statements is the same if and only if their tokens
correspond. -/
theorem normalizeStmtType2_eq_iff (s t : Text) :
    normalizeStmtType2 U s = normalizeStmtType2 U t ↔
      Corresponds U (tokenize U s) (tokenize U t) := by
  rw [corresponds_iff (reads_tokenize s) (reads_tokenize t)]
  exact normalizeStmtType2_eq_iff_sameKind s t

/-! ### Keywords of both languages -/

/-- The keywords of Java that are none of C. -/
def javaKeywords : List Text :=
  ["boolean", "byte", "class", "extends", "final", "implements", "import",
    "instanceof", "interface", "new", "package", "private", "protected",
    "public", "super", "this", "throw", "throws", "try", "catch", "finally",
    "abstract", "assert", "native", "synchronized", "transient", "strictfp"].map String.toList

/-- The keywords of both languages. -/
def sharedKeywords : List Text := cKeywords ++ javaKeywords

/-- The words of `ws` stand at the same places of two lists of tokens. -/
def AgreeOn (ws ss ts : List Text) : Prop :=
  ∀ (i : ℕ), ∀ w ∈ ws, ss[i]? = some w ↔ ts[i]? = some w

theorem AgreeOn.symm {ws ss ts : List Text} (h : AgreeOn ws ss ts) : AgreeOn ws ts ss :=
  fun i w hw => (h i w hw).symm

theorem AgreeOn.idxOf_le {ws ss ts : List Text} (h : AgreeOn ws ss ts)
    (hlen : ss.length = ts.length) {w : Text} (hw : w ∈ ws) : ts.idxOf w ≤ ss.idxOf w := by
  by_cases hmem : w ∈ ss
  · have hlt := List.idxOf_lt_length_of_mem hmem
    have hget : ss[ss.idxOf w]? = some w := by
      rw [List.getElem?_eq_getElem hlt, List.getElem_idxOf]
    obtain ⟨hlt', hget'⟩ := List.getElem?_eq_some_iff.mp ((h _ w hw).mp hget)
    by_contra hgt
    have hnot : (ts[ss.idxOf w] == w) = false :=
      List.not_of_lt_findIdx (p := (· == w)) (not_le.mp hgt)
    rw [hget', beq_self_eq_true] at hnot
    cases hnot
  · rw [List.idxOf_eq_length hmem, hlen]
    exact List.idxOf_le_length

/-- What stands next to a word that is left alone or renamed. -/
theorem eq_of_sameKind {ss ts : List Text} (hlen : ss.length = ts.length)
    (hsame : ∀ p ∈ ss.zip ts, SameKind U p) (hone : OneToOne (identPairs U ss ts)) {w : Text}
    (hw : w ∈ sharedKeywords) (hidx : w ∈ javaKeywords → ss.idxOf w = ts.idxOf w) {i : ℕ}
    (hi : ss[i]? = some w) : ts[i]? = some w := by
  obtain ⟨hlt, hget⟩ := List.getElem?_eq_some_iff.mp hi
  have hpair : ∀ j (hj : j < ss.length), (ss[j], ts[j]) ∈ ss.zip ts := by
    intro j hj
    refine List.mem_iff_getElem.mpr ⟨j, by simp only [List.length_zip]; omega, ?_⟩
    rw [List.getElem_zip]
  obtain ⟨hkind, hfixed⟩ := hsame _ (hpair i hlt)
  rw [List.getElem?_eq_getElem (by omega)]
  refine congrArg some ?_
  rw [← hget]
  -- a keyword is neither a string nor a number
  have hstart : ∀ w ∈ sharedKeywords, w.head?.any isIdentStart = true := by decide
  obtain ⟨hstring, hnumber⟩ := not_literal_of_head (U := U)
    ((Option.any_eq_true _ _).mp (hstart w hw))
  cases hw' : tokenKind U ss[i] with
  | string => exact absurd (hget ▸ tokenKind_eq_string_iff.mp hw') hstring
  | number => exact absurd (hget ▸ tokenKind_eq_number_iff.mp hw') hnumber
  | fixed => exact (hfixed hw').symm
  | identifier =>
    have hident := tokenKind_eq_identifier_iff.mp hw'
    have hjava : w ∈ javaKeywords := by
      rcases List.mem_append.mp hw with hc | hj
      · exact absurd (hget ▸ hc) hident.2
      · exact hj
    -- the first place of the word shows what it is renamed to
    have hmem : w ∈ ss := hget ▸ List.getElem_mem hlt
    have hfirst := List.idxOf_lt_length_of_mem hmem
    have hs : ss[ss.idxOf w] = w := List.getElem_idxOf hfirst
    have ht : ts[ss.idxOf w] = w := by
      simp only [hidx hjava]
      exact List.getElem_idxOf _
    have hp := mem_identPairs.mpr ⟨hpair _ hfirst, (hs.symm ▸ hget ▸ hident : IsIdentifier U _)⟩
    have hq := mem_identPairs.mpr ⟨hpair i hlt, hident⟩
    have heq := (hone _ hp _ hq).mp (hs.trans hget.symm)
    exact (heq.symm.trans ht).trans hget.symm

/-- **Two statements with the same normal form have the same keywords** of both languages at the
same places if each keyword that is Java only first stands at the same place of both. -/
theorem agreeOn_keywords_iff {s t : Text} (h : normalizeStmtType2 U s = normalizeStmtType2 U t) :
    AgreeOn sharedKeywords (tokenize U s) (tokenize U t) ↔
      ∀ w ∈ javaKeywords, (tokenize U s).idxOf w = (tokenize U t).idxOf w := by
  obtain ⟨hlen, hsame, hone⟩ := (normalizeStmtType2_eq_iff_sameKind s t).mp h
  obtain ⟨-, hsame', hone'⟩ := (normalizeStmtType2_eq_iff_sameKind t s).mp h.symm
  constructor
  · intro hagree w hw
    have hw := List.mem_append_right cKeywords hw
    exact le_antisymm (hagree.symm.idxOf_le hlen.symm hw) (hagree.idxOf_le hlen hw)
  · intro hidx i w hw
    exact ⟨eq_of_sameKind hlen hsame hone hw (hidx w),
      eq_of_sameKind hlen.symm hsame' hone' hw fun hj => (hidx w hj).symm⟩

theorem agreeOn_keywords_iff_this :
    AgreeOn sharedKeywords (tokenize .ascii (lit "return this.x;"))
        (tokenize .ascii (lit "return this.y;")) ↔
      ∀ w ∈ javaKeywords, (tokenize .ascii (lit "return this.x;")).idxOf w
        = (tokenize .ascii (lit "return this.y;")).idxOf w :=
  agreeOn_keywords_iff (by decide +kernel)

/-- A Java keyword is renamed like a variable. -/
theorem not_agreeOn_keywords : ¬ ∀ (U : CharTable) (s t : Text),
    normalizeStmtType2 U s = normalizeStmtType2 U t →
      AgreeOn sharedKeywords (tokenize U s) (tokenize U t) := by
  intro h
  have hagree := h .ascii (lit "return this;") (lit "return that;") (by decide +kernel) 1
    (lit "this") (by decide)
  revert hagree
  decide +kernel

end Statements

end Csc512
