import Csc512.Cdup.CleanText
import Csc512.Cdup.ForLoops

/-!
# Stores in elements and through pointers

How a store is written, and what the parser and the patterns of the interpreter find in it. The
parser finds nothing: a store is a statement of no class, and its text is kept. The patterns look
for the last closing bracket that an equals sign follows.

## Main results

* `StoreStmt.parsed` — the statement that the parser makes of a store
* `matchStart_element`, `matchStart_pointer`, `matchStart_deref` — the parts of a plain store
* `StoreStmt.not_match` — no pattern finds a store with another operator
-/

namespace Csc512

/-! ### Operands -/

/-- No `x` of a text is followed by an equals sign. -/
def NoStore (x : Char) (s : Text) : Prop := ∀ t u, s = t ++ x :: u → (lstrip u).head? ≠ some '='

theorem noStore_cons {x c : Char} {s : Text} (hc : c = x → (lstrip s).head? ≠ some '=')
    (hs : NoStore x s) : NoStore x (c :: s) := by
  intro t u h
  cases t with
  | nil =>
    obtain ⟨hcx, hsu⟩ := List.cons.inj h
    exact hsu ▸ hc hcx
  | cons d t => exact hs t u (List.cons.inj h).2

theorem noStore_of_notMem {x : Char} {s : Text} (h : x ∉ s) : NoStore x s := by
  rintro t u rfl
  exact absurd (by simp) h

/-- What follows does not matter, if it begins with something else. -/
theorem NoStore.append {x y : Char} {s t : Text} (hs : NoStore x s) (ht : NoStore x (y :: t))
    (hy : ¬ isSpace y ∧ y ≠ '=') : NoStore x (s ++ y :: t) := by
  induction s with
  | nil => exact ht
  | cons c s ih =>
    refine noStore_cons (fun hc => ?_) (ih fun t u h => hs (c :: t) u (by rw [h]; rfl))
    have hfirst := hs [] s (by rw [hc]; rfl)
    show (lstrip (s ++ y :: t)).head? ≠ _
    by_cases hblank : ∀ b ∈ s, isSpace b
    · rw [lstrip_append_cons hblank hy.1]
      simpa using hy.2
    · have hink : strip s ≠ [] := by
        intro hnil
        refine hblank fun b hb => ?_
        have hdrop := List.dropWhile_eq_nil_iff.mp (lstrip_eq_nil hnil)
        exact hdrop b hb
      rw [lstrip_append_of_ink hink]
      obtain ⟨d, v, hd⟩ : ∃ d v, lstrip s = d :: v :=
        List.exists_cons_of_ne_nil fun hnil => hink (by rw [strip, hnil]; rfl)
      rw [hd] at hfirst ⊢
      exact hfirst

/-- An operand of a store: one line with nothing to trim, and no semicolon at its end. -/
structure IsOperand (s : Text) : Prop where
  trimmed : Trimmed s
  line : '\n' ∉ s
  last : ∀ c ∈ s.getLast?, c ≠ ';'

theorem IsOperand.ne_newline {s : Text} (h : IsOperand s) {c : Char} (hc : c ∈ s) :
    decide (c ≠ '\n') = true :=
  decide_eq_true fun heq => h.line (heq ▸ hc)

theorem isOperand_of_isInk {s : Text} (hne : s ≠ []) (h : ∀ c ∈ s, isInk c = true) :
    IsOperand s where
  trimmed := trimmed_of_isInk hne h
  line hmem := absurd (h _ hmem) (by decide)
  last c hc := by
    rintro rfl
    exact absurd (h _ (List.mem_of_getLast? hc)) (by decide)

/-! ### Statements of no class -/

/-- A name and a bracket, or a star. -/
def IsOpening (w : Text) (x : Char) : Prop :=
  isIdentifier w = true ∧ x = '[' ∨ w = [] ∧ x = '*'

section Classes

variable (U : CharTable) {w rest : Text} {x : Char}

theorem IsOpening.isInk (h : IsOpening w x) : ∀ c ∈ w ++ [x], isInk c = true := by
  intro c hc
  rcases h with ⟨hw, rfl⟩ | ⟨rfl, rfl⟩
  · rcases List.mem_append.mp hc with hc | hc
    · exact isInk_of_mem_identifier hw c hc
    · rw [List.mem_singleton.mp hc]
      decide
  · rw [List.mem_singleton.mp hc]
    decide

theorem exists_splitOnP_eq {α : Type} (p : α → Bool) (l : List α) :
    ∃ ws, l.splitOnP p = l.takeWhile (fun a => !p a) :: ws := by
  induction l with
  | nil => exact ⟨[], rfl⟩
  | cons a l ih =>
    obtain ⟨ws, hws⟩ := ih
    rw [List.splitOnP_cons_eq_if_modifyHead, hws]
    by_cases ha : p a
    · exact ⟨_, by rw [if_pos ha, List.takeWhile_cons_of_neg (by simp [ha])]⟩
    · exact ⟨ws, by rw [if_neg ha, List.takeWhile_cons_of_pos (by simp [ha])]; rfl⟩

/-- The first word of a text with such a beginning. -/
theorem IsOpening.firstWord_eq (h : IsOpening w x) (rest : Text) :
    ∃ v, firstWord (w ++ x :: rest) = w ++ x :: v := by
  obtain ⟨ws, hws⟩ := exists_splitOnP_eq (fun c : Char => isSpace c) (w ++ x :: rest)
  have htake : (w ++ x :: rest).takeWhile (fun c => !isSpace c)
      = w ++ x :: rest.takeWhile fun c => !isSpace c := by
    have hink : ∀ c ∈ w ++ [x], (!isSpace c) = true := fun c hc => by
      simpa using not_isSpace_of_isInk (h.isInk c hc)
    have happend : (w ++ [x] ++ rest).takeWhile (fun c => !isSpace c)
        = w ++ [x] ++ rest.takeWhile fun c => !isSpace c := List.takeWhile_append_of_pos hink
    rwa [List.append_assoc, List.append_assoc] at happend
  refine ⟨rest.takeWhile fun c => !isSpace c, ?_⟩
  show (((w ++ x :: rest).splitOnP fun c => isSpace c).filter fun w => !w.isEmpty).headD [] = _
  rw [hws, htake, List.filter_cons_of_pos (by simp)]
  rfl

/-- The first word is no name. -/
theorem IsOpening.not_isIdentifier (h : IsOpening w x) (v : Text) :
    isIdentifier (rstripChar '*' (w ++ x :: v)) = false := by
  rw [← Bool.not_eq_true]
  intro hid
  have happend : rstripChar '*' (w ++ x :: v) ++ (w ++ x :: v).rtakeWhile (fun c => decide (c = '*'))
      = w ++ x :: v := List.rdropWhile_append_rtakeWhile ..
  rcases h with ⟨hw, rfl⟩ | ⟨rfl, rfl⟩
  · have hmem : '[' ∈ rstripChar '*' (w ++ '[' :: v) := by
      have hall : '[' ∈ w ++ '[' :: v := by simp
      rw [← happend] at hall
      rcases List.mem_append.mp hall with hmem | hmem
      · exact hmem
      · exact absurd (List.mem_rtakeWhile_imp hmem) (by decide)
    exact ne_of_mem_identifier hid (by decide) (by decide) hmem
  · obtain ⟨c, t, hcons, -⟩ := exists_cons_of_isIdentifier hid
    rw [hcons, List.nil_append, List.cons_append] at happend
    obtain rfl := (List.cons.inj happend).1
    exact ne_of_mem_identifier hid (by decide) (by decide) (hcons ▸ List.mem_cons_self)

/-- What stands before an operator has the same beginning. -/
theorem IsOpening.of_cut (h : IsOpening w x) {op before after : Text} (hop : op ∈ assignOps)
    (hcut : cut op (w ++ x :: rest) = some (before, after)) (hne : before ≠ []) :
    ∃ b, before = w ++ x :: b := by
  have heq := eq_of_cut hcut
  rcases h with ⟨hw, rfl⟩ | ⟨rfl, rfl⟩
  · have hleft : w ++ ['['] <+: before ++ (op ++ after) :=
      ⟨rest, by rw [← List.append_assoc, ← heq, List.append_assoc]; rfl⟩
    rcases List.prefix_or_prefix_of_prefix hleft (List.prefix_append before _) with hpre | ⟨z, hz⟩
    · obtain ⟨b, hb⟩ := hpre
      exact ⟨b, by rw [← hb, List.append_assoc]; rfl⟩
    · cases z with
      | nil => exact ⟨[], by rw [← hz, List.append_nil]⟩
      | cons c z =>
        -- the operator would begin inside the name or at the bracket
        have hc : c ∈ op := by
          obtain ⟨d, t, rfl⟩ : ∃ d t, op = d :: t := List.exists_cons_of_ne_nil
            ((by decide : ∀ op ∈ assignOps, op ≠ []) op hop)
          have hsame : before ++ (d :: t ++ after) = before ++ (c :: z ++ rest) := by
            rw [← List.append_assoc before (c :: z), hz, ← List.append_assoc, ← heq,
              List.append_assoc]
            rfl
          have hcd := (List.cons.inj (List.append_cancel_left hsame)).1
          exact hcd ▸ List.mem_cons_self
        have hplain := (by decide : ∀ op ∈ assignOps, ∀ c ∈ op,
          c.isAlphanum = false ∧ c ≠ '_' ∧ c ≠ '[') op hop c hc
        have hmem : c ∈ w ++ ['['] := hz ▸ List.mem_append_right _ List.mem_cons_self
        rcases List.mem_append.mp hmem with hmem | hmem
        · exact absurd hmem (ne_of_mem_identifier hw hplain.1 hplain.2.1)
        · exact absurd (List.mem_singleton.mp hmem) hplain.2.2
  · obtain ⟨c, b, rfl⟩ := List.exists_cons_of_ne_nil hne
    obtain rfl := (List.cons.inj heq).1
    exact ⟨b, rfl⟩

/-- What begins so is neither a name nor a member. -/
theorem IsOpening.not_name (h : IsOpening w x) (rest : Text) :
    (memberPattern U memberSep).fullMatch (w ++ x :: rest) = none ∧
      ∀ name after, identPrefix U (w ++ x :: rest) = some (name, after) →
        after = x :: rest ∧ x = '[' := by
  have hx : isWordChar U x = false := by
    rcases h with ⟨-, rfl⟩ | ⟨-, rfl⟩ <;>
      exact isWordChar_eq_false U (by decide) (by decide) (by decide)
  have havoids : (memberPattern U memberSep).avoids x = true := by
    rcases h with ⟨-, rfl⟩ | ⟨-, rfl⟩ <;>
      simp [memberPattern, memberSep, Pattern.seqs, Pattern.avoids, identPattern, hx,
        Pattern.one, isIdentStart] <;> decide
  refine ⟨Pattern.fullMatch_eq_none havoids (by simp), fun name after hprefix => ?_⟩
  rcases h with ⟨hw, rfl⟩ | ⟨rfl, rfl⟩
  · rw [identPrefix_append U hw (by simpa using hx)] at hprefix
    exact ⟨(Prod.mk.inj (Option.some.inj hprefix)).2.symm, rfl⟩
  · cases hprefix

theorem classifyAssignOp_opening (h : IsOpening w x) (known udtVars : List Text) (raw : Text)
    {op : Text} (hop : op ∈ assignOps) :
    classifyAssignOp U known udtVars raw (w ++ x :: rest) op = none := by
  rw [classifyAssignOp]
  cases hcut : cut op (w ++ x :: rest) with
  | none => rfl
  | some p =>
    obtain ⟨before, after⟩ := p
    by_cases hne : before = []
    · exact if_pos hne
    · obtain ⟨b, rfl⟩ := h.of_cut hop hcut hne
      have hstrip : strip (w ++ x :: b) = w ++ x :: rstrip b := by
        have hx : ¬ isSpace x := not_isSpace_of_isInk (h.isInk x (by simp))
        have hleft : lstrip (w ++ x :: b) = w ++ x :: b := by
          cases w with
          | nil => exact lstrip_cons hx b
          | cons c w => exact lstrip_cons (not_isSpace_of_isInk (h.isInk c (by simp))) _
        rw [strip, hleft, rstrip_append_cons hx]
      obtain ⟨hmember, hname⟩ := h.not_name U (rstrip b)
      refine (if_neg hne).trans ?_
      dsimp only
      rw [hstrip, hmember]
      dsimp only
      cases hprefix : identPrefix U (w ++ x :: rstrip b) with
      | none => rfl
      | some p =>
        obtain ⟨name, after⟩ := p
        obtain ⟨rfl, -⟩ := hname name after hprefix
        rfl

/-- **A statement with such a beginning has no class.** -/
theorem classifyStatement_opening (h : IsOpening w x) {known : List Text} (udtVars : List Text)
    {raw : Text}
    (hraw : bareStmt raw = w ++ x :: rest) (hblock : ¬ contains (lit "{}") raw)
    (hknown : ∀ t ∈ known, isIdentifier t = true) :
    ∃ rNames, classifyStatement U known udtVars raw = { raw, kind := .expr, rNames } := by
  obtain ⟨v, hword⟩ := h.firstWord_eq rest
  have hkeyword : ∀ t ∈ controlKeywords ++ branchKeywords, t ≠ w ++ x :: v := by
    rintro t ht rfl
    have hletters := (by decide : ∀ t ∈ controlKeywords ++ branchKeywords, ∀ c ∈ t, c.isAlphanum)
      _ ht x (by simp)
    rcases h with ⟨-, rfl⟩ | ⟨-, rfl⟩ <;> exact absurd hletters (by decide)
  have hcontrol : w ++ x :: v ∉ controlKeywords := fun hmem =>
    hkeyword _ (List.mem_append_left _ hmem) rfl
  have hbranch : w ++ x :: v ∉ branchKeywords := fun hmem =>
    hkeyword _ (List.mem_append_right _ hmem) rfl
  have hdecl : classifyDecl U known udtVars raw (w ++ x :: rest) = none := by
    refine if_neg fun hmem => ?_
    have hid := hknown _ hmem
    rw [hword, h.not_isIdentifier v] at hid
    cases hid
  have hassign : assignOps.findSome? (classifyAssignOp U known udtVars raw (w ++ x :: rest))
      = none := by
    rw [List.findSome?_eq_none_iff]
    exact fun op hop => classifyAssignOp_opening U h known udtVars raw hop
  obtain ⟨hmember, hname⟩ := h.not_name U rest
  have hcall : classifyCall U known udtVars raw (w ++ x :: rest) = none := by
    rw [classifyCall]
    split_ifs
    · cases hprefix : identPrefix U (w ++ x :: rest) with
      | none => rfl
      | some p =>
        obtain ⟨name, after⟩ := p
        obtain ⟨rfl, rfl⟩ := hname name after hprefix
        rw [Option.bind_some]
        dsimp only
        rw [lstrip_cons (by decide)]
        rfl
    · rfl
  have hstep : classifyStep U raw (w ++ x :: rest) = none := by
    have hx : isWordChar U x = false := by
      rcases h with ⟨-, rfl⟩ | ⟨-, rfl⟩ <;>
        exact isWordChar_eq_false U (by decide) (by decide) (by decide)
    have havoids : (identPattern U).avoids x = true ∧ blanksPattern.avoids x = true ∧
        stepPattern.avoids x = true := by
      simp only [identPattern, Pattern.avoids, hx]
      rcases h with ⟨-, rfl⟩ | ⟨-, rfl⟩ <;> decide
    rw [classifyStep, Pattern.fullMatch_eq_none (x := x) _ (by simp),
      Pattern.fullMatch_eq_none (x := x) _ (by simp)]
    · rfl
    · simp [Pattern.seqs, Pattern.avoids, havoids]
    · simp [Pattern.seqs, Pattern.avoids, havoids]
  refine ⟨extractIdentifiers U known udtVars (w ++ x :: rest), ?_⟩
  rw [classifyStatement, if_neg hblock, hraw, hword, if_neg hcontrol, if_neg hbranch, hdecl,
    hassign, hcall, hstep]
  rfl

end Classes

/-! ### The patterns of stores -/

theorem head?_run_one (c : Char) (before s : Text) (groups : List (ℕ × Text)) :
    ((Pattern.one c).run ⟨before, c :: s, groups⟩).head? = some ⟨c :: before, s, groups⟩ :=
  Pattern.head?_run_char (decide_eq_true rfl) before s groups

/-- What the pattern behind the target reads begins with an equals sign. -/
theorem head?_lstrip_of_reads_rhs {k : ℕ} {t : Text} (h : Pattern.Reads (rhsPattern k) t)
    (rest : Text) : (lstrip (t ++ rest)).head? = some '=' := by
  have hseq : Pattern.Reads (.seq blanksPattern (.seq (.one '=') (Pattern.seqs [blanksPattern,
      .group k (.plus (.char (· ≠ '\n'))), .atEnd]))) t := h
  cases hseq with
  | seq hblanks hrest =>
    cases hrest with
    | seq hone hrest =>
      cases hone with
      | char hc =>
        obtain rfl := of_decide_eq_true hc
        rw [List.append_assoc, List.append_assoc, List.singleton_append,
          lstrip_append_cons hblanks.forall_of_star_char (by decide)]
        rfl

/-- Where the pattern behind a closing bracket does not go on. -/
theorem run_closing_eq_nil {x : Char} {k : ℕ} {s : Text}
    (h : ∀ u, s = x :: u → (lstrip u).head? ≠ some '=') (before : Text)
    (groups : List (ℕ × Text)) :
    (Pattern.seqs [.one x, rhsPattern k]).run ⟨before, s, groups⟩ = [] := by
  by_contra hne
  obtain ⟨d, hd⟩ := List.exists_mem_of_ne_nil _ hne
  obtain ⟨t, ht, hreads⟩ := Pattern.exists_reads_of_mem_run _ _ d hd
  cases hreads with
  | seq hone hrest =>
    cases hone with
    | char hc =>
      obtain rfl := of_decide_eq_true hc
      cases hrest with
      | seq hrhs hempty =>
        cases hempty
        rw [List.append_nil] at ht
        exact h _ ht (head?_lstrip_of_reads_rhs hrhs _)

/-- The right side is read to the end. -/
theorem head?_run_rhs (k : ℕ) {rhs : Text} (hrhs : IsOperand rhs) (before : Text)
    (groups : List (ℕ × Text)) :
    ∃ d, ((rhsPattern k).run ⟨before, ' ' :: '=' :: ' ' :: rhs, groups⟩).head? = some d ∧
      d.groups = (k, rhs) :: groups := by
  obtain ⟨c, t, rfl, hc⟩ := hrhs.trimmed.head
  have hblank : ∀ (s before : Text) groups, (∀ c ∈ s.head?, isSpace c = false) →
      (blanksPattern.run ⟨before, ' ' :: s, groups⟩).head? = some ⟨' ' :: before, s, groups⟩ :=
    fun s before groups hs => Pattern.head?_run_star_char (s := [' ']) (by decide) hs before groups
  have hall : ∀ d ∈ c :: t, decide (d ≠ '\n') = true := fun d hd => hrhs.ne_newline hd
  have hplus : ((Pattern.plus (.char (· ≠ '\n'))).run ⟨' ' :: '=' :: ' ' :: before, c :: t,
      groups⟩).head? = some ⟨t.reverse ++ (c :: ' ' :: '=' :: ' ' :: before), [], groups⟩ := by
    have hfirst : ((Pattern.char fun d => decide (d ≠ '\n')).run ⟨' ' :: '=' :: ' ' :: before, c :: t,
        groups⟩).head? = some ⟨c :: ' ' :: '=' :: ' ' :: before, t, groups⟩ :=
      Pattern.head?_run_char (hall c List.mem_cons_self) _ _ _
    have hstar : ((Pattern.star (.char fun d => decide (d ≠ '\n'))).run
        ⟨c :: ' ' :: '=' :: ' ' :: before, t ++ [], groups⟩).head?
        = some ⟨t.reverse ++ (c :: ' ' :: '=' :: ' ' :: before), [], groups⟩ :=
      Pattern.head?_run_star_char (fun d hd => hall d (List.mem_cons_of_mem _ hd)) (by simp) _ _
    rw [List.append_nil] at hstar
    exact Pattern.head?_run_seq hfirst hstar
  have hgroup := Pattern.head?_run_group (k := k) hplus
  have hbetween : Cursor.between ⟨' ' :: '=' :: ' ' :: before, c :: t, groups⟩
      ⟨t.reverse ++ (c :: ' ' :: '=' :: ' ' :: before), [], groups⟩ = c :: t := by
    rw [Cursor.between, List.length_nil, Nat.sub_zero, List.take_length]
  rw [hbetween] at hgroup
  have hequals : ∀ d ∈ ('=' :: ' ' :: c :: t).head?, isSpace d = false := by
    intro d hd
    obtain rfl : '=' = d := by simpa using hd
    decide
  have hrun := Pattern.head?_run_seq (hblank ('=' :: ' ' :: c :: t) before groups hequals)
    (Pattern.head?_run_seq (head?_run_one '=' _ _ _)
      (Pattern.head?_run_seq (hblank (c :: t) _ _ (by simpa using hc))
        (Pattern.head?_run_seq hgroup (Pattern.head?_run_seq (p := .atEnd) (q := .empty) rfl rfl))))
  exact ⟨_, hrun, rfl⟩

/-- The text up to the last closing bracket before an equals sign, and the right side. -/
theorem head?_run_closing (j k : ℕ) {x : Char} {s rhs : Text} (hs : IsOperand s)
    (hrhs : IsOperand rhs) (hstore : NoStore x rhs) (hx : x ≠ ' ' ∧ x ≠ '=' ∧ x ≠ '\n')
    (before : Text) (groups : List (ℕ × Text)) :
    ∃ d, ((Pattern.seq (.group j (.plus (.char (· ≠ '\n')))) (Pattern.seqs [.one x,
      rhsPattern k])).run ⟨before, s ++ x :: ' ' :: '=' :: ' ' :: rhs, groups⟩).head? = some d ∧
      d.groups = (k, rhs) :: (j, s) :: groups := by
  have hne : s ≠ [] := by
    obtain ⟨c, t, rfl, -⟩ := hs.trimmed.head
    exact List.cons_ne_nil c t
  have hrest : NoStore x (' ' :: '=' :: ' ' :: rhs) :=
    noStore_cons (fun h => absurd h.symm hx.1) (noStore_cons (fun h => absurd h.symm hx.2.1)
      (noStore_cons (fun h => absurd h.symm hx.1) hstore))
  refine Pattern.head?_run_group_plus (Q := fun d => d.groups = (k, rhs) :: (j, s) :: groups) hne
    (fun c hc => hs.ne_newline hc) (fun t u b g ht hne => ?_) groups (fun b => ?_)
    before
  · refine run_closing_eq_nil (fun v hv => ?_) b g
    obtain ⟨c, t, rfl⟩ := List.exists_cons_of_ne_nil hne
    rw [hv] at ht
    exact hrest t v (List.cons.inj ht).2
  · obtain ⟨d, hd, hgroups⟩ := head?_run_rhs k hrhs (x :: b) ((j, s) :: groups)
    exact ⟨d, Pattern.head?_run_seq (head?_run_one x _ _ _)
      (Pattern.head?_run_seq (q := .empty) hd rfl), hgroups⟩

section Match

variable (U : CharTable)

/-- The parts of a store in an element. -/
theorem matchStart_element {arr idx rhs : Text} (harr : isIdentifier arr = true)
    (hidx : IsOperand idx) (hrhs : IsOperand rhs) (hstore : NoStore ']' rhs) :
    ∃ m, (elementPattern U).matchStart (arr ++ '[' :: (idx ++ ']' :: ' ' :: '=' :: ' ' :: rhs))
      = some m ∧ m.groups = [(3, rhs), (2, idx), (1, arr)] := by
  have hstop : ∀ c ∈ ('[' :: (idx ++ ']' :: ' ' :: '=' :: ' ' :: rhs)).head?,
      isWordChar U c = false := by
    intro c hc
    obtain rfl : '[' = c := by simpa using hc
    exact isWordChar_eq_false U (by decide) (by decide) (by decide)
  have hname := Pattern.head?_run_group (k := 1) (head?_run_identPattern U harr hstop [] [])
  rw [between_append] at hname
  obtain ⟨m, hm, hgroups⟩ := head?_run_closing 2 3 hidx hrhs hstore (by decide)
    ('[' :: (arr.reverse ++ [])) [(1, arr)]
  exact ⟨m, Pattern.head?_run_seq hname (Pattern.head?_run_seq (head?_run_one '[' _ _ _) hm),
    hgroups⟩

/-- The parts of a store through an expression. -/
theorem matchStart_deref {ptr rhs : Text} (hptr : IsOperand ptr) (hrhs : IsOperand rhs)
    (hstore : NoStore ')' rhs) :
    ∃ m, derefExprPattern.matchStart ('*' :: '(' :: (ptr ++ ')' :: ' ' :: '=' :: ' ' :: rhs))
      = some m ∧ m.groups = [(2, rhs), (1, ptr)] := by
  have hopen : ((Pattern.literal (lit "*(")).run (Cursor.start ('*' :: '(' ::
      (ptr ++ ')' :: ' ' :: '=' :: ' ' :: rhs)))).head?
      = some ⟨['(', '*'], ptr ++ ')' :: ' ' :: '=' :: ' ' :: rhs, []⟩ := rfl
  obtain ⟨m, hm, hgroups⟩ := head?_run_closing 1 2 hptr hrhs hstore (by decide) ['(', '*'] []
  exact ⟨m, Pattern.head?_run_seq hopen hm, hgroups⟩

/-- The parts of a store through a name. -/
theorem matchStart_pointer {ptr rhs : Text} (hptr : isIdentifier ptr = true)
    (hrhs : IsOperand rhs) :
    ∃ m, (derefNamePattern U).matchStart ('*' :: (ptr ++ ' ' :: '=' :: ' ' :: rhs)) = some m ∧
      m.groups = [(2, rhs), (1, ptr)] := by
  have hstop : ∀ c ∈ (' ' :: '=' :: ' ' :: rhs).head?, isWordChar U c = false := by
    intro c hc
    obtain rfl : ' ' = c := by simpa using hc
    exact isWordChar_eq_false U (by decide) (by decide) (by decide)
  let sum := Pattern.seqs [blanksPattern, .one '+', blanksPattern, .plus (.char (isWordChar U))]
  have hname := head?_run_identPattern U hptr hstop ['*'] []
  have hnone : sum.run ⟨ptr.reverse ++ ['*'], ' ' :: '=' :: ' ' :: rhs, []⟩ = [] := by
    by_contra hne
    obtain ⟨d, hd⟩ := List.exists_mem_of_ne_nil _ hne
    obtain ⟨t, ht, hreads⟩ := Pattern.exists_reads_of_mem_run _ _ d hd
    have hseq : Pattern.Reads (.seq blanksPattern (.seq (.one '+') (Pattern.seqs [blanksPattern,
        .plus (.char (isWordChar U))]))) t := hreads
    cases hseq with
    | seq hblanks hrest =>
      cases hrest with
      | seq hone hrest =>
        cases hone with
        | char hc =>
          obtain rfl := of_decide_eq_true hc
          have hlstrip := congrArg (fun s => (lstrip s).head?) ht
          simp only [List.append_assoc, List.cons_append] at hlstrip
          rw [lstrip_append_cons hblanks.forall_of_star_char (by decide)] at hlstrip
          have hequals : (lstrip (' ' :: '=' :: ' ' :: rhs)).head? = some '=' := rfl
          rw [hequals] at hlstrip
          cases hlstrip
  have hopt : ((Pattern.opt sum).run ⟨ptr.reverse ++ ['*'], ' ' :: '=' :: ' ' :: rhs, []⟩).head?
      = some ⟨ptr.reverse ++ ['*'], ' ' :: '=' :: ' ' :: rhs, []⟩ := by
    show (sum.run _ ++ [_]).head? = _
    rw [hnone]
    rfl
  have hgroup := Pattern.head?_run_group (k := 1) (Pattern.head?_run_seq hname hopt)
  rw [between_append] at hgroup
  obtain ⟨m, hm, hgroups⟩ := head?_run_rhs 2 hrhs (ptr.reverse ++ ['*']) [(1, ptr)]
  exact ⟨m, Pattern.head?_run_seq (head?_run_one '*' _ _ _) (Pattern.head?_run_seq hgroup
    (Pattern.head?_run_seq (q := .empty) hm rfl)), hgroups⟩

/-- What no match begins with is not matched. -/
theorem matchStart_eq_none {p : Pattern} {s : Text}
    (h : ∀ t u, s = t ++ u → ¬ Pattern.Reads p t) : p.matchStart s = none := by
  by_contra hne
  obtain ⟨m, hm⟩ := Option.ne_none_iff_exists'.mp hne
  obtain ⟨t, ht, hreads⟩ := Pattern.exists_reads_of_mem_run p _ m (List.mem_of_head? hm)
  exact h t m.after ht hreads

/-- A pattern that begins with some text does not match where that is not. -/
theorem not_match_literal {l s : Text} (p : Pattern) (h : ¬ l <+: s) :
    (Pattern.seq (.literal l) p).matchStart s = none := by
  refine matchStart_eq_none fun t u ht hreads => h ?_
  cases hreads with
  | @seq _ _ v w hliteral hrest =>
    rw [hliteral.eq_of_literal] at ht
    exact ⟨w ++ u, by rw [ht, List.append_assoc]⟩

theorem not_match_one {c d : Char} (p : Pattern) (s : Text) (h : d ≠ c) :
    (Pattern.seq (.one c) p).matchStart (d :: s) = none := by
  refine matchStart_eq_none fun t u ht hreads => ?_
  cases hreads with
  | seq hone hrest =>
    cases hone with
    | char hc =>
      obtain rfl := of_decide_eq_true hc
      exact h (List.cons.inj ht).1

/-- A store through a pointer begins with a star. -/
theorem not_match_deref {c : Char} (hc : c ≠ '*') (s : Text) :
    (doubleDerefPattern U).matchStart (c :: s) = none ∧
      derefExprPattern.matchStart (c :: s) = none ∧
      (derefNamePattern U).matchStart (c :: s) = none := by
  refine ⟨not_match_literal _ fun hprefix => ?_, not_match_literal _ fun hprefix => ?_,
    not_match_one _ s hc⟩
  · have hstars : ['*', '*'] <+: c :: s := hprefix
    exact hc (List.cons_prefix_cons.mp hstars).1.symm
  · have hopen : ['*', '('] <+: c :: s := hprefix
    exact hc (List.cons_prefix_cons.mp hopen).1.symm

/-- One through a pointer to a pointer begins with two. -/
theorem not_match_doubleDeref {c : Char} (hc : c ≠ '*') (s : Text) :
    (doubleDerefPattern U).matchStart ('*' :: c :: s) = none := by
  refine not_match_literal _ fun hprefix => ?_
  have hstars : ['*', '*'] <+: '*' :: c :: s := hprefix
  exact hc (List.cons_prefix_cons.mp (List.cons_prefix_cons.mp hstars).2).1.symm

/-- One through an expression begins with a star and a parenthesis. -/
theorem not_match_derefExpr {c : Char} (hc : c ≠ '(') (s : Text) :
    derefExprPattern.matchStart ('*' :: c :: s) = none := by
  refine not_match_literal _ fun hprefix => ?_
  have hopen : ['*', '('] <+: '*' :: c :: s := hprefix
  exact hc (List.cons_prefix_cons.mp (List.cons_prefix_cons.mp hopen).2).1.symm

theorem not_match_deref_identifier {w : Text} (hw : isIdentifier w = true) (rest : Text) :
    (doubleDerefPattern U).matchStart (w ++ rest) = none ∧
      derefExprPattern.matchStart (w ++ rest) = none ∧
      (derefNamePattern U).matchStart (w ++ rest) = none := by
  obtain ⟨c, v, rfl, -⟩ := exists_cons_of_isIdentifier hw
  refine not_match_deref U ?_ (v ++ rest)
  rintro rfl
  exact ne_of_mem_identifier hw (by decide) (by decide) List.mem_cons_self

/-- One through a name is neither. -/
theorem not_match_star_identifier {w : Text} (hw : isIdentifier w = true) (rest : Text) :
    (doubleDerefPattern U).matchStart ('*' :: (w ++ rest)) = none ∧
      derefExprPattern.matchStart ('*' :: (w ++ rest)) = none := by
  obtain ⟨c, v, rfl, -⟩ := exists_cons_of_isIdentifier hw
  have hne : ∀ x : Char, x.isAlphanum = false → x ≠ '_' → c ≠ x := by
    rintro x hx hline rfl
    exact ne_of_mem_identifier hw hx hline List.mem_cons_self
  exact ⟨not_match_doubleDeref U (hne '*' (by decide) (by decide)) _,
    not_match_derefExpr (hne '(' (by decide) (by decide)) _⟩

/-- The text after a name in a store through a name. -/
theorem head?_lstrip_of_reads_sum {s : Text} (h : Pattern.Reads (.opt (.seqs [blanksPattern, .one '+',
    blanksPattern, .plus (.char (isWordChar U))])) s) (rest : Text) :
    s = [] ∨ ∃ b w, lstrip (s ++ rest) = '+' :: (b ++ (w ++ rest)) ∧ (∀ c ∈ b, isSpace c) ∧
      ∃ c v, w = c :: v ∧ isWordChar U c = true := by
  have halt : Pattern.Reads (.alt (.seq blanksPattern (.seq (.one '+') (.seq blanksPattern
    (.seq (.plus (.char (isWordChar U))) .empty)))) .empty) s := h
  cases halt with
  | right hempty =>
    cases hempty
    exact .inl rfl
  | left hsum =>
    right
    cases hsum with
    | seq hblanks hrest =>
      cases hrest with
      | seq hone hrest =>
        cases hone with
        | char hc =>
          obtain rfl := of_decide_eq_true hc
          cases hrest with
          | @seq _ _ b _ hb hrest =>
            cases hrest with
            | @seq _ _ w _ hword hempty =>
              cases hempty
              refine ⟨b, w, ?_, hb.forall_of_star_char, ?_⟩
              · simp only [List.append_assoc, List.cons_append, List.nil_append]
                exact lstrip_append_cons hblanks.forall_of_star_char (by decide) _
              · have hplus : Pattern.Reads (.seq (.char (isWordChar U)) (.star (.char
                  (isWordChar U)))) w := hword
                cases hplus with
                | seq hfirst hmore =>
                  cases hfirst with
                  | char hc => exact ⟨_, _, rfl, hc⟩

/-- A store through a name has nothing but blanks or a sum before the equals sign. -/
theorem not_match_derefName {ptr rest : Text} {c : Char} (hptr : isIdentifier ptr = true)
    (hc : ¬ isSpace c ∧ c ≠ '=') :
    (derefNamePattern U).matchStart ('*' :: (ptr ++ ' ' :: c :: '=' :: rest)) = none := by
  refine matchStart_eq_none fun t u ht hreads => ?_
  have hseq : Pattern.Reads (.seq (.one '*') (.seq (.group 1 (.seq (identPattern U) (.opt (.seqs
    [blanksPattern, .one '+', blanksPattern, .plus (.char (isWordChar U))])))) (.seq (rhsPattern 2)
    .empty))) t := hreads
  cases hseq with
  | seq hone hrest =>
    cases hone with
    | char hstar =>
      cases hrest with
      | seq hgroup hrest =>
        cases hgroup with
        | group hgroup =>
          cases hgroup with
          | @seq _ _ w o hname hsum =>
            cases hrest with
            | @seq _ _ r _ hrhs hempty =>
              cases hempty
              have heq : ptr ++ ' ' :: c :: '=' :: rest = w ++ (o ++ (r ++ u)) := by
                have htail := (List.cons.inj ht).2
                simpa using htail
              have hspace : isWordChar U ' ' = false :=
                isWordChar_eq_false U (by decide) (by decide) (by decide)
              have hequals := head?_lstrip_of_reads_rhs hrhs u
              have hfirst := head?_lstrip_of_reads_sum U hsum (r ++ u)
              -- behind the name there is a blank, a plus or an equals sign
              have hhead : ∀ x v, o ++ (r ++ u) = x :: v → isSpace x ∨ x = '=' ∨ x = '+' := by
                intro x v hv
                by_contra hno
                have hlstrip : lstrip (o ++ (r ++ u)) = x :: v := by
                  rw [hv]
                  exact lstrip_cons (fun h => hno (.inl h)) v
                rcases hfirst with rfl | ⟨b, w', hsum, -, -⟩
                · rw [List.nil_append] at hlstrip
                  rw [hlstrip] at hequals
                  exact hno (.inr (.inl (Option.some.inj hequals)))
                · rw [hlstrip] at hsum
                  exact hno (.inr (.inr (List.cons.inj hsum).1))
              have hafter : o ++ (r ++ u) = ' ' :: c :: '=' :: rest := by
                rcases List.append_eq_append_iff.mp heq with ⟨a, ha, hz⟩ | ⟨a, ha, hz⟩
                · cases a with
                  | nil => exact hz.symm
                  | cons x a =>
                    obtain rfl := (List.cons.inj hz).1
                    refine absurd (ha ▸ List.mem_append_right _ List.mem_cons_self)
                      (hname.notMem (x := ' ') ?_)
                    simp [identPattern, Pattern.avoids, hspace]
                    decide
                · cases a with
                  | nil => exact hz
                  | cons x a =>
                    have hmem : x ∈ ptr := ha ▸ List.mem_append_right _ List.mem_cons_self
                    rcases hhead x _ hz with hx | rfl | rfl
                    · exact absurd hx (not_isSpace_of_isInk (isInk_of_mem_identifier hptr x hmem))
                    · exact absurd hmem (ne_of_mem_identifier hptr (by decide) (by decide))
                    · exact absurd hmem (ne_of_mem_identifier hptr (by decide) (by decide))
              have hlstrip : lstrip (o ++ (r ++ u)) = c :: '=' :: rest := by
                rw [hafter]
                exact @lstrip_append_cons [' '] (by decide) c hc.1 _
              rcases hfirst with rfl | ⟨b, w', hsum, hb, d, v, rfl, hd⟩
              · rw [List.nil_append] at hlstrip
                rw [hlstrip] at hequals
                exact hc.2 (Option.some.inj hequals)
              · rw [hlstrip] at hsum
                have hrest := (List.cons.inj hsum).2
                cases b with
                | nil =>
                  obtain rfl := (List.cons.inj hrest).1
                  rw [isWordChar_eq_false U (by decide) (by decide) (by decide)] at hd
                  cases hd
                | cons x b =>
                  obtain rfl := (List.cons.inj hrest).1
                  exact absurd (hb '=' List.mem_cons_self) (by decide)

/-- The name behind the star begins with a letter. -/
theorem not_match_derefName_open (s : Text) :
    (derefNamePattern U).matchStart ('*' :: '(' :: s) = none := by
  refine matchStart_eq_none fun t u ht hreads => ?_
  have hseq : Pattern.Reads (.seq (.one '*') (.seq (.group 1 (.seq (.seq (.char isIdentStart)
    (.star (.char (isWordChar U)))) (.opt (.seqs [blanksPattern, .one '+', blanksPattern,
    .plus (.char (isWordChar U))])))) (.seqs [rhsPattern 2]))) t := hreads
  cases hseq with
  | seq hone hrest =>
    cases hone with
    | char hstar =>
      cases hrest with
      | seq hgroup hrest =>
        cases hgroup with
        | group hgroup =>
          cases hgroup with
          | seq hname hsum =>
            cases hname with
            | seq hfirst hmore =>
              cases hfirst with
              | char hc =>
                obtain rfl := (List.cons.inj (List.cons.inj ht).2).1
                exact absurd hc (by decide)

/-- So does the name of an array. -/
theorem not_match_element_star (s : Text) : (elementPattern U).matchStart ('*' :: s) = none := by
  refine matchStart_eq_none fun t u ht hreads => ?_
  have hseq : Pattern.Reads (.seq (.group 1 (.seq (.char isIdentStart) (.star (.char
    (isWordChar U))))) (.seqs [.one '[', .group 2 (.plus (.char (· ≠ '\n'))), .one ']',
    rhsPattern 3])) t := hreads
  cases hseq with
  | seq hgroup hrest =>
    cases hgroup with
    | group hname =>
      cases hname with
      | seq hfirst hmore =>
        cases hfirst with
        | char hc =>
          obtain rfl := (List.cons.inj ht).1
          exact absurd hc (by decide)

/-- A store through an expression has a closing parenthesis that an equals sign follows. -/
theorem not_match_derefExpr_of_noStore {s : Text} (h : NoStore ')' s) :
    derefExprPattern.matchStart s = none := by
  refine matchStart_eq_none fun t u ht hreads => ?_
  have hseq : Pattern.Reads (.seq (.literal (lit "*(")) (.seq (.group 1 (.plus (.char (· ≠ '\n'))))
    (.seq (.one ')') (.seq (rhsPattern 2) .empty)))) t := hreads
  cases hseq with
  | @seq _ _ l _ hliteral hrest =>
    cases hrest with
    | @seq _ _ x _ hexpr hrest =>
      cases hrest with
      | seq hone hrest =>
        cases hone with
        | char hc =>
          obtain rfl := of_decide_eq_true hc
          cases hrest with
          | @seq _ _ v _ hrhs hempty =>
            cases hempty
            exact h (l ++ x) (v ++ u) (by rw [ht]; simp) (head?_lstrip_of_reads_rhs hrhs u)

/-- A store in an element has a closing bracket that an equals sign follows. -/
theorem not_match_element_of_noStore {s : Text} (h : NoStore ']' s) :
    (elementPattern U).matchStart s = none := by
  refine matchStart_eq_none fun t u ht hreads => ?_
  have hseq : Pattern.Reads (.seq (.group 1 (identPattern U)) (.seq (.one '[')
    (.seq (.group 2 (.plus (.char (· ≠ '\n')))) (.seq (.one ']') (.seq (rhsPattern 3)
    .empty))))) t := hreads
  cases hseq with
  | @seq _ _ w _ hname hrest =>
    cases hrest with
    | seq hopen hrest =>
      cases hopen with
      | @char _ c hc =>
        cases hrest with
        | @seq _ _ x _ hidx hrest =>
          cases hrest with
          | seq hclose hrest =>
            cases hclose with
            | char hd =>
              obtain rfl := of_decide_eq_true hd
              cases hrest with
              | @seq _ _ v _ hrhs hempty =>
                cases hempty
                exact h (w ++ c :: x) (v ++ u) (by rw [ht]; simp) (head?_lstrip_of_reads_rhs hrhs u)

end Match

/-! ### Stores -/

/-- What is stored in: an element of an array, what a name points to, or what an expression points
to. -/
inductive StoreTarget where
  | element (arr idx : Text)
  | pointer (ptr : Text)
  | deref (ptr : Text)
deriving DecidableEq, Repr

/-- What is stored: a value, with an operator or without, or one more than there was. -/
inductive StoreTail where
  | assign (op rhs : Text)
  | inc
deriving DecidableEq, Repr

/-- The target of a store. -/
def StoreTarget.text : StoreTarget → Text
  | element arr idx => arr ++ '[' :: (idx ++ [']'])
  | pointer ptr => '*' :: ptr
  | deref ptr => '*' :: '(' :: (ptr ++ [')'])

/-- What follows the target. -/
def StoreTail.text : StoreTail → Text
  | assign op rhs => ' ' :: (op ++ ' ' :: rhs)
  | inc => lit "++"

/-- The parts of a target are what they should be. -/
def StoreTarget.WellFormed : StoreTarget → Prop
  | element arr idx => isIdentifier arr = true ∧ IsOperand idx
  | pointer ptr => isIdentifier ptr = true
  | deref ptr => IsOperand ptr

/-- The operators of stores. -/
def storeOps : List Text := lit "=" :: updateOps

/-- The parts of what follows are what they should be. -/
def StoreTail.WellFormed : StoreTail → Prop
  | assign op rhs => op ∈ storeOps ∧ IsOperand rhs
  | inc => True

/-- There is no operator. -/
def StoreTail.IsAssign (tail : StoreTail) : Prop := ∃ rhs, tail = .assign (lit "=") rhs

/-- A store. Only elements are counted up, since `*p++` counts `p` up. -/
structure StoreStmt where
  target : StoreTarget
  tail : StoreTail
  wellFormed_target : target.WellFormed
  wellFormed_tail : tail.WellFormed
  element_of_inc : tail = .inc → ∃ arr idx, target = .element arr idx
  noBlock : ¬ contains (lit "{}") (target.text ++ tail.text ++ [';'])

namespace StoreStmt

variable (d : StoreStmt)

/-- A store without its semicolon. -/
def body : Text := d.target.text ++ d.tail.text

/-- A store. -/
def text : Text := d.body ++ [';']

theorem body_eq : ∃ w x rest, d.body = w ++ x :: rest ∧ IsOpening w x := by
  have htarget := d.wellFormed_target
  rw [body]
  cases h : d.target with
  | element arr idx =>
    rw [h] at htarget
    exact ⟨arr, '[', idx ++ [']'] ++ d.tail.text, by simp [StoreTarget.text],
      .inl ⟨htarget.1, rfl⟩⟩
  | pointer ptr => exact ⟨[], '*', _, rfl, .inr ⟨rfl, rfl⟩⟩
  | deref ptr => exact ⟨[], '*', _, rfl, .inr ⟨rfl, rfl⟩⟩

/-- The last character of a store is no semicolon. -/
theorem exists_last_body : ∃ r c, d.body = r ++ [c] ∧ ¬ isSpace c ∧ c ≠ ';' := by
  have htail := d.wellFormed_tail
  rw [body]
  cases h : d.tail with
  | assign op rhs =>
    rw [h] at htail
    obtain ⟨r, c, hrhs, hc⟩ := htail.2.trimmed.last
    refine ⟨d.target.text ++ ' ' :: (op ++ ' ' :: r), c, ?_, hc, htail.2.last c ?_⟩
    · rw [StoreTail.text, hrhs]
      simp
    · rw [hrhs]
      simp
  | inc => exact ⟨d.target.text ++ ['+'], '+', by simp [StoreTail.text, lit], by decide, by decide⟩

theorem bareStmt_text : bareStmt d.text = d.body := by
  obtain ⟨w, x, rest, hbody, hopening⟩ := d.body_eq
  obtain ⟨r, e, hlast, he, hne⟩ := d.exists_last_body
  obtain ⟨c, t, hcons, hc⟩ : ∃ c t, d.body = c :: t ∧ ¬ isSpace c := by
    rw [hbody]
    cases w with
    | nil => exact ⟨x, rest, rfl, not_isSpace_of_isInk (hopening.isInk x (by simp))⟩
    | cons c w => exact ⟨c, _, rfl, not_isSpace_of_isInk (hopening.isInk c (by simp))⟩
  rw [text, hcons]
  exact bareStmt_of_ends (hcons.symm.trans hlast) hc he hne

/-- **The parser finds nothing in a store**, and keeps its text. -/
theorem parsed (U : CharTable) {known : List Text} (udtVars : List Text)
    (hknown : ∀ t ∈ known, isIdentifier t = true) (memory : List Slot) :
    (parsedStmt U known udtVars memory d.text).kind = .expr ∧
      (parsedStmt U known udtVars memory d.text).raw = d.text := by
  obtain ⟨w, x, rest, hbody, hopening⟩ := d.body_eq
  obtain ⟨rNames, hclass⟩ := classifyStatement_opening U hopening udtVars
    (d.bareStmt_text.trans hbody) d.noBlock hknown
  rw [parsedStmt, hclass]
  exact ⟨rfl, rfl⟩

/-! #### Stores with an operator -/

/-- The operands have no closing bracket that is taken for the one of the target. -/
def Readable : Prop :=
  match d.target, d.tail with
  | .element _ idx, .assign op rhs => NoStore ']' rhs ∧ (op = lit "=" ∨ NoStore ']' idx)
  | .element _ idx, .inc => NoStore ']' idx
  | .pointer _, _ => True
  | .deref ptr, .assign op rhs => NoStore ')' rhs ∧ (op = lit "=" ∨ NoStore ')' ptr)
  | .deref _, .inc => True

variable {d} {op rhs : Text}

/-- What follows the target when there is an operator. -/
theorem exists_tail_of_updateOps (hop : op ∈ updateOps) (rhs : Text) :
    ∃ c, StoreTail.text (.assign op rhs) = ' ' :: c :: '=' :: ' ' :: rhs ∧ ¬ isSpace c ∧
      c ≠ '=' ∧ c ≠ ']' ∧ c ≠ ')' := by
  have hops : ∀ op ∈ updateOps, op = [op.headD ' ', '='] ∧ ¬ isSpace (op.headD ' ') ∧
      op.headD ' ' ≠ '=' ∧ op.headD ' ' ≠ ']' ∧ op.headD ' ' ≠ ')' := by decide
  obtain ⟨heq, hplain⟩ := hops op hop
  refine ⟨op.headD ' ', ?_, hplain⟩
  rw [heq]
  rfl

/-- The bracket of the target is not followed by an equals sign then, and no other one is. -/
theorem noStore_closing (hop : op ∈ updateOps) {x : Char} (hx : x = ']' ∨ x = ')')
    (hrhs : NoStore x rhs) : NoStore x (x :: StoreTail.text (.assign op rhs)) := by
  obtain ⟨c, htext, hspace, hequals, hbracket, hparen⟩ := exists_tail_of_updateOps hop rhs
  have hplain : x ≠ ' ' ∧ x ≠ '=' ∧ x ≠ c := by
    rcases hx with rfl | rfl
    · exact ⟨by decide, by decide, hbracket.symm⟩
    · exact ⟨by decide, by decide, hparen.symm⟩
  rw [htext]
  refine noStore_cons (fun _ => ?_) (noStore_cons (fun h => absurd h.symm hplain.1)
    (noStore_cons (fun h => absurd h.symm hplain.2.2) (noStore_cons (fun h => absurd h.symm hplain.2.1)
      (noStore_cons (fun h => absurd h.symm hplain.1) hrhs))))
  have hlstrip : lstrip (' ' :: c :: '=' :: ' ' :: rhs) = c :: '=' :: ' ' :: rhs :=
    @lstrip_append_cons [' '] (by decide) c hspace _
  rw [hlstrip]
  simpa using hequals

/-- **No pattern is made for a store with an operator.** -/
theorem not_match (U : CharTable) (hread : d.Readable) (htail : ¬ d.tail.IsAssign) :
    (doubleDerefPattern U).matchStart d.body = none ∧ derefExprPattern.matchStart d.body = none ∧
      (derefNamePattern U).matchStart d.body = none ∧
      (elementPattern U).matchStart d.body = none := by
  have hops : ∀ op rhs, d.tail = .assign op rhs → op ∈ updateOps := by
    intro op rhs h
    have hwf := d.wellFormed_tail
    rw [h] at hwf
    rcases List.mem_cons.mp hwf.1 with rfl | hop
    · exact absurd ⟨rhs, h⟩ htail
    · exact hop
  have hplain : ∀ op ∈ updateOps, op ≠ lit "=" := by decide
  have htarget := d.wellFormed_target
  rw [Readable] at hread
  rw [body]
  cases h : d.target with
  | element arr idx =>
    rw [h] at htarget hread
    obtain ⟨harr, hidx⟩ := htarget
    have hclosing : NoStore ']' idx ∧ NoStore ']' (']' :: d.tail.text) := by
      cases ht : d.tail with
      | assign op rhs =>
        rw [ht] at hread
        have hop := hops op rhs ht
        exact ⟨hread.2.resolve_left (hplain op hop), noStore_closing hop (.inl rfl) hread.1⟩
      | inc =>
        rw [ht] at hread
        exact ⟨hread, noStore_cons (fun _ => by decide) (noStore_of_notMem (by decide))⟩
    have htext : StoreTarget.text (.element arr idx) ++ d.tail.text
        = arr ++ '[' :: (idx ++ ']' :: d.tail.text) := by
      simp [StoreTarget.text]
    have hbody : NoStore ']' (arr ++ '[' :: (idx ++ ']' :: d.tail.text)) := by
      refine (noStore_of_notMem (ne_of_mem_identifier harr (by decide) (by decide))).append
        (noStore_cons (fun h => absurd h (by decide)) ?_) (by decide)
      exact hclosing.1.append hclosing.2 (by decide)
    obtain ⟨hdouble, hexpr, hname⟩ := not_match_deref_identifier U harr
      ('[' :: (idx ++ ']' :: d.tail.text))
    rw [htext]
    exact ⟨hdouble, hexpr, hname, not_match_element_of_noStore U hbody⟩
  | pointer ptr =>
    rw [h] at htarget
    have hptr : isIdentifier ptr = true := htarget
    cases ht : d.tail with
    | inc =>
      obtain ⟨arr, idx, helement⟩ := d.element_of_inc ht
      rw [h] at helement
      cases helement
    | assign op rhs =>
      obtain ⟨c, htext, hspace, hequals, -⟩ := exists_tail_of_updateOps (hops op rhs ht) rhs
      rw [htext]
      obtain ⟨hdouble, hexpr⟩ := not_match_star_identifier U hptr (' ' :: c :: '=' :: ' ' :: rhs)
      exact ⟨hdouble, hexpr, not_match_derefName U hptr ⟨hspace, hequals⟩,
        not_match_element_star U _⟩
  | deref ptr =>
    rw [h] at htarget hread
    cases ht : d.tail with
    | inc =>
      obtain ⟨arr, idx, helement⟩ := d.element_of_inc ht
      rw [h] at helement
      cases helement
    | assign op rhs =>
      rw [ht] at hread
      have hop := hops op rhs ht
      have htext : StoreTarget.text (.deref ptr) ++ StoreTail.text (.assign op rhs)
          = '*' :: '(' :: (ptr ++ ')' :: StoreTail.text (.assign op rhs)) := by
        simp [StoreTarget.text]
      have hbody : NoStore ')' ('*' :: '(' :: (ptr ++ ')' :: StoreTail.text (.assign op rhs))) := by
        refine noStore_cons (fun h => absurd h (by decide))
          (noStore_cons (fun h => absurd h (by decide)) ?_)
        exact (hread.2.resolve_left (hplain op hop)).append
          (noStore_closing hop (.inr rfl) hread.1) (by decide)
      rw [htext]
      exact ⟨not_match_doubleDeref U (by decide) _, not_match_derefExpr_of_noStore hbody,
        not_match_derefName_open U _, not_match_element_star U _⟩

end StoreStmt

end Csc512
