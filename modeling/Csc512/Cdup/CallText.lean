import Csc512.Cdup.ParseFile
import Csc512.Cdup.Spelling
import Csc512.Cdup.VmEval

/-!
# Parameters in the headers of functions

The parser takes the parameters of a function from the text between the parentheses of its header,
comma by comma. The first word must be a known type; the name is what the last word is without stars
and brackets.

## Main results

* `FunctionHead.paramsOf_eq` — the parameters of a function whose parameters all have known types
-/

namespace Csc512

/-! ### Headers -/

/-- A parameter that is a scalar or a pointer: words, stars, a name and perhaps brackets. -/
structure ParamDecl where
  spec : List Text
  stars : ℕ
  name : Text
  brackets : Option Text
  spec_ne : spec ≠ []
  isIdentifier_spec : ∀ w ∈ spec, isIdentifier w = true
  isIdentifier_name : isIdentifier name = true
  name_not_mem : name ∉ cKeywords
  isInk_brackets : ∀ s ∈ brackets, ∀ c ∈ s, c.isAlphanum = true ∨ c = '_'

namespace ParamDecl

variable (p : ParamDecl)

/-- The last word of the parameter. -/
def last : Text :=
  List.replicate p.stars '*' ++ (p.name ++ p.brackets.elim [] fun s => '[' :: (s ++ [']']))

/-- The parameter. -/
def text : Text := p.spec.foldr (fun w s => w ++ ' ' :: s) p.last

/-- The first word of its type. -/
def typeWord : Text := p.spec.headD []

/-- The first word of the type is known and no name of a structure, and the name is no name of a
type. -/
def Known (known : List Text) (structs : StructFields) : Prop :=
  p.typeWord ∈ known ∧ structs.get? p.typeWord = none ∧ p.name ∉ known

omit p in
/-- The characters of words are visible, and neither commas nor parentheses. -/
theorem plain_of_wordChar {c : Char} (hc : c.isAlphanum = true ∨ c = '_') :
    isInk c = true ∧ c ∉ lit ",()" := by
  rcases hc with hc | rfl
  · refine ⟨isInk_of_isAlphanum hc, fun hmem => ?_⟩
    have hnot := (by decide : ∀ c ∈ lit ",()", c.isAlphanum = false) c hmem
    rw [hc] at hnot
    cases hnot
  · decide

theorem plain_of_mem_last {c : Char} (hc : c ∈ p.last) : isInk c = true ∧ c ∉ lit ",()" := by
  rw [last] at hc
  rcases List.mem_append.mp hc with hc | hc
  · rw [(List.mem_replicate.mp hc).2]
    decide
  · rcases List.mem_append.mp hc with hc | hc
    · exact plain_of_wordChar (lt_of_isIdentifier p.isIdentifier_name c hc).2
    · have hbrackets := p.isInk_brackets
      cases hb : p.brackets with
      | none =>
        rw [hb] at hc
        cases hc
      | some s =>
        rw [hb] at hc
        rcases List.mem_cons.mp hc with rfl | hc
        · decide
        · rcases List.mem_append.mp hc with hc | hc
          · exact plain_of_wordChar (hbrackets s hb c hc)
          · rw [List.mem_singleton.mp hc]
            decide

theorem last_ne_nil : p.last ≠ [] := by
  obtain ⟨c, s, hname, -⟩ := exists_cons_of_isIdentifier p.isIdentifier_name
  rw [last, hname]
  simp

theorem words_last : words p.last = [p.last] := by
  have hsplit : p.last.splitOnP (fun c => isSpace c) = [p.last] :=
    List.splitOnP_eq_singleton fun d hd => by
      simpa using not_isSpace_of_isInk (p.plain_of_mem_last hd).1
  show (p.last.splitOnP fun c => isSpace c).filter _ = _
  rw [hsplit, List.filter_cons_of_pos]
  · rfl
  · simpa using p.last_ne_nil

theorem words_text : words p.text = p.spec ++ [p.last] := by
  have hspec := p.isIdentifier_spec
  rw [text]
  generalize p.spec = spec at hspec ⊢
  induction spec with
  | nil => exact p.words_last
  | cons w ws ih =>
    rw [List.foldr_cons, words_append (hspec w List.mem_cons_self),
      ih fun v hv => hspec v (List.mem_cons_of_mem _ hv), List.cons_append]

/-- The name is found in the last word. -/
theorem name_of_last :
    strip (stripChars ['*'] (p.last.takeWhile (· ≠ '['))) = p.name := by
  obtain ⟨c, s, hname, -⟩ := exists_cons_of_isIdentifier p.isIdentifier_name
  have hstar : ∀ d ∈ p.name, d ≠ '*' := fun d hd heq =>
    ne_of_mem_identifier p.isIdentifier_name (by decide) (by decide) (heq ▸ hd)
  have hopen : ∀ d ∈ List.replicate p.stars '*' ++ p.name, decide (d ≠ '[') = true := by
    intro d hd
    rcases List.mem_append.mp hd with hd | hd
    · rw [(List.mem_replicate.mp hd).2]
      decide
    · simpa using fun heq => ne_of_mem_identifier p.isIdentifier_name (by decide) (by decide)
        (heq ▸ hd)
  have htake : p.last.takeWhile (· ≠ '[') = List.replicate p.stars '*' ++ p.name := by
    rw [last, ← List.append_assoc, List.takeWhile_append_of_pos hopen]
    cases p.brackets <;> simp
  have hdrop : (List.replicate p.stars '*' ++ p.name).dropWhile (· ∈ ['*']) = p.name := by
    induction p.stars with
    | zero =>
      have hc : c ≠ '*' := hstar c (hname ▸ List.mem_cons_self)
      simp [hname, hc]
    | succ n ih => simpa [List.replicate_succ] using ih
  have hrdrop : p.name.rdropWhile (· ∈ ['*']) = p.name := by
    rw [List.rdropWhile_eq_self_iff]
    intro hne
    simpa using hstar _ (List.getLast_mem hne)
  rw [htake, stripChars, hdrop, hrdrop, (trimmed_identifier p.isIdentifier_name).strip_eq]

/-- **A parameter with a known type** makes a slot with its name. -/
theorem paramSlots_text {known : List Text} {structs : StructFields} (h : p.Known known structs)
    (scopePath blanks : Text) (hblanks : words (blanks ++ p.text) = words p.text) :
    paramSlots scopePath known structs (blanks ++ p.text)
      = [{ name := p.name, scopedName := scopePath ++ '.' :: p.name, type := p.typeWord,
           param := true }] := by
  obtain ⟨w, ws, hspec⟩ := List.exists_cons_of_ne_nil p.spec_ne
  have hw := p.isIdentifier_spec w (hspec ▸ List.mem_cons_self)
  have htype : p.typeWord = w := by rw [typeWord, hspec]; rfl
  obtain ⟨hknown, hstruct, hname⟩ := h
  obtain ⟨c, s, hcons, -⟩ := exists_cons_of_isIdentifier p.isIdentifier_name
  have hlength : ¬ ((w :: (ws ++ [p.last])).length < 2 ∨ rstripChar '*' w ∉ known) := by
    rw [rstripChar_star hw, ← htype]
    simp [hknown]
  have hbad : ¬ (p.name = [] ∨ p.name ∈ cKeywords ∨ p.name ∈ known) := by
    simp [hcons ▸ List.cons_ne_nil c s, p.name_not_mem, hname]
  have hlast : ((w :: (ws ++ [p.last])).getLast?).getD [] = p.last := by
    rw [← List.cons_append, List.getLast?_concat]
    rfl
  rw [paramSlots, hblanks, p.words_text, hspec, List.cons_append]
  simp only [List.headD_cons, hlast, p.name_of_last]
  rw [if_neg hlength, if_neg hbad, rstripChar_star hw, ← htype, hstruct]

/-- No comma and no parenthesis is in a parameter. -/
theorem not_mem_text {c : Char} (hc : c ∈ lit ",()") : c ∉ p.text := by
  have hspec := p.isIdentifier_spec
  rw [text]
  generalize p.spec = spec at hspec ⊢
  induction spec with
  | nil => exact fun hmem => (p.plain_of_mem_last hmem).2 hc
  | cons w ws ih =>
    rw [List.foldr_cons]
    intro hmem
    rcases List.mem_append.mp hmem with hmem | hmem
    · exact (plain_of_wordChar (lt_of_isIdentifier (hspec w List.mem_cons_self) c hmem).2).2 hc
    · rcases List.mem_cons.mp hmem with rfl | hmem
      · exact absurd hc (by decide)
      · exact ih (fun v hv => hspec v (List.mem_cons_of_mem _ hv)) hmem

/-- A parameter begins with a letter, and ends with a visible character. -/
theorem trimmed_text : Trimmed p.text := by
  have hspec := p.isIdentifier_spec
  have hlast : ∃ r d, p.last = r ++ [d] ∧ ¬ isSpace d := by
    obtain ⟨r, d, hconcat⟩ : ∃ r d, p.last = r ++ [d] :=
      ⟨_, _, (List.dropLast_append_getLast p.last_ne_nil).symm⟩
    exact ⟨r, d, hconcat, not_isSpace_of_isInk
      (p.plain_of_mem_last (hconcat ▸ List.mem_append_right r List.mem_cons_self)).1⟩
  obtain ⟨w, ws, hcons⟩ := List.exists_cons_of_ne_nil p.spec_ne
  obtain ⟨c, v, hw, -⟩ := exists_cons_of_isIdentifier (hspec w (hcons ▸ List.mem_cons_self))
  have hc : isInk c = true :=
    isInk_of_mem_identifier (hspec w (hcons ▸ List.mem_cons_self)) c (hw ▸ List.mem_cons_self)
  obtain ⟨r, d, hr, hd⟩ : ∃ r d, p.text = r ++ [d] ∧ ¬ isSpace d := by
    rw [text]
    generalize p.spec = spec
    induction spec with
    | nil => exact hlast
    | cons w ws ih =>
      obtain ⟨r, d, hr, hd⟩ := ih
      exact ⟨w ++ ' ' :: r, d, by rw [List.foldr_cons, hr]; simp, hd⟩
  refine ⟨⟨c, v ++ ' ' :: ws.foldr (fun w s => w ++ ' ' :: s) p.last, ?_, not_isSpace_of_isInk hc⟩,
    r, d, hr, hd⟩
  rw [text, hcons, List.foldr_cons, hw, List.cons_append]

theorem space_mem_text : ' ' ∈ p.text := by
  obtain ⟨w, ws, hcons⟩ := List.exists_cons_of_ne_nil p.spec_ne
  rw [text, hcons, List.foldr_cons]
  exact List.mem_append_right _ List.mem_cons_self

omit p in
/-- Parameters between commas. -/
theorem trimmed_intercalate (p : ParamDecl) (ps : List ParamDecl) :
    Trimmed ([','].intercalate (p.text :: ps.map fun q => ' ' :: q.text)) := by
  obtain ⟨⟨c, t, hhead, hc⟩, -⟩ := p.trimmed_text
  have hlast : ∀ (blanks : Text) (p : ParamDecl), ∃ r d, [','].intercalate
      ((blanks ++ p.text) :: ps.map fun q => ' ' :: q.text) = r ++ [d] ∧ ¬ isSpace d := by
    induction ps with
    | nil =>
      intro blanks p
      obtain ⟨-, r, d, hr, hd⟩ := p.trimmed_text
      refine ⟨blanks ++ r, d, ?_, hd⟩
      rw [List.map_nil, List.intercalate_singleton, hr, List.append_assoc]
    | cons q ps ih =>
      intro blanks p
      obtain ⟨r, d, hr, hd⟩ := ih [' '] q
      refine ⟨blanks ++ p.text ++ [','] ++ r, d, ?_, hd⟩
      rw [List.append_assoc, ← hr]
      simp [List.intercalate]
  obtain ⟨r, d, hr, hd⟩ := hlast [] p
  refine ⟨⟨c, ?_⟩, r, d, hr, hd⟩
  cases ps with
  | nil => exact ⟨t, by rw [List.map_nil, List.intercalate_singleton, hhead], hc⟩
  | cons q ps =>
    refine ⟨t ++ ([','] ++ [','].intercalate ((q :: ps).map fun q => ' ' :: q.text)), ?_, hc⟩
    rw [← List.cons_append, ← hhead]
    simp [List.intercalate]

end ParamDecl

/-- The header of a function: what stands before the parentheses, and the parameters; `isVoid` tells
how an empty list of them is spelled. -/
structure FunctionHead where
  front : Text
  params : List ParamDecl
  isVoid : Bool
  front_parens : '(' ∉ front ∧ ')' ∉ front

namespace FunctionHead

variable (h : FunctionHead)

/-- The text between the parentheses. -/
def inner : Text :=
  match h.params with
  | [] => if h.isVoid then lit "void" else []
  | p :: ps => [','].intercalate (p.text :: ps.map fun q => ' ' :: q.text)

/-- The header. -/
def text : Text := h.front ++ '(' :: (h.inner ++ lit ") {}")

theorem betweenParens_text : betweenParens h.text = some h.inner := by
  have hopen : h.text.idxOf '(' = h.front.length := by
    rw [text, List.idxOf_append_of_notMem h.front_parens.1, List.idxOf_cons_self, Nat.add_zero]
  have hclose : h.text.reverse.idxOf ')' = 3 := by
    rw [text, List.reverse_append, List.reverse_cons, List.reverse_append]
    rfl
  have htake : h.text.take (h.text.length - 1 - 3) = h.front ++ '(' :: h.inner := by
    have hlength : h.text.length - 1 - 3 = (h.front ++ '(' :: h.inner).length := by
      simp only [text, List.length_append, List.length_cons, show (lit ") {}").length = 4 from rfl]
      omega
    rw [hlength, text, ← List.cons_append, ← List.append_assoc, List.take_left]
  have hmem : '(' ∈ h.text ∧ ')' ∈ h.text := by
    simp [text, lit]
  rw [betweenParens, if_pos hmem, hopen, hclose]
  dsimp only
  rw [htake, List.drop_append]
  simp

/-- **The parameters of a header** whose types are known. -/
theorem extractParams_text {known : List Text} {structs : StructFields}
    (hknown : ∀ p ∈ h.params, p.Known known structs) (scopePath : Text) :
    extractParams (some h.text) scopePath known structs = h.params.map fun p =>
      { name := p.name, scopedName := scopePath ++ '.' :: p.name, type := p.typeWord,
        param := true } := by
  have hinner : (some h.text).bind betweenParens = some h.inner := h.betweenParens_text
  rw [extractParams, hinner]
  dsimp only
  cases hparams : h.params with
  | nil =>
    rw [inner, hparams]
    cases h.isVoid <;> rfl
  | cons p ps =>
    rw [hparams] at hknown
    have heq : h.inner = [','].intercalate (p.text :: ps.map fun q => ' ' :: q.text) := by
      rw [inner, hparams]
    have hcomma : ∀ q : ParamDecl, ',' ∉ q.text := fun q => q.not_mem_text (by decide)
    have hsplit : h.inner.splitOn ',' = p.text :: ps.map fun q => ' ' :: q.text := by
      rw [heq]
      refine List.splitOn_intercalate ',' (fun s hs => ?_) (List.cons_ne_nil _ _)
      rcases List.mem_cons.mp hs with rfl | hs
      · exact hcomma p
      · obtain ⟨q, -, rfl⟩ := List.mem_map.mp hs
        simpa using hcomma q
    have htrimmed : Trimmed h.inner := heq ▸ ParamDecl.trimmed_intercalate p ps
    have hvoid : ¬ (h.inner = [] ∨ h.inner = lit "void") := by
      rw [heq]
      rintro (hnil | hvoid)
      · obtain ⟨c, t, hcons, -⟩ := (ParamDecl.trimmed_intercalate p ps).head
        exact absurd (hcons.symm.trans hnil) (List.cons_ne_nil c t)
      · have hspace : ' ' ∈ [','].intercalate (p.text :: ps.map fun q => ' ' :: q.text) := by
          cases ps with
          | nil =>
            rw [List.map_nil, List.intercalate_singleton]
            exact p.space_mem_text
          | cons q ps =>
            rw [List.map_cons, List.intercalate_cons_cons]
            exact List.mem_append_left _ (List.mem_append_left _ p.space_mem_text)
        rw [hvoid] at hspace
        exact absurd hspace (by decide)
    have hslots : ∀ q ∈ ps, paramSlots scopePath known structs (' ' :: q.text)
        = [{ name := q.name, scopedName := scopePath ++ '.' :: q.name, type := q.typeWord,
             param := true }] := fun q hq =>
      q.paramSlots_text (hknown q (List.mem_cons_of_mem _ hq)) scopePath [' ']
        (words_append_cons blank_space [] q.text)
    have hfirst : paramSlots scopePath known structs p.text
        = [{ name := p.name, scopedName := scopePath ++ '.' :: p.name, type := p.typeWord,
             param := true }] :=
      p.paramSlots_text (hknown p List.mem_cons_self) scopePath [] rfl
    rw [htrimmed.strip_eq, if_neg hvoid, hsplit, List.flatMap_cons, hfirst, List.map_cons,
      List.singleton_append]
    refine congrArg (_ :: ·) ?_
    rw [List.flatMap_map, ← List.flatMap_singleton' (ps.map _), List.flatMap_map]
    exact List.flatMap_congr hslots

end FunctionHead

/-! ### Functions -/

/-- What the statements of a segment declare is no parameter. -/
theorem not_param_extractMemory (U : CharTable) (known stmts : List Text) (scopePath : Text)
    (structs : StructFields) :
    ∀ slot ∈ extractMemory U known stmts scopePath structs, slot.param = false := by
  intro slot hslot
  obtain ⟨stmt, -, hslot⟩ := List.mem_flatMap.mp hslot
  rw [declaredSlots] at hslot
  dsimp only at hslot
  split at hslot
  · split at hslot
    · obtain ⟨field, -, rfl⟩ := List.mem_map.mp hslot
      rfl
    · rw [List.mem_singleton.mp hslot]
  · rw [List.mem_singleton.mp hslot]
  · cases hslot

/-- Parameters without fields are taken one by one. -/
theorem paramsFrom_plain (params : List Slot) (seen : List Text) {slots : List Slot}
    (h : ∀ slot ∈ slots, slot.udtParent = none) :
    paramsFrom params seen slots = slots.map fun slot => .plain slot.name slot.type := by
  induction slots with
  | nil => rfl
  | cons slot slots ih =>
    rw [paramsFrom, h slot List.mem_cons_self, List.map_cons,
      ← ih fun slot hslot => h slot (List.mem_cons_of_mem _ hslot)]
    rfl

/-- **The parameters of a function** of a file whose parameters all have known types. -/
theorem FunctionHead.paramsOf_eq (h : FunctionHead) {U : CharTable} {P : SegmentStmts Char}
    {fn : Segment} (hfn : fn ∈ buildSegments U P) (htype : fn.type = .function)
    (hhead : fn.head = some h.text)
    (hknown : ∀ p ∈ h.params, p.Known (userTypes U P) (structFields U P)) :
    paramsOf fn = h.params.map fun p => .plain p.name p.typeWord := by
  obtain ⟨-, segments, hbuild⟩ := exists_of_mem_buildSegments hfn
  have htype' : getSegType (P.header fn.id) = .function := by
    rw [hbuild] at htype
    exact htype
  have hhead' : P.header fn.id = some h.text := by
    rw [hbuild] at hhead
    exact hhead
  have hmemory : fn.memory = extractParams (some h.text) fn.scopePath (userTypes U P)
      (structFields U P) ++ extractMemory U (userTypes U P) (P.stmts.getD fn.id []) fn.scopePath
        (structFields U P) := by
    conv_lhs => rw [hbuild]
    conv_rhs => rw [hbuild]
    show (if getSegType (P.header fn.id) = .function then _ else _) ++ _ = _
    rw [if_pos htype', hhead']
    rfl
  have hfilter : fn.memory.filter Slot.param = extractParams (some h.text) fn.scopePath
      (userTypes U P) (structFields U P) := by
    rw [hmemory, List.filter_append, h.extractParams_text hknown]
    have hnone := List.filter_eq_nil_iff.mpr fun slot hslot => by
      simpa using not_param_extractMemory U (userTypes U P) (P.stmts.getD fn.id []) fn.scopePath
        (structFields U P) slot hslot
    rw [hnone, List.append_nil, List.filter_eq_self]
    intro slot hslot
    obtain ⟨p, -, rfl⟩ := List.mem_map.mp hslot
    rfl
  rw [paramsOf, hfilter, h.extractParams_text hknown, paramsFrom_plain, List.map_map]
  · rfl
  · intro slot hslot
    obtain ⟨p, -, rfl⟩ := List.mem_map.mp hslot
    rfl

end Csc512
