import Csc512.Cdup.Spelling
import Csc512.Cdup.Vm

/-!
# Declarations of arrays

How a declaration of an array is written, and what the parser and the helpers of the interpreter
find in it. The parser takes the first word for the type, and what follows it, without stars, for
the name of the variable; so behind a type of several words it is the second word that is declared.
What stands in brackets is never looked at.

## Main results

* `ArrayDecl.parsedStmt_eq` — the statement that the parser makes of a declaration
* `parseBrace_ints` — the list that is made of integers in braces
-/

namespace Csc512

/-! ### Integers in braces -/

/-- A character of an integer. -/
def isNumeral (c : Char) : Bool := c.isDigit || c = '-'

theorem isNumeral_of_mem_intText {v : ℤ} : ∀ c ∈ intText v, isNumeral c = true := by
  intro c hc
  rcases List.mem_append.mp hc with hc | hc
  · split_ifs at hc with hneg
    · rw [List.mem_singleton.mp hc]
      decide
    · cases hc
  · simp [isNumeral, isDigit_of_mem_natText hc]

theorem isInk_of_isNumeral {c : Char} (h : isNumeral c = true) : isInk c = true := by
  rcases Bool.or_eq_true_iff.mp h with h | h
  · exact isInk_of_isAlphanum (isAlphanum_of_isDigit h)
  · rw [of_decide_eq_true h]
    decide

theorem intText_ne_nil (v : ℤ) : intText v ≠ [] := by
  intro h
  exact Nat.toDigits_ne_nil (List.append_eq_nil_iff.mp h).2

theorem exists_cons_intText (v : ℤ) : ∃ c s, intText v = c :: s ∧ isNumeral c = true := by
  obtain ⟨c, s, hcons⟩ := List.exists_cons_of_ne_nil (intText_ne_nil v)
  exact ⟨c, s, hcons, isNumeral_of_mem_intText c (hcons ▸ List.mem_cons_self)⟩

theorem not_isSpace_of_isNumeral {c : Char} (h : isNumeral c = true) : ¬ isSpace c :=
  not_isSpace_of_isInk (isInk_of_isNumeral h)

/-- The ends of a text that begins and ends with numerals. -/
structure NumeralEnds (s : Text) : Prop where
  head : ∃ c t, s = c :: t ∧ isNumeral c = true
  last : ∃ r d, s = r ++ [d] ∧ isNumeral d = true

theorem NumeralEnds.trimmed {s : Text} (h : NumeralEnds s) : Trimmed s := by
  obtain ⟨⟨c, t, hhead, hc⟩, r, d, hlast, hd⟩ := h
  exact ⟨⟨c, t, hhead, not_isSpace_of_isNumeral hc⟩, r, d, hlast, not_isSpace_of_isNumeral hd⟩

theorem numeralEnds_intText (v : ℤ) : NumeralEnds (intText v) where
  head := exists_cons_intText v
  last := ⟨_, _, (List.dropLast_append_getLast (intText_ne_nil v)).symm,
    isNumeral_of_mem_intText _ (List.getLast_mem _)⟩

theorem NumeralEnds.append {s t : Text} (hs : NumeralEnds s) (ht : NumeralEnds t) (u : Text) :
    NumeralEnds (s ++ u ++ t) := by
  obtain ⟨c, s, rfl, hc⟩ := hs.head
  obtain ⟨r, d, rfl, hd⟩ := ht.last
  exact ⟨⟨c, s ++ u ++ (r ++ [d]), rfl, hc⟩, c :: s ++ u ++ r, d, (List.append_assoc _ _ _).symm, hd⟩

theorem strip_intText (v : ℤ) : strip (intText v) = intText v :=
  (numeralEnds_intText v).trimmed.strip_eq

theorem dropUnderscores_natText (n : ℕ) : dropUnderscores (natText n) = some (natText n) := by
  have hsplit : (natText n).splitOn '_' = [natText n] := by
    refine List.splitOnP_eq_singleton fun c hc => ?_
    have hdigit := isDigit_of_mem_natText hc
    have hne : c ≠ '_' := by
      rintro rfl
      cases hdigit
    simpa using hne
  have hne : (natText n).isEmpty = false := by
    rw [List.isEmpty_eq_false_iff]
    exact Nat.toDigits_ne_nil
  rw [dropUnderscores, hsplit]
  simp [hne]

section Numerals

variable (U : CharTable)

theorem prefixed_natText (n : ℕ) : (match asciiDigits U (natText n) with
    | '0' :: x :: digits =>
      if x = 'x' ∨ x = 'X' then (dropUnderscores (match digits with
        | '_' :: digits => digits
        | digits => digits)).bind (ofDigits 16)
      else if x = 'o' ∨ x = 'O' then (dropUnderscores (match digits with
        | '_' :: digits => digits
        | digits => digits)).bind (ofDigits 8)
      else if x = 'b' ∨ x = 'B' then (dropUnderscores (match digits with
        | '_' :: digits => digits
        | digits => digits)).bind (ofDigits 2)
      else ((dropUnderscores ('0' :: x :: digits)).bind (ofDigits 10)).filter (· = 0)
    | digits => (dropUnderscores digits).bind (ofDigits 10)) = some n := by
  rw [asciiDigits_natText]
  split
  case h_1 x digits htext =>
    rcases Nat.eq_zero_or_pos n with rfl | hpos
    · cases htext
    · exact absurd (congrArg List.head? htext) (head?_natText_ne hpos)
  case h_2 =>
    rw [dropUnderscores_natText]
    exact ofDigits_natText n

theorem prefixedInt_intText (v : ℤ) : prefixedInt U (intText v) = some v := by
  have hbody := prefixed_natText U
  rw [prefixedInt, strip_intText]
  by_cases hneg : v < 0
  · have hsign : splitSign (intText v) = (true, natText v.natAbs) := by
      rw [intText, if_pos hneg]
      rfl
    rw [hsign]
    refine (congrArg (fun o : Option ℕ => (o.bind fun n => some (n : ℤ)).map (- ·))
      (hbody v.natAbs)).trans (congrArg some ?_)
    show -(v.natAbs : ℤ) = v
    omega
  · have hsign : splitSign (intText v) = (false, natText v.natAbs) := by
      rw [intText, if_neg hneg, List.nil_append]
      obtain ⟨c, digits, hcons⟩ := List.exists_cons_of_ne_nil (Nat.toDigits_ne_nil (b := 10)
        (n := v.natAbs))
      have hdigit : c.isDigit := isDigit_of_mem_natText (hcons ▸ List.mem_cons_self)
      have hminus : c ≠ '-' := by
        rintro rfl
        cases hdigit
      have hplus : c ≠ '+' := by
        rintro rfl
        cases hdigit
      rw [natText, hcons]
      simp [splitSign, hminus, hplus]
    rw [hsign]
    refine (congrArg (fun o : Option ℕ => (o.bind fun n => some (n : ℤ)).map id)
      (hbody v.natAbs)).trans (congrArg some ?_)
    show (v.natAbs : ℤ) = v
    omega

/-- Integers, with commas and blanks between them. -/
def listText (vs : List ℤ) : Text := (lit ", ").intercalate (vs.map intText)

theorem splitElements_append {t : Text} (ht : ∀ c ∈ t, c ≠ '\x7b' ∧ c ≠ '\x7d' ∧ c ≠ ',')
    (depth : ℤ) (current rest : Text) :
    splitElements depth current (t ++ rest) = splitElements depth (current ++ t) rest := by
  induction t generalizing current with
  | nil => rw [List.nil_append, List.append_nil]
  | cons c t ih =>
    obtain ⟨hopen, hclose, hcomma⟩ := ht c List.mem_cons_self
    rw [List.cons_append, splitElements, if_neg hopen, if_neg hclose, if_neg (by simp [hcomma]),
      ih fun d hd => ht d (List.mem_cons_of_mem _ hd), List.append_assoc, List.singleton_append]

/-- The pieces between the commas are the integers. -/
theorem splitElements_listText {vs : List ℤ} (hvs : vs ≠ []) {blanks : Text}
    (hblanks : ∀ c ∈ blanks, isSpace c) :
    splitElements 0 blanks (listText vs) = vs.map intText := by
  have hplain : ∀ v, ∀ c ∈ intText v, c ≠ '\x7b' ∧ c ≠ '\x7d' ∧ c ≠ ',' := by
    intro v c hc
    have hnumeral := isNumeral_of_mem_intText c hc
    refine ⟨?_, ?_, ?_⟩ <;> rintro rfl <;> exact absurd hnumeral (by decide)
  have htrim : ∀ v blanks, (∀ c ∈ blanks, isSpace c) → strip (blanks ++ intText v) = intText v := by
    intro v blanks hblanks
    obtain ⟨c, s, hcons, hc⟩ := exists_cons_intText v
    have hink := not_isSpace_of_isInk (isInk_of_isNumeral hc)
    have hself := strip_intText v
    rw [hcons] at hself ⊢
    rw [strip_append_cons hblanks hink]
    rwa [strip, lstrip_cons hink, rstrip_cons hink] at hself
  induction vs generalizing blanks with
  | nil => exact absurd rfl hvs
  | cons v vs ih =>
    cases vs with
    | nil =>
      have htext : listText [v] = intText v ++ [] := rfl
      rw [htext, splitElements_append (hplain v), splitElements, htrim v _ hblanks,
        if_neg (intText_ne_nil v)]
      rfl
    | cons w vs =>
      have htext : listText (v :: w :: vs) = intText v ++ ',' :: ' ' :: listText (w :: vs) := rfl
      rw [htext, splitElements_append (hplain v), splitElements, if_neg (by decide),
        if_neg (by decide), if_pos ⟨rfl, rfl⟩, htrim v _ hblanks, splitElements,
        if_neg (by decide), if_neg (by decide), if_neg (by decide)]
      exact congrArg (intText v :: ·) (ih (List.cons_ne_nil _ _)
        (List.forall_mem_singleton.mpr blank_space))

theorem numeralEnds_listText {vs : List ℤ} (hvs : vs ≠ []) : NumeralEnds (listText vs) := by
  induction vs with
  | nil => exact absurd rfl hvs
  | cons v vs ih =>
    cases vs with
    | nil =>
      have htext : listText [v] = intText v := List.append_nil _
      exact htext ▸ numeralEnds_intText v
    | cons w vs =>
      have htext : listText (v :: w :: vs) = intText v ++ lit ", " ++ listText (w :: vs) :=
        (List.append_assoc _ _ _).symm
      exact htext ▸ (numeralEnds_intText v).append (ih (List.cons_ne_nil _ _)) _

/-- The list of integers in braces. -/
theorem parseBrace_ints {vs : List ℤ} (hvs : vs ≠ []) :
    parseBrace U ('{' :: (listText vs ++ ['}'])) = vs.map .int := by
  have hbraces : strip ('{' :: (listText vs ++ ['}'])) = '{' :: (listText vs ++ ['}']) :=
    strip_of_ends (r := '{' :: listText vs) (d := '}') rfl (by decide) (by decide)
  have hparse : ∀ v, parseElement U (intText v) = .int v := by
    intro v
    rw [parseElement, prefixedInt_intText]
  rw [parseBrace, List.length_cons, parseBraceFrom, hbraces, List.drop_one, List.tail_cons,
    List.dropLast_concat, (numeralEnds_listText hvs).trimmed.strip_eq, splitElements_listText hvs (by simp), List.map_map]
  refine List.map_congr_left fun v _ => ?_
  obtain ⟨e, t, hcons, he⟩ := exists_cons_intText v
  have hopen : (intText v).head? ≠ some '{' := by
    rw [hcons]
    rintro h
    rw [Option.some.inj h] at he
    exact absurd he (by decide)
  exact (if_neg hopen).trans (hparse v)

end Numerals

/-! ### Declarations -/

/-- A declaration of an array: its type, which is a name of a type, more words and stars, its name,
its size, and the integers in braces, if there are any. -/
structure ArrayDecl where
  typeWord : Text
  moreWords : List Text
  stars : ℕ
  name : Text
  size : ℕ
  items : Option (List ℤ)
  isIdentifier_typeWord : isIdentifier typeWord = true
  isIdentifier_moreWords : ∀ w ∈ moreWords, isIdentifier w = true
  isIdentifier_name : isIdentifier name = true
  isType : typeWord ∉ controlKeywords ∧ typeWord ∉ branchKeywords
  size_pos : 1 ≤ size
  items_fit : ∀ vs ∈ items, vs ≠ [] ∧ vs.length ≤ size

namespace ArrayDecl

variable (d : ArrayDecl)

/-- Stars, the name, and the size in brackets. -/
def declarator : Text := List.replicate d.stars '*' ++ (d.name ++ '[' :: (natText d.size ++ [']']))

/-- What follows the first word, up to the initialiser. -/
def front : Text := d.moreWords.foldr (fun w s => w ++ ' ' :: s) d.declarator

/-- The initialiser. -/
def init : Text :=
  match d.items with
  | none => []
  | some vs => ' ' :: '=' :: ' ' :: '{' :: (listText vs ++ ['}'])

/-- The declaration without its semicolon. -/
def body : Text := d.typeWord ++ ' ' :: (d.front ++ d.init)

/-- The declaration. -/
def text : Text := d.body ++ [';']

/-- The name that the parser takes for that of the variable. -/
def declared : Text := d.moreWords.headD d.name

/-! #### Characters -/

/-- The characters of a declaration up to the initialiser. -/
def isFrontChar (c : Char) : Bool := c.isAlphanum || c ∈ ['_', ' ', '*', '[', ']']

theorem isFrontChar_of_mem_identifier {w : Text} (h : isIdentifier w = true) :
    ∀ c ∈ w, isFrontChar c = true := by
  intro c hc
  rcases (lt_of_isIdentifier h c hc).2 with hc | rfl
  · simp [isFrontChar, hc]
  · decide

theorem isFrontChar_of_mem_front : ∀ c ∈ d.front, isFrontChar c = true := by
  have hdeclarator : ∀ c ∈ d.declarator, isFrontChar c = true := by
    intro c hc
    simp only [declarator, List.mem_append, List.mem_cons, List.mem_replicate,
      List.not_mem_nil, or_false] at hc
    rcases hc with ⟨-, rfl⟩ | hc | rfl | hc | rfl
    · decide
    · exact isFrontChar_of_mem_identifier d.isIdentifier_name c hc
    · decide
    · simp [isFrontChar, isAlphanum_of_isDigit (isDigit_of_mem_natText hc)]
    · decide
  have hwords := d.isIdentifier_moreWords
  rw [front]
  revert hwords
  induction d.moreWords with
  | nil => exact fun _ => hdeclarator
  | cons w ws ih =>
    intro hwords c hc
    rcases List.mem_append.mp hc with hc | hc
    · exact isFrontChar_of_mem_identifier (hwords w List.mem_cons_self) c hc
    · rcases List.mem_cons.mp hc with rfl | hc
      · decide
      · exact ih (fun v hv => hwords v (List.mem_cons_of_mem _ hv)) c hc

/-- What is no character of the first part is not in it. -/
theorem notMem_left {x : Char} (hx : isFrontChar x = false) :
    x ∉ d.typeWord ++ ' ' :: d.front := by
  intro hmem
  have hchar : isFrontChar x = true := by
    rcases List.mem_append.mp hmem with hmem | hmem
    · exact isFrontChar_of_mem_identifier d.isIdentifier_typeWord x hmem
    · rcases List.mem_cons.mp hmem with rfl | hmem
      · decide
      · exact d.isFrontChar_of_mem_front x hmem
  rw [hx] at hchar
  cases hchar

theorem body_eq : d.body = d.typeWord ++ ' ' :: d.front ++ d.init := by
  rw [body, List.append_assoc, List.cons_append]

/-- What follows the first word ends with a bracket or a brace. -/
theorem exists_concat_front : ∃ r x, d.front ++ d.init = r ++ [x] ∧ isInk x = true := by
  have hfront : ∃ r, d.front = r ++ [']'] := by
    rw [front]
    induction d.moreWords with
    | nil =>
      refine ⟨List.replicate d.stars '*' ++ (d.name ++ '[' :: natText d.size), ?_⟩
      simp [declarator]
    | cons w ws ih =>
      obtain ⟨r, hr⟩ := ih
      exact ⟨w ++ ' ' :: r, by rw [List.foldr_cons, hr, List.append_assoc, List.cons_append]⟩
  cases hitems : d.items with
  | none =>
    obtain ⟨r, hr⟩ := hfront
    have hinit : d.init = [] := by rw [init, hitems]
    exact ⟨r, ']', by rw [hinit, List.append_nil, hr], by decide⟩
  | some vs =>
    have hinit : d.init = lit " = \x7b" ++ listText vs ++ ['}'] := by
      rw [init, hitems]
      rfl
    exact ⟨d.front ++ (lit " = \x7b" ++ listText vs), '}', by rw [hinit, ← List.append_assoc],
      by decide⟩

theorem exists_ends_body : ∃ c s r x, d.body = c :: s ∧ c :: s = r ++ [x] ∧ isInk c = true ∧
    isInk x = true := by
  obtain ⟨r, x, hlast, hx⟩ := d.exists_concat_front
  obtain ⟨c, v, hword, -⟩ := exists_cons_of_isIdentifier d.isIdentifier_typeWord
  have hc : isInk c = true :=
    isInk_of_mem_identifier d.isIdentifier_typeWord c (hword ▸ List.mem_cons_self)
  have hbody : d.body = c :: (v ++ ' ' :: (d.front ++ d.init)) := by
    rw [body, hword, List.cons_append]
  exact ⟨c, _, c :: v ++ ' ' :: r, x, hbody, by rw [hlast]; simp, hc, hx⟩

/-- The declaration without white space and semicolon around. -/
theorem rstripChar_strip_text : rstripChar ';' (strip d.text) = d.body := by
  obtain ⟨c, s, r, x, hbody, hlast, hc, hx⟩ := d.exists_ends_body
  have hne : x ≠ ';' := by
    rintro rfl
    exact absurd hx (by decide)
  rw [text, hbody]
  exact rstripChar_strip_of_ends hlast (not_isSpace_of_isInk hc) hne

theorem strip_body : strip d.body = d.body := by
  obtain ⟨c, s, r, x, hbody, hlast, hc, hx⟩ := d.exists_ends_body
  rw [hbody]
  exact strip_of_ends hlast (not_isSpace_of_isInk hc) (not_isSpace_of_isInk hx)

theorem bareStmt_text : bareStmt d.text = d.body := by
  rw [bareStmt, rstripChar_strip_text, strip_body]

theorem firstWord_body : firstWord d.body = d.typeWord :=
  firstWord_append d.isIdentifier_typeWord _

/-! #### What the parser finds -/

theorem isIdentifier_declared : isIdentifier d.declared = true := by
  rw [declared]
  cases hwords : d.moreWords with
  | nil => exact d.isIdentifier_name
  | cons w ws => exact d.isIdentifier_moreWords w (hwords ▸ List.mem_cons_self)

/-- Behind the first word there are stars, and then the name that is declared. -/
theorem front_eq : ∃ k c rest, d.front = List.replicate k '*' ++ (d.declared ++ c :: rest) ∧
    (c = ' ' ∨ c = '[') := by
  rw [front, declared]
  cases d.moreWords with
  | nil => exact ⟨d.stars, '[', natText d.size ++ [']'], rfl, .inr rfl⟩
  | cons w ws => exact ⟨0, ' ', _, rfl, .inl rfl⟩

theorem exists_concat_of_append {s t r : Text} {x : Char} (h : s ++ t = r ++ [x]) (ht : t ≠ []) :
    ∃ r', t = r' ++ [x] := by
  obtain ⟨r', y, rfl⟩ := (List.eq_nil_or_concat t).resolve_left ht
  rw [List.concat_eq_append, ← List.append_assoc] at h
  exact ⟨r', by rw [List.concat_eq_append, (List.append_inj' h rfl).2]⟩

/-- The stars and the blanks are dropped. -/
theorem afterType_body : ∃ c rest, afterType d.body d.typeWord = d.declared ++ c :: rest ∧
    (c = ' ' ∨ c = '[') ∧ ∀ x ∈ c :: rest, x ∈ d.body := by
  obtain ⟨k, c, rest, hfront, hc⟩ := d.front_eq
  obtain ⟨r, x, hlast, hx⟩ := d.exists_concat_front
  obtain ⟨e, v, hword, -⟩ := exists_cons_of_isIdentifier d.isIdentifier_declared
  have he : isInk e = true :=
    isInk_of_mem_identifier d.isIdentifier_declared e (hword ▸ List.mem_cons_self)
  have htail : d.front ++ d.init
      = List.replicate k '*' ++ (d.declared ++ c :: (rest ++ d.init)) := by
    rw [hfront]
    simp
  obtain ⟨r', hr'⟩ := exists_concat_of_append (htail.symm.trans hlast) (by simp)
  have htrimmed : Trimmed (d.declared ++ c :: (rest ++ d.init)) :=
    ⟨⟨e, v ++ c :: (rest ++ d.init), by rw [hword, List.cons_append], not_isSpace_of_isInk he⟩,
      r', x, hr', not_isSpace_of_isInk hx⟩
  refine ⟨c, rest ++ d.init, ?_, hc, fun y hy => ?_⟩
  · rw [body, htail]
    exact afterType_append d.typeWord k htrimmed
      (head?_identifier_append d.isIdentifier_declared _)
  · rw [body, htail]
    simp only [List.mem_append, List.mem_cons] at hy ⊢
    tauto

theorem mem_listText {vs : List ℤ} : ∀ c ∈ listText vs, isNumeral c = true ∨ c ∈ lit ", " := by
  induction vs with
  | nil => exact fun c hc => absurd hc (by simp [listText])
  | cons v vs ih =>
    cases vs with
    | nil =>
      intro c hc
      have htext : listText [v] = intText v := List.append_nil _
      exact .inl (isNumeral_of_mem_intText c (htext ▸ hc))
    | cons w vs =>
      intro c hc
      have htext : listText (v :: w :: vs) = intText v ++ (lit ", " ++ listText (w :: vs)) := rfl
      rw [htext] at hc
      rcases List.mem_append.mp hc with hc | hc
      · exact .inl (isNumeral_of_mem_intText c hc)
      · exact (List.mem_append.mp hc).elim .inr (ih c)

theorem notMem_body {x : Char} (hfront : isFrontChar x = false) (hnumeral : isNumeral x = false)
    (hinit : x ∉ lit " ={,}") : x ∉ d.body := by
  rw [body_eq, List.mem_append, not_or]
  refine ⟨d.notMem_left hfront, fun hmem => ?_⟩
  rw [init] at hmem
  split at hmem
  · cases hmem
  · rename_i vs _
    have hlist : x ∉ listText vs := by
      intro hx
      rcases mem_listText x hx with hx | hx
      · rw [hnumeral] at hx
        cases hx
      · exact hinit ((by decide : ∀ c ∈ lit ", ", c ∈ lit " ={,}") x hx)
    simp only [lit, String.reduceToList, List.mem_cons, List.not_mem_nil, or_false,
      not_or] at hinit
    simp only [List.mem_cons, List.mem_append, List.not_mem_nil, or_false] at hmem
    tauto

theorem body_of_some {vs : List ℤ} (h : d.items = some vs) :
    d.body = (d.typeWord ++ ' ' :: d.front ++ [' ']) ++ '=' :: ' ' :: '{' :: (listText vs ++ ['}']) := by
  rw [body_eq, init, h, List.append_assoc (_ ++ _)]
  rfl

theorem body_of_none (h : d.items = none) : d.body = d.typeWord ++ ' ' :: d.front := by
  rw [body_eq, init, h, List.append_nil]

/-- A declaration shows no block. -/
theorem countPlaceholders_body {t : Text} (ht : '{' ∉ t) : countPlaceholders (d.body ++ t) = 0 := by
  have hnone : ∀ {s : Text}, '{' ∉ s → countPlaceholders s = 0 := fun {s} hs =>
    (congrArg countPlaceholders (List.append_nil s)).symm.trans
      (countPlaceholders_append_of_not_mem hs [])
  have hleft := d.notMem_left (x := '{') (by decide)
  cases hitems : d.items with
  | none =>
    rw [d.body_of_none hitems, countPlaceholders_append_of_not_mem hleft, hnone ht]
  | some vs =>
    obtain ⟨hvs, -⟩ := d.items_fit vs hitems
    obtain ⟨c, s, hhead, hc⟩ := (numeralEnds_listText hvs).head
    have hlist : '{' ∉ listText vs ++ (['}'] ++ t) := by
      simp only [List.mem_append, not_or]
      exact ⟨fun hmem => (mem_listText _ hmem).elim (by decide) (by decide), by decide, ht⟩
    have hopen : ¬ OpensPlaceholder '{' (listText vs ++ (['}'] ++ t)) := by
      rintro ⟨-, hclose⟩
      rw [hhead] at hclose
      rw [Option.some.inj hclose] at hc
      exact absurd hc (by decide)
    have hbody : d.body ++ t = (d.typeWord ++ ' ' :: d.front ++ lit " = ")
        ++ '{' :: (listText vs ++ (['}'] ++ t)) := by
      rw [d.body_of_some hitems]
      simp only [List.append_assoc, List.cons_append, List.nil_append]
      rfl
    have hbefore : '{' ∉ d.typeWord ++ ' ' :: d.front ++ lit " = " := by
      rw [List.mem_append, not_or]
      exact ⟨hleft, by decide⟩
    rw [hbody, countPlaceholders_append_of_not_mem hbefore, countPlaceholders_cons hopen,
      hnone hlist]

theorem not_contains_text : ¬ contains (lit "{}") d.text := by
  rw [contains_iff, text, d.countPlaceholders_body (by decide)]
  exact Nat.not_lt_zero 0

variable (U : CharTable) {known : List Text} (udtVars : List Text)

/-- The class of a declaration. -/
theorem classifyStatement_text (hknown : d.typeWord ∈ known) :
    ∃ rNames, classifyStatement U known udtVars d.text
      = { raw := d.text, kind := .decl, type := some d.typeWord, lName := some d.declared,
          rNames } := by
  obtain ⟨c, rest, hafter, hc, hmem⟩ := d.afterType_body
  have hident : identPrefix U (d.declared ++ c :: rest) = some (d.declared, c :: rest) :=
    identPrefix_append U d.isIdentifier_declared (by
      intro e he
      obtain rfl : c = e := by simpa using he
      rcases hc with rfl | rfl <;> exact isWordChar_eq_false U (by decide) (by decide) (by decide))
  have hparen : (strip (c :: rest)).head? ≠ some '(' := by
    intro h
    have hbody := hmem '(' ((strip_sublist _).subset (List.mem_of_head? h))
    exact d.notMem_body (by decide) (by decide) (by decide) hbody
  have hdecl : ∃ rNames, classifyDecl U known udtVars d.text d.body
      = some { raw := d.text, kind := .decl, type := some d.typeWord, lName := some d.declared,
               rNames } := by
    rw [classifyDecl, firstWord_body, rstripChar_star d.isIdentifier_typeWord, if_pos hknown, hafter, hident]
    exact ⟨_, congrArg some (if_neg hparen)⟩
  obtain ⟨rNames, hdecl⟩ := hdecl
  refine ⟨rNames, ?_⟩
  rw [classifyStatement, if_neg d.not_contains_text, bareStmt_text, firstWord_body,
    if_neg d.isType.1, if_neg d.isType.2, hdecl]
  rfl

/-- What the parser makes of a declaration. -/
structure Parsed (stmt : Statement) : Prop where
  kind : stmt.kind = .decl
  raw : stmt.raw = d.text
  type : stmt.type = some d.typeWord
  lName : stmt.lName = some d.declared
  expr : d.items = none → stmt.expr = none

theorem notMem_body_of_none (h : d.items = none) {x : Char} (hx : isFrontChar x = false) :
    x ∉ d.body := by
  rw [d.body_of_none h]
  exact d.notMem_left hx

/-- **The statement that the parser makes of a declaration.** -/
theorem parsed (hknown : d.typeWord ∈ known) (memory : List Slot) :
    d.Parsed (parsedStmt U known udtVars memory d.text) := by
  obtain ⟨rNames, hstmt⟩ := d.classifyStatement_text U udtVars hknown
  rw [parsedStmt, hstmt]
  refine ⟨rfl, rfl, rfl, rfl, fun hitems => ?_⟩
  show (declValue d.text).bind (parseExpr U) = none
  rw [declValue, rstripChar_strip_text]
  exact congrArg (fun o => Option.bind (Option.bind o _) _)
    (cut_eq_none (d.notMem_body_of_none hitems (by decide)))

/-- The initialiser of a declaration. -/
theorem extractRhs_text {vs : List ℤ} (h : d.items = some vs) :
    extractRhs d.text = some ('{' :: (listText vs ++ ['}'])) := by
  have hplain : (Pattern.literal (lit "{}")).replaceAll (fun _ => []) d.body = d.body := by
    refine Pattern.replaceAll_of_not_infix (fun t ht hinfix => ?_) _
    obtain rfl := ht.eq_of_literal
    obtain ⟨q, r, hqr⟩ := hinfix
    have hcount := d.countPlaceholders_body (t := []) List.not_mem_nil
    rw [List.append_nil, ← hqr, List.append_assoc] at hcount
    have hbraces := countPlaceholders_braces q r
    rw [show q ++ (lit "{}" ++ r) = q ++ '{' :: '}' :: r from rfl] at hcount
    omega
  have hleft : '=' ∉ d.typeWord ++ ' ' :: d.front ++ [' '] := by
    rw [List.mem_append, not_or]
    exact ⟨d.notMem_left (by decide), by decide⟩
  have hstrip : strip (' ' :: '{' :: (listText vs ++ ['}'])) = '{' :: (listText vs ++ ['}']) :=
    (congrArg rstrip (lstrip_append_cons (List.forall_mem_singleton.mpr blank_space) (by decide) _)).trans
      (rstrip_append_singleton ('{' :: listText vs) (by decide))
  rw [extractRhs, rstripChar_strip_text, hplain, strip_body, d.body_of_some h,
    cut_singleton hleft]
  exact congrArg some hstrip

end ArrayDecl

end Csc512
