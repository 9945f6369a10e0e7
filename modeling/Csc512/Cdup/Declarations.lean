import Csc512.Cdup.ParseFile
import Csc512.Cdup.Spelling

/-!
# What declarations declare

A declaration is words that specify a type, a name with stars and brackets, and perhaps a value. The
parser takes the first word for the type, and the identifier behind it for the name.

## Main results

* `VarDecl.declares_iff` — when a declaration makes the slots that it should
* `not_declares` — `unsigned long x;` makes a slot `long`
-/

namespace Csc512

/-! ### Declarations -/

/-- The words for storage classes, qualifiers and built-in types. -/
def specifierWords : List Text :=
  ["auto", "register", "static", "extern", "const", "volatile", "restrict", "void", "char", "short",
    "int", "long", "float", "double", "signed", "unsigned", "_Bool"].map String.toList

/-- The known types are names, and no keywords of statements. -/
def TypeNames (known : List Text) : Prop := ∀ w ∈ known, isIdentifier w = true ∧
  w ∉ controlKeywords ∧ w ∉ branchKeywords ∧ w ≠ lit "struct"

/-- The words before the name that is declared. -/
inductive Specifiers (known : List Text) (name : Text) : List Text → Prop
  | words {ws : List Text} (hne : ws ≠ []) (h : ∀ w ∈ ws, w ∈ specifierWords ∨ w ∈ known)
    (hname : name ∉ ws.tail) : Specifiers known name ws
  | tag {t : Text} (ht : isIdentifier t = true) : Specifiers known name [lit "struct", t]

theorem trimmed_none : ∀ e ∈ (none : Option Text), Trimmed e ∧ e.getLast? ≠ some ';' := nofun

/-- A declaration of a variable. -/
structure VarDecl (known : List Text) where
  spec : List Text
  stars : ℕ
  name : Text
  size : Option Text
  value : Option Text
  specifiers : Specifiers known name spec
  isIdentifier_name : isIdentifier name = true
  trimmed_value : ∀ e ∈ value, Trimmed e ∧ e.getLast? ≠ some ';'

section Kinds

variable {U : CharTable} {known udtVars : List Text} {raw s : Text} {stmt : Statement}

theorem kind_classifyAssignOp {op : Text} (h : classifyAssignOp U known udtVars raw s op = some stmt) :
    stmt.kind = .assign := by
  obtain ⟨⟨before, after⟩, -, h⟩ := Option.bind_eq_some_iff.mp h
  dsimp only at h
  split_ifs at h
  split at h
  · obtain rfl := Option.some.inj h
    rfl
  · split at h
    · obtain rfl := Option.some.inj h
      rfl
    · cases h

theorem kind_classifyCall (h : classifyCall U known udtVars raw s = some stmt) :
    stmt.kind = .call := by
  rw [classifyCall] at h
  split_ifs at h
  obtain ⟨⟨name, after⟩, -, h⟩ := Option.bind_eq_some_iff.mp h
  dsimp only at h
  split_ifs at h
  obtain rfl := Option.some.inj h
  rfl

theorem kind_classifyStep (h : classifyStep U raw s = some stmt) : stmt.kind = .assign := by
  obtain ⟨m, -, rfl⟩ := Option.map_eq_some_iff.mp h
  rfl

/-- What comes after the declarations is none. -/
theorem kind_rest_ne_decl {default : Statement} (hdefault : default.kind = .expr) :
    ((none <|> assignOps.findSome? (classifyAssignOp U known udtVars raw s) <|>
      classifyCall U known udtVars raw s <|> classifyStep U raw s).getD default).kind ≠ .decl := by
  cases hassign : assignOps.findSome? (classifyAssignOp U known udtVars raw s) with
  | some stmt =>
    obtain ⟨op, -, hop⟩ := List.exists_of_findSome?_eq_some hassign
    have hkind := kind_classifyAssignOp hop
    simp [hkind]
  | none =>
    cases hcall : classifyCall U known udtVars raw s with
    | some stmt =>
      have hkind := kind_classifyCall hcall
      simp [hkind]
    | none =>
      cases hstep : classifyStep U raw s with
      | some stmt =>
        have hkind := kind_classifyStep hstep
        simp [hkind]
      | none => simp [hdefault]

end Kinds

/-- The declarations are the statements that are understood as such. -/
theorem classifyDecl_of_kind {U : CharTable} {known udtVars : List Text} {raw : Text}
    (h : (classifyStatement U known udtVars raw).kind = .decl) : ¬ contains (lit "{}") raw ∧
      classifyDecl U known udtVars raw (bareStmt raw)
        = some (classifyStatement U known udtVars raw) := by
  rw [classifyStatement] at h ⊢
  split_ifs at h ⊢ with hblock hcontrol hbranch
  · rw [classifyBlock] at h
    split_ifs at h
    split at h <;> cases h
  · refine ⟨hblock, ?_⟩
    cases hdecl : classifyDecl U known udtVars raw (bareStmt raw) with
    | some stmt => rfl
    | none =>
      rw [hdecl] at h
      exact absurd h (kind_rest_ne_decl rfl)

namespace VarDecl

variable {known : List Text} (d : VarDecl known)

/-- What follows the name. -/
def rest : Text :=
  (d.size.elim [] fun s => '[' :: (s ++ [']'])) ++ (d.value.elim [] fun e => ' ' :: '=' :: ' ' :: e)

/-- The stars, the name and what follows it. -/
def tail : Text := List.replicate d.stars '*' ++ (d.name ++ d.rest)

/-- The declaration without its semicolon. -/
def body : Text := d.spec.foldr (fun w s => w ++ ' ' :: s) d.tail

/-- The declaration. -/
def text : Text := d.body ++ [';']

/-- The names of the slots that the declaration should make. -/
def slotNames (structs : StructFields) : List Text :=
  match structs.get? (d.spec.getLastD []) with
  | some fields => fields.map fun field => d.name ++ '.' :: field
  | none => [d.name]

/-- The declaration is understood. -/
def Declares (U : CharTable) (udtVars : List Text) (scopePath : Text) (structs : StructFields) :
    Prop :=
  (classifyStatement U known udtVars d.text).kind = .decl ∧
    (classifyStatement U known udtVars d.text).lName = some d.name ∧
    (declaredSlots U known scopePath structs d.text).map Slot.name = d.slotNames structs

/-! ### The text -/

/-- What follows the name, without blanks around it, begins with a bracket or with `=`. -/
theorem strip_rest : d.rest = [] ∨ ∃ c s, (c = '[' ∨ c = '=') ∧ strip d.rest = c :: s := by
  rw [rest]
  cases hvalue : d.value with
  | some e =>
    obtain ⟨r, x, hlast, hx⟩ := (d.trimmed_value e hvalue).1.last
    right
    cases d.size with
    | some s =>
      have hends : '[' :: (s ++ [']'] ++ ' ' :: '=' :: ' ' :: e)
          = ('[' :: (s ++ [']'] ++ ' ' :: '=' :: ' ' :: r)) ++ [x] := by rw [hlast]; simp
      exact ⟨'[', _, .inl rfl, strip_of_ends hends (by decide) hx⟩
    | none =>
      have htrimmed : Trimmed ('=' :: ' ' :: e) :=
        ⟨⟨'=', _, rfl, by decide⟩, '=' :: ' ' :: r, x, by rw [hlast]; rfl, hx⟩
      exact ⟨'=', _, .inr rfl, htrimmed.strip_cons⟩
  | none =>
    cases d.size with
    | some s =>
      have hends : '[' :: (s ++ [']']) = ('[' :: s) ++ [']'] := rfl
      refine .inr ⟨'[', s ++ [']'], .inl rfl, ?_⟩
      rw [Option.elim, Option.elim, List.append_nil]
      exact strip_of_ends hends (by decide) (by decide)
    | none => exact .inl rfl

theorem head_rest : ∀ c ∈ d.rest.head?, c = '[' ∨ c = ' ' := by
  intro c hc
  rw [rest] at hc
  cases hsize : d.size with
  | some s =>
    rw [hsize] at hc
    exact .inl (Option.some.inj hc).symm
  | none =>
    rw [hsize] at hc
    cases hvalue : d.value with
    | some e =>
      rw [hvalue] at hc
      exact .inr (Option.some.inj hc).symm
    | none =>
      rw [hvalue] at hc
      cases hc

/-- The declaration ends with a visible character that is no semicolon. -/
theorem exists_concat_tail : ∃ r x, d.name ++ d.rest = r ++ [x] ∧ ¬ isSpace x ∧ x ≠ ';' := by
  rw [rest]
  cases hvalue : d.value with
  | some e =>
    obtain ⟨htrimmed, hsemicolon⟩ := d.trimmed_value e hvalue
    obtain ⟨r, x, hlast, hx⟩ := htrimmed.last
    refine ⟨d.name ++ (d.size.elim [] fun s => '[' :: (s ++ [']'])) ++ ' ' :: '=' :: ' ' :: r, x,
      by rw [hlast]; simp, hx, ?_⟩
    rintro rfl
    exact hsemicolon (by rw [hlast, List.getLast?_concat])
  | none =>
    cases d.size with
    | some s =>
      exact ⟨d.name ++ '[' :: s, ']', by simp, by decide, by decide⟩
    | none =>
      obtain ⟨r, x, hlast, hx⟩ := (trimmed_identifier d.isIdentifier_name).last
      refine ⟨r, x, by simpa using hlast, hx, ?_⟩
      rintro rfl
      exact ne_of_mem_identifier d.isIdentifier_name (by decide) (by decide)
        (hlast ▸ List.mem_append_right r List.mem_cons_self)

theorem trimmed_tail : Trimmed (d.name ++ d.rest) := by
  obtain ⟨c, t, hname, -⟩ := exists_cons_of_isIdentifier d.isIdentifier_name
  obtain ⟨r, x, hlast, hx, -⟩ := d.exists_concat_tail
  have hc : isInk c = true := isInk_of_mem_identifier d.isIdentifier_name c (hname ▸ List.mem_cons_self)
  exact ⟨⟨c, t ++ d.rest, by rw [hname, List.cons_append], not_isSpace_of_isInk hc⟩, r, x, hlast, hx⟩

/-- The words are identifiers, and no keywords of statements. -/
theorem spec_words (hknown : TypeNames known) : ∀ w ∈ d.spec, isIdentifier w = true := by
  have hspecifier : ∀ w ∈ specifierWords, isIdentifier w = true := by decide
  have hspec := d.specifiers
  generalize d.spec = spec at hspec ⊢
  cases hspec with
  | words hne h hname => exact fun w hw => (h w hw).elim (hspecifier w) fun hw => (hknown w hw).1
  | tag ht =>
    intro w hw
    rcases List.mem_cons.mp hw with rfl | hw
    · decide
    · rwa [List.mem_singleton.mp hw]

/-- The first word is no keyword of a statement. -/
theorem spec_head (hknown : TypeNames known) : ∃ w ws, d.spec = w :: ws ∧
    w ∉ controlKeywords ∧ w ∉ branchKeywords := by
  have hspecifier : ∀ w ∈ specifierWords, w ∉ controlKeywords ∧ w ∉ branchKeywords := by decide
  have hspec := d.specifiers
  generalize d.spec = spec at hspec ⊢
  cases hspec with
  | words hne h hname =>
    obtain ⟨w, ws, hcons⟩ := List.exists_cons_of_ne_nil hne
    refine ⟨w, ws, hcons, ?_⟩
    rcases h w (hcons ▸ List.mem_cons_self) with hw | hw
    · exact hspecifier w hw
    · exact ⟨(hknown w hw).2.1, (hknown w hw).2.2.1⟩
  | tag ht => exact ⟨_, _, rfl, by decide, by decide⟩

theorem body_of_cons {w : Text} {ws : List Text} (h : d.spec = w :: ws) :
    d.body = w ++ ' ' :: ws.foldr (fun w s => w ++ ' ' :: s) d.tail := by
  rw [body, h, List.foldr_cons]

/-- The ends of what stands behind some of the words. -/
theorem ends_foldr {ws : List Text} (hws : ∀ w ∈ ws, isIdentifier w = true) :
    ∃ c s r x, ws.foldr (fun w s => w ++ ' ' :: s) d.tail = c :: s ∧ c :: s = r ++ [x] ∧
      (¬ isSpace c ∧ c ≠ '(') ∧ ¬ isSpace x ∧ x ≠ ';' := by
  obtain ⟨r, x, hlast, hx, hsemicolon⟩ := d.exists_concat_tail
  induction ws with
  | nil =>
    obtain ⟨c, s, hhead, hc⟩ := d.trimmed_tail.head
    rw [List.foldr_nil, tail]
    cases d.stars with
    | zero =>
      obtain ⟨e, v, hname, -⟩ := exists_cons_of_isIdentifier d.isIdentifier_name
      obtain rfl : e = c := by
        rw [hname, List.cons_append] at hhead
        exact (List.cons.inj hhead).1
      refine ⟨e, s, r, x, hhead, hhead ▸ hlast, ⟨hc, ?_⟩, hx, hsemicolon⟩
      rintro rfl
      exact ne_of_mem_identifier d.isIdentifier_name (by decide) (by decide)
        (hname ▸ List.mem_cons_self)
    | succ k =>
      exact ⟨'*', _, List.replicate (k + 1) '*' ++ r, x, rfl,
        by rw [List.append_assoc, ← hlast]; rfl, by decide, hx, hsemicolon⟩
  | cons w ws ih =>
    obtain ⟨c, s, r', x', hhead, hlast', hc, hx', hsemicolon'⟩ :=
      ih fun v hv => hws v (List.mem_cons_of_mem _ hv)
    have hw := hws w List.mem_cons_self
    obtain ⟨e, v, hcons, -⟩ := exists_cons_of_isIdentifier hw
    have he : isInk e = true := isInk_of_mem_identifier hw e (hcons ▸ List.mem_cons_self)
    rw [List.foldr_cons, hhead, hcons, List.cons_append]
    refine ⟨e, _, e :: v ++ ' ' :: r', x', rfl, by rw [hlast']; simp, ⟨not_isSpace_of_isInk he, ?_⟩,
      hx', hsemicolon'⟩
    rintro rfl
    exact ne_of_mem_identifier hw (by decide) (by decide) (hcons ▸ List.mem_cons_self)

theorem bareStmt_text (hknown : TypeNames known) : bareStmt d.text = d.body := by
  obtain ⟨c, s, r, x, hhead, hlast, ⟨hc, -⟩, hx, hsemicolon⟩ := d.ends_foldr (d.spec_words hknown)
  rw [text, body, hhead]
  exact bareStmt_of_ends hlast hc hx hsemicolon

/-! ### What the parser makes of it -/

section Classify

variable (U : CharTable) (udtVars : List Text) {registered : List Text}

/-- With one word before it, the name is found. -/
theorem classifyDecl_single {w : Text} (hspec : d.spec = [w]) (hw : isIdentifier w = true)
    (hmem : w ∈ registered) : ∃ rNames, classifyDecl U registered udtVars d.text d.body
      = some { raw := d.text, kind := .decl, type := some w, lName := some d.name, rNames } := by
  have hbody := d.body_of_cons hspec
  have hafter : afterType d.body w = d.name ++ d.rest := by
    rw [hbody, List.foldr_nil, tail]
    exact afterType_append w d.stars d.trimmed_tail
      (head?_identifier_append d.isIdentifier_name d.rest)
  have hident : identPrefix U (d.name ++ d.rest) = some (d.name, d.rest) :=
    identPrefix_append U d.isIdentifier_name fun c hc => by
      rcases d.head_rest c hc with rfl | rfl <;>
        exact isWordChar_eq_false U (by decide) (by decide) (by decide)
  have hparen : (strip d.rest).head? ≠ some '(' := by
    rcases d.strip_rest with hnil | ⟨c, s, hc, hstrip⟩
    · rw [hnil]
      decide
    · rw [hstrip]
      rcases hc with rfl | rfl <;> simp
  rw [classifyDecl, hbody, firstWord_append hw, rstripChar_star hw, if_pos hmem, ← hbody, hafter,
    hident]
  exact ⟨_, congrArg some (if_neg hparen)⟩

/-- With more words before it, the second word is taken for the name. -/
theorem classifyDecl_second {w v : Text} {ws : List Text} (hspec : d.spec = w :: v :: ws)
    (hwords : ∀ u ∈ d.spec, isIdentifier u = true) (hmem : w ∈ registered) : ∃ rNames,
    classifyDecl U registered udtVars d.text d.body
      = some { raw := d.text, kind := .decl, type := some w, lName := some v, rNames } := by
  have hbody := d.body_of_cons hspec
  have hw := hwords w (hspec ▸ List.mem_cons_self)
  have hv := hwords v (hspec ▸ List.mem_cons_of_mem _ List.mem_cons_self)
  have htail : ∀ u ∈ v :: ws, isIdentifier u = true := fun u hu =>
    hwords u (hspec ▸ List.mem_cons_of_mem _ hu)
  obtain ⟨c, s, r, x, hhead, hlast, ⟨hc, -⟩, hx, -⟩ := d.ends_foldr htail
  have htrimmed : Trimmed ((v :: ws).foldr (fun w s => w ++ ' ' :: s) d.tail) :=
    ⟨⟨c, s, hhead, hc⟩, r, x, hhead.trans hlast, hx⟩
  have hafter : afterType d.body w = v ++ ' ' :: ws.foldr (fun w s => w ++ ' ' :: s) d.tail := by
    rw [hbody]
    exact afterType_append w 0 htrimmed (head?_identifier_append hv _)
  have hident : identPrefix U (v ++ ' ' :: ws.foldr (fun w s => w ++ ' ' :: s) d.tail)
      = some (v, ' ' :: ws.foldr (fun w s => w ++ ' ' :: s) d.tail) :=
    identPrefix_append U hv fun c hc => by
      obtain rfl : ' ' = c := by simpa using hc
      exact isWordChar_eq_false U (by decide) (by decide) (by decide)
  have hparen : (strip (' ' :: ws.foldr (fun w s => w ++ ' ' :: s) d.tail)).head? ≠ some '(' := by
    obtain ⟨e, t, r', x', hhead', hlast', ⟨he, hopen⟩, hx', -⟩ :=
      d.ends_foldr fun u hu => htail u (List.mem_cons_of_mem _ hu)
    have hstrip : strip (' ' :: e :: t) = e :: t :=
      Trimmed.strip_cons ⟨⟨e, t, rfl, he⟩, r', x', hlast', hx'⟩
    rw [hhead', hstrip]
    exact fun h => hopen (Option.some.inj h)
  rw [classifyDecl, hbody, firstWord_append hw, rstripChar_star hw, if_pos hmem, ← hbody, hafter,
    hident]
  exact ⟨_, congrArg some (if_neg hparen)⟩

theorem mem_of_classifyDecl {w : Text} {ws : List Text} (hspec : d.spec = w :: ws)
    (hw : isIdentifier w = true) {stmt : Statement}
    (h : classifyDecl U registered udtVars d.text d.body = some stmt) : w ∈ registered := by
  rw [classifyDecl, d.body_of_cons hspec, firstWord_append hw, rstripChar_star hw] at h
  by_contra hmem
  rw [if_neg hmem] at h
  cases h

/-- A text that begins as a declaration is classified as one. -/
theorem classifyStatement_eq_of_classifyDecl (hknown : TypeNames known)
    (hblock : ¬ contains (lit "{}") d.text) {stmt : Statement}
    (h : classifyDecl U registered udtVars d.text d.body = some stmt) :
    classifyStatement U registered udtVars d.text = stmt := by
  obtain ⟨w, ws, hspec, hcontrol, hbranch⟩ := d.spec_head hknown
  have hfirst : firstWord d.body = w := by
    rw [d.body_of_cons hspec, firstWord_append (d.spec_words hknown w (hspec ▸ List.mem_cons_self))]
  rw [classifyStatement, if_neg hblock, d.bareStmt_text hknown, hfirst, if_neg hcontrol,
    if_neg hbranch, h]
  rfl

theorem classifyStatement_single (hknown : TypeNames known) {w : Text} (hspec : d.spec = [w])
    (hmem : w ∈ registered) (hblock : ¬ contains (lit "{}") d.text) : ∃ rNames,
    classifyStatement U registered udtVars d.text
      = { raw := d.text, kind := .decl, type := some w, lName := some d.name, rNames } := by
  obtain ⟨rNames, hdecl⟩ := d.classifyDecl_single U udtVars hspec
    (d.spec_words hknown w (hspec ▸ List.mem_cons_self)) hmem
  exact ⟨rNames, d.classifyStatement_eq_of_classifyDecl U udtVars hknown hblock hdecl⟩

/-- **A declaration is read as a declaration of its name** if its first word is a registered type and
its second word the name, and no `{}` is in it; and not otherwise. -/
theorem declaresName_iff (hknown : TypeNames known) :
    ((classifyStatement U registered udtVars d.text).kind = .decl ∧
      (classifyStatement U registered udtVars d.text).lName = some d.name) ↔
      (∃ w ∈ registered, ∃ rest, d.spec ++ [d.name] = w :: d.name :: rest) ∧
        ¬ contains (lit "{}") d.text := by
  obtain ⟨w, ws, hspec, -⟩ := d.spec_head hknown
  have hwords := d.spec_words hknown
  have hw := hwords w (hspec ▸ List.mem_cons_self)
  constructor
  · rintro ⟨hkind, hname⟩
    obtain ⟨hblock, hdecl⟩ := classifyDecl_of_kind hkind
    rw [d.bareStmt_text hknown] at hdecl
    have hmem := d.mem_of_classifyDecl U udtVars hspec hw hdecl
    refine ⟨⟨w, hmem, ?_⟩, hblock⟩
    cases ws with
    | nil => exact ⟨[], by rw [hspec]; rfl⟩
    | cons v ws =>
      obtain ⟨rNames, hsecond⟩ := d.classifyDecl_second U udtVars hspec hwords hmem
      have hlast : some v = some d.name := by
        rw [← hname, Option.some.inj (hdecl.symm.trans hsecond)]
      obtain rfl : v = d.name := Option.some.inj hlast
      exact ⟨ws ++ [d.name], by rw [hspec]; rfl⟩
  · rintro ⟨⟨u, hmem, rest, heq⟩, hblock⟩
    rw [hspec, List.cons_append] at heq
    obtain ⟨rfl, hsecond⟩ := List.cons.inj heq
    obtain ⟨rNames, hdecl⟩ : ∃ rNames, classifyDecl U registered udtVars d.text d.body
        = some { raw := d.text, kind := .decl, type := some w, lName := some d.name, rNames } := by
      cases ws with
      | nil => exact d.classifyDecl_single U udtVars hspec hw hmem
      | cons v ws =>
        obtain rfl : v = d.name := (List.cons.inj hsecond).1
        exact d.classifyDecl_second U udtVars hspec hwords hmem
    rw [d.classifyStatement_eq_of_classifyDecl U udtVars hknown hblock hdecl]
    exact ⟨rfl, rfl⟩

end Classify

/-- **A declaration makes the slots that it should** if one word that is a known type stands before
the name, and no `{}` is in it; and not otherwise. -/
theorem declares_iff (U : CharTable) (udtVars : List Text) (scopePath : Text)
    (structs : StructFields) (hknown : TypeNames known) :
    d.Declares U udtVars scopePath structs ↔
      (∃ w ∈ known, d.spec = [w]) ∧ ¬ contains (lit "{}") d.text := by
  constructor
  · rintro ⟨hkind, hname, -⟩
    obtain ⟨⟨w, hmem, rest, heq⟩, hblock⟩ := (d.declaresName_iff U udtVars hknown).mp ⟨hkind, hname⟩
    refine ⟨⟨w, hmem, ?_⟩, hblock⟩
    have hspecifiers := d.specifiers
    generalize d.spec = spec at heq hspecifiers ⊢
    cases hspecifiers with
    | words hne h htail =>
      obtain ⟨v, vs, rfl⟩ := List.exists_cons_of_ne_nil hne
      obtain ⟨rfl, htail'⟩ := List.cons.inj heq
      cases vs with
      | nil => rfl
      | cons u us => exact absurd ((List.cons.inj htail').1 ▸ List.mem_cons_self) htail
    | tag ht =>
      obtain ⟨rfl, -⟩ := List.cons.inj heq
      exact absurd rfl (hknown _ hmem).2.2.2
  · rintro ⟨⟨w, hmem, hspec⟩, hblock⟩
    obtain ⟨rNames, hstmt⟩ := d.classifyStatement_single U udtVars hknown hspec hmem hblock
    obtain ⟨rNames', hstmt'⟩ := d.classifyStatement_single U [] hknown hspec hmem hblock
    refine ⟨by rw [hstmt], by rw [hstmt], ?_⟩
    have hstar : rstripChar '*' w = w := rstripChar_star (hknown w hmem).1
    rw [declaredSlots, hstmt', slotNames, hspec]
    dsimp only [Option.getD]
    rw [hstar, show [w].getLastD [] = w from rfl]
    cases structs.get? w with
    | some fields => exact List.map_map.trans rfl
    | none => rfl

end VarDecl

/-- `S x;`. -/
def declarationOf (spec : List Text) (h : Specifiers cTypes ['x'] spec) : VarDecl cTypes where
  spec := spec
  stars := 0
  name := ['x']
  size := none
  value := none
  specifiers := h
  isIdentifier_name := by decide
  trimmed_value := trimmed_none

theorem typeNames_cTypes : TypeNames cTypes := by
  have h : ∀ w ∈ cTypes, isIdentifier w = true ∧ w ∉ controlKeywords ∧ w ∉ branchKeywords ∧
      w ≠ lit "struct" := by decide
  exact h

/-- `int x;`. -/
def intDeclaration : VarDecl cTypes :=
  declarationOf [lit "int"] (.words (List.cons_ne_nil _ _) (by decide) (by decide))

/-- `unsigned long x;`. -/
def longDeclaration : VarDecl cTypes :=
  declarationOf [lit "unsigned", lit "long"] (.words (List.cons_ne_nil _ _) (by decide) (by decide))

theorem declares_sample : intDeclaration.Declares .ascii [] (lit "f") Dict.empty :=
  (VarDecl.declares_iff _ _ _ _ _ typeNames_cTypes).mpr
    ⟨⟨lit "int", by decide, rfl⟩, by decide⟩

/-- **`unsigned long x;`** makes a slot `long`. -/
theorem not_declares : ¬ longDeclaration.Declares .ascii [] (lit "f") Dict.empty := by
  rintro ⟨-, hname, -⟩
  have hlong : (classifyStatement .ascii cTypes [] longDeclaration.text).lName
      = some (lit "long") := by decide +kernel
  rw [hlong] at hname
  exact absurd hname (by decide)

end Csc512
