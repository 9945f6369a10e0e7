import Csc512.Cdup.Declarations
import Csc512.Cdup.ScopePaths

/-!
# Structures that a `typedef` names

The name of `typedef struct { … } Name;` stands in the statement behind its block. The parser looks
for it from the start of the segment around the block, and takes the first name that stands behind
any `typedef` with a block.

## Main results

* `blockName_iff` — when a definition names its segment
* `declaredNames_iff` — when its fields are read
* `StructDef.registered_iff` — when a definition is registered under its name with its fields
* `StructDef.not_both_registered` — of two definitions in one segment, one is not registered
-/

namespace Csc512

/-! ### Definitions -/

/-- A further name in a declaration. -/
structure Declarator where
  stars : ℕ
  name : Text
  size : Option Text

/-- The text of a further name. -/
def Declarator.text (d : Declarator) : Text :=
  List.replicate d.stars '*' ++ d.name ++ d.size.elim [] fun s => '[' :: (s ++ [']'])

/-- A line of a structure, that declares one field or more. -/
structure FieldLine (types : List Text) where
  decl : VarDecl types
  others : List Declarator

namespace FieldLine

variable {types : List Text} (line : FieldLine types)

/-- The line. -/
def text : Text :=
  line.decl.body ++ (line.others.flatMap fun d => ',' :: ' ' :: d.text) ++ [';']

/-- The names of its fields. -/
def names : List Text := line.decl.name :: line.others.map Declarator.name

/-- One field is declared, with a known type as the first word and the name as the second word. -/
def Plain (known : List Text) : Prop :=
  line.others = [] ∧ (∃ w ∈ known, ∃ rest, line.decl.spec ++ [line.decl.name]
    = w :: line.decl.name :: rest) ∧ ¬ contains (lit "{}") line.text

end FieldLine

/-- `typedef struct { lines } name;`, over some names of types. -/
structure StructDef where
  types : List Text
  name : Text
  lines : List (FieldLine types)
  typeNames : TypeNames types
  typeNames_name : TypeNames [name]

namespace StructDef

variable (d : StructDef)

/-- The names of the fields. -/
def fields : List Text := d.lines.flatMap FieldLine.names

theorem isIdentifier_name : isIdentifier d.name = true :=
  (d.typeNames_name d.name List.mem_cons_self).1

/-- Segment `i` is the body of the definition. -/
structure At (P : SegmentStmts Char) (i : ℕ) : Prop where
  pos : 0 < i
  lt : i < P.stmts.length
  /-- In the segment around it, the statement of the block is followed by the name. -/
  place : ∃ before gap after, P.stmts.getD (P.parents.getD i 0) []
      = before ++ (lit "typedef struct" ++ gap ++ lit "{}") :: (d.name ++ [';']) :: after ∧
    (before.filter (contains (lit "{}"))).length
      = (P.childrenOf (P.parents.getD i 0)).idxOf i
  body : P.stmts.getD i [] = d.lines.map FieldLine.text

/-- The definition is registered: its segment has its name, the name has its fields, and a
declaration with the name makes a slot for every field. -/
structure Registered (U : CharTable) (P : SegmentStmts Char) (segs : List Segment) (i : ℕ) :
    Prop where
  name : segs[i]?.map Segment.name = some d.name
  fields : (structFields U P).get? d.name = some d.fields
  slots : ∀ v, isIdentifier v = true → ∀ scopePath,
    (declaredSlots U (userTypes U P) scopePath (structFields U P)
      (d.name ++ ' ' :: v ++ [';'])).map Slot.name = d.fields.map fun f => v ++ '.' :: f

end StructDef

section Names

variable (U : CharTable) (P : SegmentStmts Char)

/-- The names that stand alone behind a `typedef` with a block. -/
def typedefNames (stmts : List Text) : List Text :=
  (stmts.zip (stmts.drop 1)).filterMap fun p =>
    if contains (lit "typedef") p.1 ∧ contains (lit "{}") p.1 ∧
        ((identPattern U).fullMatch (bareStmt p.2)).isSome then some (bareStmt p.2)
    else none

/-- The last structure with a name. -/
def lastStructure (name : Text) : Option ℕ :=
  ((List.range P.stmts.length).filter fun j =>
    getSegType (P.header j) = .struct ∧ blockName U P j = name).getLast?

/-- The name that a line declares. -/
def declaredName (known : List Text) (raw : Text) : Option Text :=
  let op := classifyStatement U known [] raw
  if op.kind = .decl then op.lName.filter (· ≠ []) else none

/-- The names that some lines declare. -/
def declaredNames (known : List Text) (stmts : List Text) : List Text :=
  stmts.filterMap (declaredName U known)

/-- The definition names its segment: it is the first of the segment around it. The name
`__typedef__` is read as none. -/
def NamedFirst (d : StructDef) (i : ℕ) : Prop :=
  ((typedefNames U (P.stmts.getD (P.parents.getD i 0) [])).head?.map fun name =>
    if name = lit "__typedef__" then lit "struct_0" else name) = some d.name

instance (d : StructDef) (i : ℕ) : Decidable (NamedFirst U P d i) :=
  inferInstanceAs (Decidable (_ = _))

end Names

/-! ### The name of the segment -/

section Header

theorem contains_append_right {pat t : Text} (h : contains pat t) (s : Text) :
    contains pat (s ++ t) := by
  induction s with
  | nil => exact h
  | cons c s ih =>
    rw [List.cons_append, contains, cut]
    split_ifs
    · rfl
    · rwa [Option.isSome_map]

theorem contains_append_left {pat : Text} {c : Char} {r : Text} (hpat : pat = c :: r) (t : Text) :
    contains pat (pat ++ t) := by
  have hprefix : pat.isPrefixOf (pat ++ t) := List.isPrefixOf_iff_prefix.mpr ⟨t, rfl⟩
  subst hpat
  rw [List.cons_append] at hprefix ⊢
  rw [contains, cut, if_pos hprefix]
  rfl

/-- The statement of a block that a `typedef` names. -/
theorem typedefHead (gap : Text) :
    contains (lit "typedef") (lit "typedef struct" ++ gap ++ lit "{}") ∧
      contains (lit "{}") (lit "typedef struct" ++ gap ++ lit "{}") ∧
      strip (lit "typedef struct" ++ gap ++ lit "{}") = lit "typedef struct" ++ gap ++ lit "{}" := by
  refine ⟨?_, contains_append_right (by decide) _, ?_⟩
  · rw [List.append_assoc]
    exact contains_append_left (r := lit "ypedef") rfl (lit " struct" ++ (gap ++ lit "{}"))
  · have hends : 't' :: (lit "ypedef struct" ++ gap ++ lit "{}")
        = ('t' :: (lit "ypedef struct" ++ gap ++ ['{'])) ++ ['}'] := by
      simp [show lit "{}" = ['{', '}'] from rfl]
    exact strip_of_ends hends (by decide) (by decide)

theorem naming_typedefHead (U : CharTable) (gap : Text) :
    getSegType (some (lit "typedef struct" ++ gap ++ lit "{}")) = .struct ∧
      naming U (some (lit "typedef struct" ++ gap ++ lit "{}")) = .typedefed := by
  obtain ⟨hcontains, -, hstrip⟩ := typedefHead gap
  have hstarts : startsWith (lit "typedef struct" ++ gap ++ lit "{}") (lit "typedef struct") :=
    List.isPrefixOf_iff_prefix.mpr ⟨gap ++ lit "{}", by rw [← List.append_assoc]; exact
      (text_self _).symm⟩
  have hstruct : getSegType (some (lit "typedef struct" ++ gap ++ lit "{}")) = .struct := by
    rw [getSegType]
    dsimp only
    rw [hstrip]
    exact if_pos (.inr hstarts)
  refine ⟨hstruct, ?_⟩
  rw [naming, hstruct]
  dsimp only
  rw [Option.any_some, hstrip, if_pos hcontains]

end Header

section Naming

variable {U : CharTable} {P : SegmentStmts Char} {d : StructDef} {i : ℕ}

theorem fullMatch_identifier {w : Text} (hw : isIdentifier w = true) :
    ((identPattern U).fullMatch w).isSome := by
  have hnil : ∀ c ∈ ([] : Text).head?, isWordChar U c = false := nofun
  have hrun := head?_run_identPattern U hw hnil [] []
  rw [List.append_nil] at hrun
  rw [Pattern.fullMatch_of_head? hrun rfl]
  rfl

theorem bareStmt_name {w : Text} (hw : isIdentifier w = true) : bareStmt (w ++ [';']) = w := by
  obtain ⟨⟨c, s, hhead, hc⟩, r, x, hlast, hx⟩ := trimmed_identifier hw
  rw [hhead]
  refine bareStmt_of_ends (hhead ▸ hlast) hc hx ?_
  rintro rfl
  exact ne_of_mem_identifier hw (by decide) (by decide)
    (hlast ▸ List.mem_append_right r List.mem_cons_self)

/-- The header of the segment is the statement of its block. -/
theorem StructDef.At.header (hi : d.At P i) :
    ∃ gap, P.header i = some (lit "typedef struct" ++ gap ++ lit "{}") := by
  obtain ⟨before, gap, after, hstmts, hplace⟩ := hi.place
  refine ⟨gap, ?_⟩
  have hblock : P.blockStmts (P.parents.getD i 0) = before.filter (contains (lit "{}")) ++
      (lit "typedef struct" ++ gap ++ lit "{}") ::
        ((d.name ++ [';']) :: after).filter (contains (lit "{}")) := by
    rw [SegmentStmts.blockStmts, hstmts]
    simp only [text_self]
    rw [List.filter_append, List.filter_cons_of_pos (typedefHead gap).2.1]
  rw [SegmentStmts.header, if_neg (Nat.ne_of_gt hi.pos)]
  dsimp only
  rw [hblock, ← hplace]
  simp

theorem typedefName_eq (stmts : List Text) :
    typedefName U stmts = (typedefNames U stmts).head? :=
  (List.head?_filterMap ..).symm

/-- Neighbours are among the pairs of neighbours. -/
theorem mem_zip_drop {α : Type*} (before : List α) (a b : α) (after : List α) :
    (a, b) ∈ (before ++ a :: b :: after).zip ((before ++ a :: b :: after).drop 1) := by
  induction before with
  | nil => exact List.mem_cons_self
  | cons s before ih =>
    cases before with
    | nil => exact List.mem_cons_of_mem _ List.mem_cons_self
    | cons t before => exact List.mem_cons_of_mem _ ih

/-- The definition's own name is among the names behind a `typedef`. -/
theorem StructDef.At.mem_typedefNames (hi : d.At P i) :
    d.name ∈ typedefNames U (P.stmts.getD (P.parents.getD i 0) []) := by
  obtain ⟨before, gap, after, hstmts, -⟩ := hi.place
  obtain ⟨htypedef, hblock, -⟩ := typedefHead gap
  have hbare := bareStmt_name d.isIdentifier_name
  refine List.mem_filterMap.mpr ⟨(lit "typedef struct" ++ gap ++ lit "{}", d.name ++ [';']), ?_, ?_⟩
  · rw [hstmts]
    exact mem_zip_drop before _ _ after
  · dsimp only
    rw [hbare, if_pos ⟨htypedef, hblock, fullMatch_identifier d.isIdentifier_name⟩]

/-- The name that the parser gives to the segment. -/
theorem blockName_iff (hi : d.At P i) : blockName U P i = d.name ↔ NamedFirst U P d i := by
  obtain ⟨gap, hheader⟩ := hi.header
  obtain ⟨name, hname⟩ : ∃ name,
      (typedefNames U (P.stmts.getD (P.parents.getD i 0) [])).head? = some name := by
    obtain ⟨name, names, hcons⟩ := List.exists_cons_of_ne_nil
      (List.ne_nil_of_mem (hi.mem_typedefNames (U := U)))
    exact ⟨name, by rw [hcons]; rfl⟩
  rw [blockName, hheader, (naming_typedefHead U gap).2]
  dsimp only
  rw [typedefOf, typedefName_eq, NamedFirst, hname, Option.map_some, Option.some_inj,
    Option.filter_some]
  by_cases h : name = lit "__typedef__"
  · simp [h]
  · simp [h]

end Naming

/-! ### The fields -/

/-- What is chosen from every element is all that the elements hold, when each holds one or more, if
and only if each holds one that is chosen. -/
theorem filterMap_eq_flatMap_iff {α β : Type*} {f : α → Option β} {g : α → List β}
    (hg : ∀ a, g a ≠ []) (l : List α) :
    l.filterMap f = l.flatMap g ↔ ∀ a ∈ l, ∃ b, f a = some b ∧ g a = [b] := by
  have hlen : ∀ l : List α, (l.filterMap f).length ≤ l.length ∧ l.length ≤ (l.flatMap g).length := by
    intro l
    refine ⟨List.length_filterMap_le f l, ?_⟩
    induction l with
    | nil => exact le_rfl
    | cons a l ih =>
      have hpos := List.length_pos_of_ne_nil (hg a)
      rw [List.flatMap_cons, List.length_append, List.length_cons]
      omega
  induction l with
  | nil => simp
  | cons a l ih =>
    obtain ⟨hchosen, hheld⟩ := hlen l
    obtain ⟨b, bs, hcons⟩ := List.exists_cons_of_ne_nil (hg a)
    rw [List.forall_mem_cons, List.flatMap_cons, hcons, List.filterMap_cons]
    refine Iff.trans ?_ (and_congr_right fun _ => ih)
    constructor
    · intro h
      have hlength := congrArg List.length h
      cases ha : f a with
      | none =>
        rw [ha] at hlength
        simp only [List.cons_append, List.length_cons, List.length_append] at hlength
        omega
      | some c =>
        rw [ha] at h hlength
        simp only [List.cons_append, List.length_cons, List.length_append] at hlength
        obtain rfl : bs = [] := List.eq_nil_of_length_eq_zero (by omega)
        obtain ⟨rfl, hrest⟩ := List.cons.inj h
        exact ⟨⟨c, rfl, rfl⟩, hrest⟩
    · rintro ⟨⟨c, ha, hc⟩, h⟩
      obtain ⟨rfl, rfl⟩ := List.cons.inj hc
      rw [ha, h]
      rfl

section Fields

variable {U : CharTable} {P : SegmentStmts Char}

/-- A plain line declares its one field. -/
theorem FieldLine.plain_iff {types known : List Text} (htypes : TypeNames types)
    (line : FieldLine types) : line.Plain known ↔
      ∃ name, declaredName U known line.text = some name ∧ line.names = [name] := by
  have hne : line.decl.name ≠ [] := by
    obtain ⟨c, s, hcons, -⟩ := exists_cons_of_isIdentifier line.decl.isIdentifier_name
    exact hcons ▸ List.cons_ne_nil c s
  have htext : line.others = [] → line.text = line.decl.text := by
    intro h
    rw [FieldLine.text, h, List.flatMap_nil, List.append_nil]
    rfl
  constructor
  · rintro ⟨hothers, hspec, hblock⟩
    rw [htext hothers] at hblock ⊢
    obtain ⟨hkind, hname⟩ := (line.decl.declaresName_iff U [] htypes).mpr ⟨hspec, hblock⟩
    refine ⟨line.decl.name, ?_, by rw [names, hothers, List.map_nil]⟩
    rw [declaredName, if_pos hkind, hname, Option.filter_some]
    simp [hne]
  · rintro ⟨name, hread, hnames⟩
    obtain ⟨hname, hothers⟩ := List.cons.inj hnames
    have hothers := List.map_eq_nil_iff.mp hothers
    rw [declaredName] at hread
    split_ifs at hread with hkind
    obtain ⟨hlname, -⟩ := Option.filter_eq_some_iff.mp hread
    rw [htext hothers] at hkind hlname
    obtain ⟨hspec, hblock⟩ := (line.decl.declaresName_iff U [] htypes).mp ⟨hkind, hname ▸ hlname⟩
    exact ⟨hothers, hspec, by rwa [htext hothers]⟩

/-- **The fields are read** if every line declares one, with one word for the type. -/
theorem declaredNames_iff (d : StructDef) (known : List Text) :
    declaredNames U known (d.lines.map FieldLine.text) = d.fields ↔
      ∀ line ∈ d.lines, line.Plain known := by
  rw [declaredNames, List.filterMap_map, StructDef.fields,
    filterMap_eq_flatMap_iff (g := FieldLine.names) fun line => List.cons_ne_nil _ _]
  exact forall₂_congr fun line _ => (line.plain_iff d.typeNames).symm

/-- The structures of a file, with their names. -/
theorem structSegments_eq : structSegments U P = ((List.range P.stmts.length).filter fun j =>
      getSegType (P.header j) = .struct ∧ blockName U P j ≠ []).map fun j =>
        (blockName U P j, j) := by
  have hnames : (segNames U P).zipIdx
      = (List.range P.stmts.length).map fun j => (blockName U P j, j) := by
    refine List.ext_getElem? fun j => ?_
    rw [List.getElem?_zipIdx, List.getElem?_map, Nat.zero_add]
    by_cases hj : j < P.stmts.length
    · have hname := segNames_getD (U := U) hj
      rw [List.getD_eq_getElem?_getD] at hname
      have hlt : j < (segNames U P).length := by rwa [length_segNames]
      rw [List.getElem?_range hj, List.getElem?_eq_getElem hlt, Option.map_some, Option.map_some,
        ← hname, List.getElem?_eq_getElem hlt, Option.getD_some]
    · rw [List.getElem?_eq_none (by rw [length_segNames]; omega),
        List.getElem?_eq_none (by rw [List.length_range]; omega)]
      rfl
  rw [structSegments, hnames, segTypes, List.zip_map', List.filterMap_map]
  induction List.range P.stmts.length with
  | nil => rfl
  | cons j js ih =>
    rw [List.filterMap_cons, ih, List.filter_cons]
    by_cases h : getSegType (P.header j) = .struct ∧ blockName U P j ≠ []
    · simp [h]
    · simp [h]

/-- The fields that are known for a name are those of the last structure that has it. -/
theorem get?_structFields {name : Text} (hname : name ≠ []) :
    (structFields U P).get? name = (lastStructure U P name).map fun j =>
      declaredNames U (userTypes U P) (P.stmts.getD j []) := by
  have hfilter : ((List.range P.stmts.length).filter fun j =>
      getSegType (P.header j) = .struct ∧ blockName U P j ≠ []).filter
        (fun j => blockName U P j = name)
      = (List.range P.stmts.length).filter fun j =>
        getSegType (P.header j) = .struct ∧ blockName U P j = name := by
    rw [List.filter_filter]
    refine List.filter_congr fun j _ => ?_
    by_cases h : blockName U P j = name
    · simp [h, hname]
    · simp [h]
  rw [structFields, structSegments_eq, List.foldl_map]
  dsimp only
  rw [Dict.get?_foldl_set_last (blockName U P), hfilter, Dict.get?_empty, Option.or_none,
    lastStructure]
  congr 1
  funext j
  rw [List.filterMap_map]
  rfl

theorem mem_userTypes {name : Text} (hname : name ≠ []) {j : ℕ}
    (h : lastStructure U P name = some j) : name ∈ userTypes U P := by
  have hj := List.mem_of_getLast? h
  simp only [List.mem_filter, List.mem_range, decide_eq_true_eq] at hj
  refine List.mem_append_right _ ?_
  rw [structSegments_eq, List.map_map]
  refine List.mem_map.mpr ⟨j, List.mem_filter.mpr ⟨List.mem_range.mpr hj.1, ?_⟩, hj.2.2⟩
  simpa [hj.2] using hname

end Fields

/-! ### The declarations -/

namespace StructDef

variable (d : StructDef)

/-- `Name v;`. -/
def declaration {v : Text} (hv : isIdentifier v = true) : VarDecl [d.name] where
  spec := [d.name]
  stars := 0
  name := v
  size := none
  value := none
  specifiers := .words (List.cons_ne_nil _ _) (fun _ hw => .inr hw) (List.not_mem_nil)
  isIdentifier_name := hv
  trimmed_value := trimmed_none

theorem text_declaration {v : Text} (hv : isIdentifier v = true) :
    (d.declaration hv).text = d.name ++ ' ' :: v ++ [';'] := by
  simp [declaration, VarDecl.text, VarDecl.body, VarDecl.tail, VarDecl.rest]

/-- No block stands in a declaration. -/
theorem not_contains_declaration {v : Text} (hv : isIdentifier v = true) :
    ¬ contains (lit "{}") (d.declaration hv).text := by
  have hbrace : '{' ∉ d.name ++ ' ' :: v ++ [';'] := by
    simp only [List.mem_append, List.mem_cons, List.not_mem_nil, or_false, not_or]
    exact ⟨⟨ne_of_mem_identifier d.isIdentifier_name (by decide) (by decide), by decide,
      ne_of_mem_identifier hv (by decide) (by decide)⟩, by decide⟩
  rw [d.text_declaration hv, contains, cut_eq_none_of_notMem (by decide : '{' ∈ lit "{}") hbrace]
  decide

/-- A declaration with a registered name makes a slot for every field. -/
theorem map_name_declaredSlots (U : CharTable) {known : List Text} {structs : StructFields}
    (hmem : d.name ∈ known) {fields : List Text} (hfields : structs.get? d.name = some fields)
    {v : Text} (hv : isIdentifier v = true) (scopePath : Text) :
    (declaredSlots U known scopePath structs (d.name ++ ' ' :: v ++ [';'])).map Slot.name
      = fields.map fun f => v ++ '.' :: f := by
  obtain ⟨rNames, hstmt⟩ := (d.declaration hv).classifyStatement_single U [] d.typeNames_name rfl
    hmem (d.not_contains_declaration hv)
  rw [← d.text_declaration hv, declaredSlots, hstmt]
  dsimp only [Option.getD]
  rw [rstripChar_star d.isIdentifier_name, hfields]
  exact List.map_map.trans rfl

/-! ### What is registered -/

/-- **A definition of a structure is registered** under its name with its fields, and its
declarations make their slots, if and only if it is the first one that is named in the segment around
it, and the last structure with its name is its own with one field in every line, or has the same
fields. -/
theorem registered_iff {U : CharTable} {opts : Includes} {file : Text} {segs : List Segment}
    (hparse : parseCFile U opts file = some segs) {P : SegmentStmts Char}
    (hP : segmentStmts opts file = some P) {i : ℕ} (hi : d.At P i) :
    d.Registered U P segs i ↔ NamedFirst U P d i ∧
      ((lastStructure U P d.name = some i ∧ ∀ line ∈ d.lines, line.Plain (userTypes U P)) ∨
        ∃ j, j ≠ i ∧ lastStructure U P d.name = some j ∧
          declaredNames U (userTypes U P) (P.stmts.getD j []) = d.fields) := by
  have hne : d.name ≠ [] := by
    obtain ⟨c, s, hcons, -⟩ := exists_cons_of_isIdentifier d.isIdentifier_name
    exact hcons ▸ List.cons_ne_nil c s
  have hsegs : segs[i]?.map Segment.name = some (blockName U P i) := by
    rw [parseCFile, hP] at hparse
    obtain rfl := Option.some.inj hparse
    obtain ⟨hlen, hbuild⟩ := buildSegments_spec U P
    have hlt : i < (buildSegments U P).length := hlen ▸ hi.lt
    obtain ⟨segments, hseg⟩ := hbuild i _ (List.getElem?_eq_getElem hlt)
    rw [List.getElem?_eq_getElem hlt, Option.map_some, hseg, ← segNames_getD hi.lt]
    rfl
  have hown : declaredNames U (userTypes U P) (P.stmts.getD i []) = d.fields ↔
      ∀ line ∈ d.lines, line.Plain (userTypes U P) := by
    rw [hi.body]
    exact declaredNames_iff d _
  constructor
  · rintro ⟨hname, hfields, -⟩
    rw [hsegs, Option.some_inj] at hname
    rw [get?_structFields hne] at hfields
    obtain ⟨j, hlast, hnames⟩ := Option.map_eq_some_iff.mp hfields
    refine ⟨(blockName_iff hi).mp hname, ?_⟩
    by_cases hij : j = i
    · subst hij
      exact .inl ⟨hlast, hown.mp hnames⟩
    · exact .inr ⟨j, hij, hlast, hnames⟩
  · rintro ⟨hname, hlast⟩
    obtain ⟨j, hlast, hnames⟩ : ∃ j, lastStructure U P d.name = some j ∧
        declaredNames U (userTypes U P) (P.stmts.getD j []) = d.fields := by
      rcases hlast with ⟨hlast, hplain⟩ | ⟨j, -, hlast, hnames⟩
      · exact ⟨i, hlast, hown.mpr hplain⟩
      · exact ⟨j, hlast, hnames⟩
    have hfields : (structFields U P).get? d.name = some d.fields := by
      rw [get?_structFields hne, hlast, Option.map_some, hnames]
    refine ⟨by rw [hsegs, (blockName_iff hi).mpr hname], hfields, fun v hv scopePath => ?_⟩
    exact d.map_name_declaredSlots U (mem_userTypes hne hlast) hfields hv scopePath

/-- Of two definitions in the same segment, at most one is registered. -/
theorem not_both_registered {U : CharTable} {opts : Includes} {file : Text} {segs : List Segment}
    (hparse : parseCFile U opts file = some segs) {P : SegmentStmts Char}
    (hP : segmentStmts opts file = some P) {d' : StructDef} {i j : ℕ} (hi : d.At P i)
    (hj : d'.At P j) (hparent : P.parents.getD i 0 = P.parents.getD j 0) (hne : d.name ≠ d'.name) :
    ¬ (d.Registered U P segs i ∧ d'.Registered U P segs j) := by
  rintro ⟨hreg, hreg'⟩
  have hfirst := ((d.registered_iff hparse hP hi).mp hreg).1
  have hfirst' := ((d'.registered_iff hparse hP hj).mp hreg').1
  rw [NamedFirst, hparent] at hfirst
  exact hne (Option.some.inj (hfirst.symm.trans hfirst'))

end StructDef

/-- `typedef struct { int x; } name;`. -/
def structWithX (name : Text) (hname : TypeNames [name]) : StructDef where
  types := cTypes
  name := name
  lines := [⟨intDeclaration, []⟩]
  typeNames := typeNames_cTypes
  typeNames_name := hname

theorem typeNames_singleton {w : Text} (h : isIdentifier w = true ∧ w ∉ controlKeywords ∧
    w ∉ branchKeywords ∧ w ≠ lit "struct") : TypeNames [w] := by
  intro v hv
  rwa [List.mem_singleton.mp hv]

/-- The structure `A`. -/
def structA : StructDef := structWithX ['A'] (typeNames_singleton (by decide))

/-- The structure `B`. -/
def structB : StructDef := structWithX ['B'] (typeNames_singleton (by decide))

/-- A file with the structure `A`. -/
def oneStructFile : Text := lit "typedef struct { int x; } A;"

/-- A file with the structures `A` and `B`. -/
def twoStructsFile : Text := lit "typedef struct { int x; } A;\ntypedef struct { int x; } B;"

theorem registered_structA : ∃ segs P, parseCFile .ascii {} oneStructFile = some segs ∧
    segmentStmts {} oneStructFile = some P ∧ structA.Registered .ascii P segs 1 := by
  have hsome : (segmentStmts {} oneStructFile).isSome := by decide +kernel
  have hparts : ∀ P ∈ segmentStmts {} oneStructFile, P.parents = [0, 0] ∧
      P.stmts = [[lit "typedef struct {}", lit "A;"], [lit "int x;"]] ∧
      NamedFirst .ascii P structA 1 ∧ lastStructure .ascii P structA.name = some 1 ∧
      lit "int" ∈ userTypes .ascii P := by decide +kernel
  obtain ⟨P, hP⟩ := Option.isSome_iff_exists.mp hsome
  obtain ⟨hparents, hstmts, hfirst, hlast, hint⟩ := hparts P hP
  have hparse : parseCFile .ascii {} oneStructFile = some (buildSegments .ascii P) := by
    rw [parseCFile, hP]
    rfl
  have hi : structA.At P 1 := by
    refine ⟨Nat.one_pos, by rw [hstmts]; decide, ⟨[], [' '], [], ?_⟩, ?_⟩
    · rw [SegmentStmts.childrenOf, hparents, hstmts]
      decide
    · rw [hstmts]
      decide
  refine ⟨_, P, hparse, hP, (structA.registered_iff hparse hP hi).mpr
    ⟨hfirst, .inl ⟨hlast, List.forall_mem_singleton.mpr ?_⟩⟩⟩
  exact ⟨rfl, ⟨lit "int", hint, [], rfl⟩, by decide⟩

/-- **The name of the second structure is that of the first one.** -/
theorem not_registered : ¬ ∀ (opts : Includes) (file : Text) (segs : List Segment)
    (P : SegmentStmts Char), parseCFile .ascii opts file = some segs →
    segmentStmts opts file = some P → ∀ ds : List (ℕ × StructDef),
    (∀ e ∈ ds, e.2.At P e.1) → (ds.map fun e => e.2.name).Nodup →
    ∀ e ∈ ds, e.2.Registered .ascii P segs e.1 := by
  intro h
  have hsome : (segmentStmts {} twoStructsFile).isSome := by decide +kernel
  have hparts : ∀ P ∈ segmentStmts {} twoStructsFile, P.parents = [0, 0, 0] ∧
      P.stmts = [[lit "typedef struct {}", lit "A;", lit "typedef struct {}", lit "B;"],
        [lit "int x;"], [lit "int x;"]] ∧
      (buildSegments .ascii P)[2]?.map Segment.name = some ['A'] := by decide +kernel
  obtain ⟨P, hP⟩ := Option.isSome_iff_exists.mp hsome
  obtain ⟨hparents, hstmts, hname⟩ := hparts P hP
  have hparse : parseCFile .ascii {} twoStructsFile = some (buildSegments .ascii P) := by
    rw [parseCFile, hP]
    rfl
  have hA : structA.At P 1 := by
    refine ⟨Nat.one_pos, by rw [hstmts]; decide,
      ⟨[], [' '], [lit "typedef struct {}", lit "B;"], ?_⟩, ?_⟩
    · rw [SegmentStmts.childrenOf, hparents, hstmts]
      decide
    · rw [hstmts]
      decide
  have hB : structB.At P 2 := by
    refine ⟨Nat.two_pos, by rw [hstmts]; decide,
      ⟨[lit "typedef struct {}", lit "A;"], [' '], [], ?_⟩, ?_⟩
    · rw [SegmentStmts.childrenOf, hparents, hstmts]
      decide
    · rw [hstmts]
      decide
  have hreg := h _ _ _ P hparse hP [(1, structA), (2, structB)]
    (List.forall_mem_cons.mpr ⟨hA, List.forall_mem_singleton.mpr hB⟩) (by decide) (2, structB)
    (List.mem_cons_of_mem _ List.mem_cons_self)
  exact absurd (hname.symm.trans hreg.name) (by decide)

end Csc512
