import Csc512.Cdup.Flatten
import Csc512.Cdup.CloneReport
import Csc512.Cdup.Merge
import Csc512.Lib.TupleText

/-!
# Functions with one signature

The detector of Type IV clones. A function has a fingerprint: the letters of the kinds of its
statements, and behind a statement with a placeholder the fingerprint of a block. With the numbers
of names that the statements read and write, and with the types of its blocks, this is its
signature, and functions with one signature are in one class.

The table that gives the letters has no entry for most of the kinds that the parser knows, and a
statement takes one block, however many placeholders it has. So functions with one signature can
have different control structures.

## Main results

* `alike_iff` — what the fingerprint sees of a function
* `sameControl_iff` — when functions that look alike have the same control structure
* `detectType4_sound_iff` — when all functions in a class have the same control structure
* `not_sameControl_expressions` — where this fails
-/

namespace Csc512

/-! ### Letters for kinds -/

/-- The names of the kinds. -/
def Kind.text : Kind → Text
  | .decl => lit "decl"
  | .assign => lit "assign"
  | .branch => lit "branch"
  | .loopHead => lit "loop_head"
  | .control => lit "control"
  | .call => lit "call"
  | .funcDecl => lit "func_decl"
  | .expr => lit "expr"

/-- The names of the types of segments. -/
def SegType.text : SegType → Text
  | .root => lit "root"
  | .function => lit "function"
  | .loop => lit "loop"
  | .branch => lit "branch"
  | .struct => lit "struct"
  | .cls => lit "class"

/-- Words without quotes. -/
abbrev Letter : Type := { word : Text // '\'' ∉ word }

/-- The letters of the kinds that the detector knows. -/
def kindMap : List (Text × Letter) :=
  [(lit "assign", ⟨lit "A", by decide⟩), (lit "decl_assign", ⟨lit "A", by decide⟩),
    (lit "compound_assign", ⟨lit "A", by decide⟩), (lit "increment", ⟨lit "A", by decide⟩),
    (lit "decrement", ⟨lit "A", by decide⟩), (lit "decl", ⟨lit "D", by decide⟩),
    (lit "return", ⟨lit "R", by decide⟩), (lit "break", ⟨lit "B", by decide⟩),
    (lit "continue", ⟨lit "C", by decide⟩), (lit "call", ⟨lit "K", by decide⟩),
    (lit "method_call", ⟨lit "K", by decide⟩), (lit "printf", ⟨lit "IO", by decide⟩),
    (lit "println", ⟨lit "IO", by decide⟩), (lit "print", ⟨lit "IO", by decide⟩),
    (lit "scanf", ⟨lit "IO", by decide⟩), (lit "if", ⟨lit "IF", by decide⟩),
    (lit "else", ⟨lit "ELSE", by decide⟩), (lit "else_if", ⟨lit "ELIF", by decide⟩),
    (lit "while", ⟨lit "W", by decide⟩), (lit "for", ⟨lit "F", by decide⟩),
    (lit "do_while", ⟨lit "DW", by decide⟩), (lit "switch", ⟨lit "SW", by decide⟩),
    (lit "case", ⟨lit "CASE", by decide⟩), (lit "try", ⟨lit "TRY", by decide⟩),
    (lit "catch", ⟨lit "CATCH", by decide⟩)]

/-- The letter of a kind. -/
def abstractKind (kind : Text) : Letter := (kindMap.lookup kind).getD ⟨lit "X", by decide⟩

/-- Kinds without a letter of their own. -/
def Kind.unlisted (kind : Kind) : Bool := (kindMap.lookup kind.text).isNone

theorem abstractKind_text (kind : Kind) : abstractKind kind.text = match kind with
    | .decl => ⟨['D'], by decide⟩
    | .assign => ⟨['A'], by decide⟩
    | .call => ⟨['K'], by decide⟩
    | _ => ⟨['X'], by decide⟩ := by
  cases kind <;> decide +kernel

/-- **The table knows three of the kinds.** -/
theorem unlisted_eq (kind : Kind) : kind.unlisted = match kind with
    | .decl => false
    | .assign => false
    | .call => false
    | _ => true := by
  cases kind <;> decide +kernel

/-- Kinds have one letter if they are equal or both have none of their own. -/
theorem abstractKind_eq_iff (k k' : Kind) : abstractKind k.text = abstractKind k'.text ↔
    k = k' ∨ k.unlisted ∧ k'.unlisted := by
  rw [abstractKind_text, abstractKind_text, unlisted_eq, unlisted_eq]
  cases k <;> cases k' <;> simp

/-! ### The detector -/

/-- The items of a fingerprint: letters, some with the fingerprint of a block. -/
inductive Fingerprint where
  | nil
  | plain (letter : Letter) (rest : Fingerprint)
  | block (letter : Letter) (inside rest : Fingerprint)

/-- The block that each statement takes: a statement with a placeholder takes the next one. -/
def takeBlocks : List Statement → List ℕ → List (Statement × Option ℕ)
  | [], _ => []
  | stmt :: stmts, [] => (stmt, none) :: takeBlocks stmts []
  | stmt :: stmts, c :: children =>
    if contains (lit "{}") stmt.raw then (stmt, some c) :: takeBlocks stmts children
    else (stmt, none) :: takeBlocks stmts (c :: children)

/-- The fingerprint of statements with their blocks. -/
def fingerprintItems (inside : ℕ → Option Fingerprint) :
    List (Statement × Option ℕ) → Option Fingerprint
  | [] => some .nil
  | (stmt, none) :: items => (fingerprintItems inside items).map
      (.plain (abstractKind stmt.kind.text))
  | (stmt, some c) :: items => do
    let block ← inside c
    let rest ← fingerprintItems inside items
    some (.block (abstractKind stmt.kind.text) block rest)

section Detector

variable (segments : List Segment)

/-- The statements of a segment with their blocks. -/
def taken (seg : Segment) : List (Statement × Option ℕ) :=
  takeBlocks seg.stmts (childrenOf segments seg.id)

/-- The fingerprint of a segment. `fuel` bounds the nesting. -/
def structuralFingerprint : ℕ → Segment → Option Fingerprint
  | 0, _ => none
  | fuel + 1, seg =>
    fingerprintItems (fun c => match segById segments c with
      | some child => structuralFingerprint fuel child
      | none => some .nil) (taken segments seg)

/-- The numbers of names that a statement reads and writes. -/
def countRw (stmt : Statement) : ℕ × ℕ :=
  (stmt.rNames.length, if stmt.lName.getD [] = [] then 0 else 1)

/-- The types of the blocks of a segment. -/
def childTypes (seg : Segment) : List SegType :=
  (childrenOf segments seg.id).filterMap fun c => (segById segments c).map Segment.type

/-- The signature of a segment. -/
structure Signature where
  fingerprint : Fingerprint
  rwPattern : List (ℕ × ℕ)
  childTypes : List SegType

def semanticSignature (seg : Segment) : Option Signature := do
  let fingerprint ← structuralFingerprint segments (segments.length + 1) seg
  some ⟨fingerprint, seg.stmts.map countRw, childTypes segments seg⟩

/-- The items of a fingerprint, printed. -/
def Fingerprint.items : Fingerprint → List Text
  | nil => []
  | plain letter rest => tupleText [quoted letter.1] :: rest.items
  | block letter inside rest =>
    tupleText [quoted letter.1, quoted (lit "BLOCK"), tupleText inside.items] :: rest.items

/-- A signature, printed. -/
def Signature.repr (sig : Signature) : Text :=
  tupleText [tupleText sig.fingerprint.items,
    tupleText (sig.rwPattern.map fun rw => tupleText [natText rw.1, natText rw.2]),
    tupleText (sig.childTypes.map fun type => quoted type.text)]

/-- A function in a class. -/
structure SemanticOccurrence where
  segId : ℕ
  startStmtIdx : ℤ
  endStmtIdx : ℤ
  scopePath : Text
  functionName : Text
  statements : List Text
deriving DecidableEq, Repr

/-- A class of functions with one signature. -/
structure SemanticClone where
  id : ℕ
  signatureHash : Text
  occurrences : List SemanticOccurrence
deriving DecidableEq, Repr

/-- A function as it stands in a class. -/
def semanticOccurrence (seg : Segment) : SemanticOccurrence where
  segId := seg.id
  startStmtIdx := 0
  endStmtIdx := (seg.stmts.length : ℤ) - 1
  scopePath := seg.scopePath
  functionName := seg.name
  statements := seg.stmts.map Statement.raw

/-- The functions that are long enough. -/
def fnSegments (minLength : ℤ) : List Segment :=
  segments.filter fun seg => seg.type = .function ∧ minLength ≤ seg.stmts.length

/-- The classes of functions with one signature. -/
def detectType4 (sha256 : Text → Text) (minLength : ℤ) : Option (List SemanticClone) := do
  let signed ← (fnSegments segments minLength).mapM fun seg => do
    let sig ← semanticSignature segments seg
    some (sha256 sig.repr, seg)
  let groups := (Dict.collect signed).entries.insertionSort fun x y => y.2.length ≤ x.2.length
  some (((groups.filter fun e => 2 ≤ e.2.length).zipIdx 1).map fun e =>
    { id := e.2, signatureHash := e.1.1.take 16, occurrences := e.1.2.map semanticOccurrence })

end Detector

/-! ### Signatures can be read back -/

theorem printed_letter (letter : Letter) : Printed (quoted letter.1) := .quoted letter.2

theorem Fingerprint.printed_items (fp : Fingerprint) : ∀ x ∈ fp.items, Printed x := by
  induction fp with
  | nil => nofun
  | plain letter rest ih =>
    refine List.forall_mem_cons.mpr ⟨.tuple ?_, ih⟩
    exact List.forall_mem_singleton.mpr (printed_letter letter)
  | block letter inside rest ihInside ih =>
    refine List.forall_mem_cons.mpr ⟨.tuple ?_, ih⟩
    simp only [List.forall_mem_cons]
    exact ⟨printed_letter letter, .quoted (by decide), .tuple ihInside, nofun⟩

theorem Fingerprint.items_injective : Function.Injective Fingerprint.items := by
  intro fp
  induction fp with
  | nil =>
    intro fp' h
    cases fp' with
    | nil => rfl
    | plain letter' rest' => cases h
    | block letter' inside' rest' => cases h
  | plain letter rest ih =>
    intro fp' h
    cases fp' with
    | nil => cases h
    | plain letter' rest' =>
      obtain ⟨hfirst, hrest⟩ := List.cons.inj h
      have hletter := tupleText_inj (by simpa using printed_letter letter)
        (by simpa using printed_letter letter') hfirst
      rw [ih hrest, Subtype.ext (quoted_inj (List.cons.inj hletter).1)]
    | block letter' inside' rest' =>
      have hitems := tupleText_inj (by simpa using printed_letter letter)
        (by simpa using ⟨printed_letter letter', .quoted (by decide),
          .tuple inside'.printed_items⟩) (List.cons.inj h).1
      exact absurd (congrArg List.length hitems) (by simp)
  | block letter inside rest ihInside ih =>
    intro fp' h
    have hprinted : ∀ (letter : Letter) (inside : Fingerprint),
        ∀ x ∈ [quoted letter.1, quoted (lit "BLOCK"), tupleText inside.items], Printed x := by
      intro letter inside
      simp only [List.forall_mem_cons]
      exact ⟨printed_letter letter, .quoted (by decide), .tuple inside.printed_items, nofun⟩
    cases fp' with
    | nil => cases h
    | plain letter' rest' =>
      have hitems := tupleText_inj (hprinted letter inside)
        (by simpa using printed_letter letter') (List.cons.inj h).1
      exact absurd (congrArg List.length hitems) (by simp)
    | block letter' inside' rest' =>
      obtain ⟨hfirst, hrest⟩ := List.cons.inj h
      have hitems := tupleText_inj (hprinted letter inside) (hprinted letter' inside') hfirst
      obtain ⟨hletter, hitems⟩ := List.cons.inj hitems
      have hinside := tupleText_inj inside.printed_items inside'.printed_items
        (List.cons.inj (List.cons.inj hitems).2).1
      rw [ih hrest, ihInside hinside, Subtype.ext (quoted_inj hletter)]

theorem SegType.printed (type : SegType) : Printed (quoted type.text) := by
  refine .quoted ?_
  cases type <;> decide

theorem SegType.text_injective : Function.Injective SegType.text := by
  intro a b h
  revert h
  cases a <;> cases b <;> decide

theorem printed_rw (rw : ℕ × ℕ) : Printed (tupleText [natText rw.1, natText rw.2]) := by
  refine .tuple ?_
  simp only [List.forall_mem_cons]
  exact ⟨.number rw.1, .number rw.2, nofun⟩

theorem rwText_injective :
    Function.Injective fun rw : ℕ × ℕ => tupleText [natText rw.1, natText rw.2] := by
  intro a b h
  have hnumbers : ∀ rw : ℕ × ℕ, ∀ x ∈ [natText rw.1, natText rw.2], Printed x := by
    intro rw
    simp only [List.forall_mem_cons]
    exact ⟨.number rw.1, .number rw.2, nofun⟩
  obtain ⟨hfirst, hsecond⟩ := List.cons.inj (tupleText_inj (hnumbers a) (hnumbers b) h)
  exact Prod.ext (natText_injective hfirst) (natText_injective (List.cons.inj hsecond).1)

/-- **A printed signature determines the signature.** -/
theorem Signature.repr_injective : Function.Injective Signature.repr := by
  intro a b h
  have hrw : ∀ rws : List (ℕ × ℕ), ∀ x ∈ rws.map fun rw => tupleText [natText rw.1, natText rw.2],
      Printed x := fun rws x hx => by
    obtain ⟨rw, -, rfl⟩ := List.mem_map.mp hx
    exact printed_rw rw
  have htypes : ∀ types : List SegType, ∀ x ∈ types.map fun type => quoted type.text,
      Printed x := fun types x hx => by
    obtain ⟨type, -, rfl⟩ := List.mem_map.mp hx
    exact type.printed
  have hprinted : ∀ sig : Signature, ∀ x ∈ [tupleText sig.fingerprint.items,
      tupleText (sig.rwPattern.map fun rw => tupleText [natText rw.1, natText rw.2]),
      tupleText (sig.childTypes.map fun type => quoted type.text)], Printed x := by
    intro sig
    simp only [List.forall_mem_cons]
    exact ⟨.tuple sig.fingerprint.printed_items, .tuple (hrw _), .tuple (htypes _), nofun⟩
  obtain ⟨hfp, hrest⟩ := List.cons.inj (tupleText_inj (hprinted a) (hprinted b) h)
  obtain ⟨hpattern, hrest⟩ := List.cons.inj hrest
  have hfp := Fingerprint.items_injective (tupleText_inj a.fingerprint.printed_items
    b.fingerprint.printed_items hfp)
  have hpattern := rwText_injective.list_map (tupleText_inj (hrw _) (hrw _) hpattern)
  have hchildren := tupleText_inj (htypes _) (htypes _) (List.cons.inj hrest).1
  have hinj : Function.Injective fun type : SegType => quoted type.text :=
    fun x y hxy => SegType.text_injective (quoted_inj hxy)
  have hchildren := hinj.list_map hchildren
  cases a
  cases b
  simp only at hfp hpattern hchildren
  rw [hfp, hpattern, hchildren]

/-! ### What the fingerprint sees -/

section Structure

variable (segments : List Segment)

/-- Segments of one shape: their statements have the same letters and take blocks in the same
places, and so on in these blocks. -/
inductive Alike : Segment → Segment → Prop
  | intro {s t : Segment} (length : (taken segments s).length = (taken segments t).length)
    (letters : ∀ x y, (x, y) ∈ (taken segments s).zip (taken segments t) →
      (x.1.kind = y.1.kind ∨ x.1.kind.unlisted ∧ y.1.kind.unlisted) ∧ x.2.isSome = y.2.isSome)
    (blocks : ∀ x y, (x, y) ∈ (taken segments s).zip (taken segments t) →
      ∀ c ∈ x.2, ∀ d ∈ y.2, ∀ s' t', segById segments c = some s' → segById segments d = some t' →
        Alike s' t') : Alike s t

/-- **Segments with the same control structure**: their statements have the same kinds, and so have
those of their blocks, in order. -/
inductive SameControl : Segment → Segment → Prop
  | intro {s t : Segment} (kinds : s.stmts.map Statement.kind = t.stmts.map Statement.kind)
    (length : (childrenOf segments s.id).length = (childrenOf segments t.id).length)
    (blocks : ∀ c d, (c, d) ∈ (childrenOf segments s.id).zip (childrenOf segments t.id) →
      ∀ s' t', segById segments c = some s' → segById segments d = some t' →
        SameControl s' t') : SameControl s t

/-- The blocks that no statement takes. -/
def untaken (seg : Segment) : List ℕ :=
  (childrenOf segments seg.id).drop ((taken segments seg).filterMap Prod.snd).length

/-- The blocks that no statement takes have the same control structure. -/
def SameUntaken (s t : Segment) : Prop :=
  (untaken segments s).length = (untaken segments t).length ∧
    ∀ c d, (c, d) ∈ (untaken segments s).zip (untaken segments t) →
      ∀ s' t', segById segments c = some s' → segById segments d = some t' →
        SameControl segments s' t'

/-- What the fingerprint misses: somewhere in two segments of one shape there are statements of
different kinds that have no letter of their own, or blocks that no statement takes and that
differ. -/
inductive Confused : Segment → Segment → Prop
  | kinds {s t : Segment} (x y : Statement) (mem : (x, y) ∈ s.stmts.zip t.stmts)
    (left : x.kind.unlisted) (right : y.kind.unlisted) (ne : x.kind ≠ y.kind) : Confused s t
  | untaken {s t : Segment} (h : ¬ SameUntaken segments s t) : Confused s t
  | inside {s t : Segment} (x y : Statement × Option ℕ)
    (mem : (x, y) ∈ (taken segments s).zip (taken segments t)) (c d : ℕ) (left : c ∈ x.2)
    (right : d ∈ y.2) (s' t' : Segment) (hs : segById segments c = some s')
    (ht : segById segments d = some t') (h : Confused s' t') : Confused s t

end Structure

section Taken

variable {segments : List Segment}

theorem map_fst_takeBlocks (stmts : List Statement) (children : List ℕ) :
    (takeBlocks stmts children).map Prod.fst = stmts := by
  induction stmts generalizing children with
  | nil => rfl
  | cons stmt stmts ih =>
    cases children with
    | nil => rw [takeBlocks, List.map_cons, ih]
    | cons c children =>
      rw [takeBlocks]
      split
      · rw [List.map_cons, ih]
      · rw [List.map_cons, ih]

/-- Statements take the first blocks. -/
theorem filterMap_takeBlocks (stmts : List Statement) (children : List ℕ) :
    (takeBlocks stmts children).filterMap Prod.snd <+: children := by
  induction stmts generalizing children with
  | nil => exact List.nil_prefix
  | cons stmt stmts ih =>
    cases children with
    | nil =>
      rw [takeBlocks, List.filterMap_cons_none rfl]
      exact ih []
    | cons c children =>
      rw [takeBlocks]
      split
      · exact (List.prefix_cons_inj c).mpr (ih children)
      · rw [List.filterMap_cons_none rfl]
        exact ih (c :: children)

theorem childrenOf_eq_taken (seg : Segment) : childrenOf segments seg.id
    = (taken segments seg).filterMap Prod.snd ++ untaken segments seg := by
  have hprefix := filterMap_takeBlocks seg.stmts (childrenOf segments seg.id)
  rw [← taken] at hprefix
  obtain ⟨rest, hrest⟩ := hprefix
  rw [untaken, ← hrest, List.drop_left]

/-- A block that is taken is a child. -/
theorem mem_childrenOf_of_taken {seg : Segment} {x : Statement × Option ℕ} {c : ℕ}
    (hx : x ∈ taken segments seg) (hc : c ∈ x.2) : c ∈ childrenOf segments seg.id :=
  (filterMap_takeBlocks _ _).subset (List.mem_filterMap.mpr ⟨x, hx, hc⟩)

/-- The blocks that two lists of statements take in the same places. -/
theorem zip_filterMap {l l' : List (Statement × Option ℕ)} (hlen : l.length = l'.length)
    (hsome : ∀ x y, (x, y) ∈ l.zip l' → x.2.isSome = y.2.isSome) :
    (l.filterMap Prod.snd).length = (l'.filterMap Prod.snd).length ∧
      ∀ c d, (c, d) ∈ (l.filterMap Prod.snd).zip (l'.filterMap Prod.snd) ↔
        ∃ x y, (x, y) ∈ l.zip l' ∧ c ∈ x.2 ∧ d ∈ y.2 := by
  induction l generalizing l' with
  | nil =>
    obtain rfl := List.length_eq_zero_iff.mp hlen.symm
    simp
  | cons x l ih =>
    obtain ⟨y, l', rfl⟩ := List.exists_cons_of_length_eq_add_one hlen.symm
    have hfirst := hsome x y List.mem_cons_self
    obtain ⟨hlength, hmem⟩ := ih (Nat.succ_injective hlen) fun x y h =>
      hsome x y (List.mem_cons_of_mem _ h)
    obtain ⟨stmt, c⟩ := x
    obtain ⟨stmt', d⟩ := y
    cases c with
    | none =>
      obtain rfl : d = none := Option.isSome_eq_false_iff.mp hfirst.symm |> Option.isNone_iff_eq_none.mp
      rw [List.filterMap_cons_none rfl, List.filterMap_cons_none rfl]
      refine ⟨hlength, fun c d => (hmem c d).trans ?_⟩
      simp
    | some c =>
      obtain ⟨d, rfl⟩ := Option.isSome_iff_exists.mp hfirst.symm
      refine ⟨congrArg (· + 1) hlength, fun c' d' => ?_⟩
      show (c', d') ∈ (c, d) :: (l.filterMap Prod.snd).zip (l'.filterMap Prod.snd) ↔ _
      rw [List.mem_cons, hmem, List.zip_cons_cons]
      constructor
      · rintro (h | ⟨x, y, hxy, hc, hd⟩)
        · obtain ⟨rfl, rfl⟩ := Prod.mk.inj h
          exact ⟨_, _, List.mem_cons_self, rfl, rfl⟩
        · exact ⟨x, y, List.mem_cons_of_mem _ hxy, hc, hd⟩
      · rintro ⟨x, y, hxy, hc, hd⟩
        rcases List.mem_cons.mp hxy with h | h
        · obtain ⟨rfl, rfl⟩ := Prod.mk.inj h
          exact .inl (Prod.ext (Option.some.inj hc).symm (Option.some.inj hd).symm)
        · exact .inr ⟨x, y, h, hc, hd⟩

/-- The kinds of two lists of statements with the same letters. -/
theorem map_kind_eq_iff {l l' : List Statement} (hlen : l.length = l'.length)
    (hletters : ∀ x y, (x, y) ∈ l.zip l' →
      x.kind = y.kind ∨ x.kind.unlisted ∧ y.kind.unlisted) :
    l.map Statement.kind = l'.map Statement.kind ↔
      ¬ ∃ x y, (x, y) ∈ l.zip l' ∧ x.kind.unlisted ∧ y.kind.unlisted ∧ x.kind ≠ y.kind := by
  induction l generalizing l' with
  | nil =>
    obtain rfl := List.length_eq_zero_iff.mp hlen.symm
    simp
  | cons x l ih =>
    obtain ⟨y, l', rfl⟩ := List.exists_cons_of_length_eq_add_one hlen.symm
    have hfirst := hletters x y List.mem_cons_self
    have hrest := ih (Nat.succ_injective hlen) fun x y h => hletters x y (List.mem_cons_of_mem _ h)
    rw [List.map_cons, List.map_cons, List.cons.injEq, hrest, List.zip_cons_cons]
    constructor
    · rintro ⟨heq, hno⟩ ⟨x', y', hxy, hleft, hright, hne⟩
      rcases List.mem_cons.mp hxy with h | h
      · obtain ⟨rfl, rfl⟩ := Prod.mk.inj h
        exact hne heq
      · exact hno ⟨x', y', h, hleft, hright, hne⟩
    · intro hno
      refine ⟨?_, ?_⟩
      · by_contra hne
        obtain ⟨hleft, hright⟩ := hfirst.resolve_left hne
        exact hno ⟨x, y, List.mem_cons_self, hleft, hright, hne⟩
      · rintro ⟨x', y', h, hrest⟩
        exact hno ⟨x', y', List.mem_cons_of_mem _ h, hrest⟩

/-- **When segments that look alike have the same control structure.** -/
theorem sameControl_iff {s t : Segment} (h : Alike segments s t) :
    SameControl segments s t ↔ ¬ Confused segments s t := by
  induction h with
  | @intro s t length letters blocks ih =>
    obtain ⟨hlen, hmem⟩ := zip_filterMap length fun x y hxy => (letters x y hxy).2
    have hstmts : ∀ seg : Segment, (taken segments seg).map Prod.fst = seg.stmts :=
      fun seg => map_fst_takeBlocks _ _
    have hzip : s.stmts.zip t.stmts = ((taken segments s).zip (taken segments t)).map
        fun p => (p.1.1, p.2.1) := by
      rw [← hstmts s, ← hstmts t, List.zip_map]
      rfl
    have hkinds := @map_kind_eq_iff s.stmts t.stmts
      (by rw [← hstmts s, ← hstmts t, List.length_map, List.length_map, length])
      (fun x y hxy => by
        rw [hzip, List.mem_map] at hxy
        obtain ⟨p, hp, heq⟩ := hxy
        obtain ⟨rfl, rfl⟩ := Prod.mk.inj heq
        exact (letters p.1 p.2 hp).1)
    have hchildren : (childrenOf segments s.id).zip (childrenOf segments t.id)
        = ((taken segments s).filterMap Prod.snd).zip ((taken segments t).filterMap Prod.snd)
          ++ (untaken segments s).zip (untaken segments t) := by
      rw [childrenOf_eq_taken, childrenOf_eq_taken, List.zip_append hlen]
    constructor
    · rintro ⟨kinds, length', blocks'⟩ hconfused
      cases hconfused with
      | kinds x y mem left right ne => exact hkinds.mp kinds ⟨x, y, mem, left, right, ne⟩
      | untaken h =>
        refine h ⟨?_, fun c d hcd => blocks' c d ?_⟩
        · rw [childrenOf_eq_taken, childrenOf_eq_taken, List.length_append, List.length_append,
            hlen] at length'
          exact Nat.add_left_cancel length'
        · rw [hchildren]
          exact List.mem_append_right _ hcd
      | inside x y mem c d left right s' t' hs ht h =>
        refine (ih x y mem c left d right s' t' hs ht).mp (blocks' c d ?_ s' t' hs ht) h
        rw [hchildren]
        exact List.mem_append_left _ ((hmem c d).mpr ⟨x, y, mem, left, right⟩)
    · intro hconfused
      have huntaken : SameUntaken segments s t := by
        by_contra h
        exact hconfused (.untaken h)
      refine .intro (hkinds.mpr ?_) ?_ ?_
      · rintro ⟨x, y, mem, left, right, ne⟩
        exact hconfused (.kinds x y mem left right ne)
      · rw [childrenOf_eq_taken, childrenOf_eq_taken, List.length_append, List.length_append,
          hlen, huntaken.1]
      · intro c d hcd s' t' hs ht
        rw [hchildren] at hcd
        rcases List.mem_append.mp hcd with hcd | hcd
        · obtain ⟨x, y, mem, left, right⟩ := (hmem c d).mp hcd
          exact (ih x y mem c left d right s' t' hs ht).mpr fun h =>
            hconfused (.inside x y mem c d left right s' t' hs ht h)
        · exact huntaken.2 c d hcd s' t' hs ht

end Taken

/-! ### Equal fingerprints -/

/-- Two statements with their blocks look alike. -/
def ItemsAlike (R : ℕ → ℕ → Prop) (x y : Statement × Option ℕ) : Prop :=
  ((x.1.kind = y.1.kind ∨ x.1.kind.unlisted ∧ y.1.kind.unlisted) ∧ x.2.isSome = y.2.isSome) ∧
    ∀ c ∈ x.2, ∀ d ∈ y.2, R c d

section Fingerprints

variable {segments : List Segment}

theorem fingerprintItems_none_iff {inside : ℕ → Option Fingerprint} {stmt : Statement}
    {items : List (Statement × Option ℕ)} {fp : Fingerprint} :
    fingerprintItems inside ((stmt, none) :: items) = some fp ↔
      ∃ rest, fingerprintItems inside items = some rest ∧
        .plain (abstractKind stmt.kind.text) rest = fp :=
  Option.map_eq_some_iff

theorem fingerprintItems_some_iff {inside : ℕ → Option Fingerprint} {stmt : Statement} {c : ℕ}
    {items : List (Statement × Option ℕ)} {fp : Fingerprint} :
    fingerprintItems inside ((stmt, some c) :: items) = some fp ↔
      ∃ block rest, inside c = some block ∧ fingerprintItems inside items = some rest ∧
        .block (abstractKind stmt.kind.text) block rest = fp := by
  simp only [fingerprintItems, Option.bind_eq_bind, Option.bind_eq_some_iff, Option.some.injEq]
  constructor
  · rintro ⟨block, hblock, rest, hrest, heq⟩
    exact ⟨block, rest, hblock, hrest, heq⟩
  · rintro ⟨block, rest, hblock, hrest, heq⟩
    exact ⟨block, hblock, rest, hrest, heq⟩

/-- **Equal fingerprints**, where equal fingerprints of blocks mean that `R` holds of them. -/
theorem fingerprintItems_eq_iff {inside inside' : ℕ → Option Fingerprint} {R : ℕ → ℕ → Prop}
    {l l' : List (Statement × Option ℕ)}
    (hR : ∀ x ∈ l, ∀ y ∈ l', ∀ c ∈ x.2, ∀ d ∈ y.2, ∀ f f', inside c = some f →
      inside' d = some f' → (f = f' ↔ R c d)) {fp fp' : Fingerprint}
    (h : fingerprintItems inside l = some fp) (h' : fingerprintItems inside' l' = some fp') :
    fp = fp' ↔ List.Forall₂ (ItemsAlike R) l l' := by
  induction l generalizing l' fp fp' with
  | nil =>
    obtain rfl := Option.some.inj h
    match l', h' with
    | [], h' =>
      obtain rfl := Option.some.inj h'
      exact iff_of_true rfl .nil
    | (stmt', none) :: l', h' =>
      obtain ⟨rest', -, rfl⟩ := fingerprintItems_none_iff.mp h'
      exact iff_of_false nofun nofun
    | (stmt', some d) :: l', h' =>
      obtain ⟨block', rest', -, -, rfl⟩ := fingerprintItems_some_iff.mp h'
      exact iff_of_false nofun nofun
  | cons x l ih =>
    have hrest : ∀ {y l'}, (∀ x' ∈ x :: l, ∀ y' ∈ y :: l', ∀ c ∈ x'.2, ∀ d ∈ y'.2, ∀ f f',
        inside c = some f → inside' d = some f' → (f = f' ↔ R c d)) → ∀ {fp fp'},
        fingerprintItems inside l = some fp → fingerprintItems inside' l' = some fp' →
        (fp = fp' ↔ List.Forall₂ (ItemsAlike R) l l') :=
      fun hR _ _ h h' => ih (fun x hx y hy => hR x (List.mem_cons_of_mem _ hx) y
        (List.mem_cons_of_mem _ hy)) h h'
    obtain ⟨stmt, _ | c⟩ := x
    · obtain ⟨rest, hfp, rfl⟩ := fingerprintItems_none_iff.mp h
      match l', h' with
      | [], h' =>
        obtain rfl := Option.some.inj h'
        exact iff_of_false nofun nofun
      | (stmt', none) :: l', h' =>
        obtain ⟨rest', hfp', rfl⟩ := fingerprintItems_none_iff.mp h'
        rw [Fingerprint.plain.injEq, abstractKind_eq_iff, hrest hR hfp hfp', List.forall₂_cons]
        refine and_congr_left fun _ => ?_
        exact ⟨fun hkind => ⟨⟨hkind, rfl⟩, nofun⟩, fun h => h.1.1⟩
      | (stmt', some d) :: l', h' =>
        obtain ⟨block', rest', -, -, rfl⟩ := fingerprintItems_some_iff.mp h'
        refine iff_of_false nofun fun hall => ?_
        exact Bool.noConfusion (List.forall₂_cons.mp hall).1.1.2
    · obtain ⟨block, rest, hblock, hfp, rfl⟩ := fingerprintItems_some_iff.mp h
      match l', h' with
      | [], h' =>
        obtain rfl := Option.some.inj h'
        exact iff_of_false nofun nofun
      | (stmt', none) :: l', h' =>
        obtain ⟨rest', -, rfl⟩ := fingerprintItems_none_iff.mp h'
        refine iff_of_false nofun fun hall => ?_
        exact Bool.noConfusion (List.forall₂_cons.mp hall).1.1.2
      | (stmt', some d) :: l', h' =>
        obtain ⟨block', rest', hblock', hfp', rfl⟩ := fingerprintItems_some_iff.mp h'
        have hinside := hR _ List.mem_cons_self _ List.mem_cons_self c rfl d rfl _ _ hblock hblock'
        rw [Fingerprint.block.injEq, abstractKind_eq_iff, hrest hR hfp hfp', hinside,
          List.forall₂_cons, ← and_assoc]
        refine and_congr_left fun _ => ?_
        constructor
        · rintro ⟨hkind, hcd⟩
          refine ⟨⟨hkind, rfl⟩, fun c' hc' d' hd' => ?_⟩
          obtain rfl := Option.some.inj hc'
          obtain rfl := Option.some.inj hd'
          exact hcd
        · rintro ⟨⟨hkind, -⟩, hcd⟩
          exact ⟨hkind, hcd c rfl d rfl⟩

theorem exists_segById_of_mem_childrenOf {parent c : ℕ} (h : c ∈ childrenOf segments parent) :
    ∃ child, segById segments c = some child := by
  obtain ⟨seg, hseg, rfl, -⟩ := mem_childrenOf.mp h
  exact Option.isSome_iff_exists.mp (segById_isSome (List.mem_map_of_mem hseg))

/-- **What the fingerprint sees of a segment.** -/
theorem alike_iff {fuel fuel' : ℕ} {s t : Segment} {fp fp' : Fingerprint}
    (h : structuralFingerprint segments fuel s = some fp)
    (h' : structuralFingerprint segments fuel' t = some fp') :
    fp = fp' ↔ Alike segments s t := by
  induction fuel generalizing fuel' s t fp fp' with
  | zero => cases h
  | succ fuel ih =>
    cases fuel' with
    | zero => cases h'
    | succ fuel' =>
      have hR : ∀ x ∈ taken segments s, ∀ y ∈ taken segments t, ∀ c ∈ x.2, ∀ d ∈ y.2, ∀ f f',
          (match segById segments c with
            | some child => structuralFingerprint segments fuel child
            | none => some .nil) = some f →
          (match segById segments d with
            | some child => structuralFingerprint segments fuel' child
            | none => some .nil) = some f' →
          (f = f' ↔ ∀ s' t', segById segments c = some s' → segById segments d = some t' →
            Alike segments s' t') := by
        intro x hx y hy c hc d hd f f' hf hf'
        obtain ⟨s', hs'⟩ := exists_segById_of_mem_childrenOf (mem_childrenOf_of_taken hx hc)
        obtain ⟨t', ht'⟩ := exists_segById_of_mem_childrenOf (mem_childrenOf_of_taken hy hd)
        rw [hs'] at hf
        rw [ht'] at hf'
        rw [ih hf hf', hs', ht']
        constructor
        · intro halike s'' t'' hs'' ht''
          obtain rfl := Option.some.inj hs''
          obtain rfl := Option.some.inj ht''
          exact halike
        · exact fun halike => halike s' t' rfl rfl
      rw [fingerprintItems_eq_iff hR h h', List.forall₂_iff_zip]
      constructor
      · rintro ⟨hlength, hitems⟩
        exact .intro hlength (fun x y hxy => (hitems hxy).1) fun x y hxy => (hitems hxy).2
      · rintro ⟨hlength, hletters, hblocks⟩
        exact ⟨hlength, fun hxy => ⟨hletters _ _ hxy, hblocks _ _ hxy⟩⟩

end Fingerprints

/-! ### Representations without cycles -/

section Forest

variable {segments : List Segment}

theorem fingerprintItems_isSome {inside : ℕ → Option Fingerprint}
    {items : List (Statement × Option ℕ)} (h : ∀ x ∈ items, ∀ c ∈ x.2, (inside c).isSome) :
    (fingerprintItems inside items).isSome := by
  induction items with
  | nil => rfl
  | cons x items ih =>
    obtain ⟨rest, hrest⟩ := Option.isSome_iff_exists.mp
      (ih fun x hx => h x (List.mem_cons_of_mem _ hx))
    obtain ⟨stmt, _ | c⟩ := x
    · exact Option.isSome_iff_exists.mpr ⟨_, fingerprintItems_none_iff.mpr ⟨rest, hrest, rfl⟩⟩
    · obtain ⟨block, hblock⟩ := Option.isSome_iff_exists.mp (h _ List.mem_cons_self c rfl)
      exact Option.isSome_iff_exists.mpr
        ⟨_, fingerprintItems_some_iff.mpr ⟨block, rest, hblock, hrest, rfl⟩⟩

/-- The rank of a child is below that of its parent. -/
theorem rank_lt_of_child {rank : ℕ → ℕ} (hrank : ∀ seg ∈ segments, seg.id ≠ 0 →
    seg.parent ≠ seg.id → rank seg.id < rank seg.parent) {parent c : ℕ}
    (hc : c ∈ childrenOf segments parent) : rank c < rank parent := by
  obtain ⟨seg, hseg, rfl, hzero, hne, rfl⟩ := mem_childrenOf.mp hc
  exact hrank seg hseg hzero hne

/-- **The recursion ends**: the rank falls from a segment to its blocks. -/
theorem structuralFingerprint_isSome {rank : ℕ → ℕ} (hrank : ∀ seg ∈ segments, seg.id ≠ 0 →
    seg.parent ≠ seg.id → rank seg.id < rank seg.parent) {fuel : ℕ} {seg : Segment}
    (hfuel : rank seg.id < fuel) : (structuralFingerprint segments fuel seg).isSome := by
  induction fuel generalizing seg with
  | zero => exact absurd hfuel (Nat.not_lt_zero _)
  | succ fuel ih =>
    refine fingerprintItems_isSome fun x hx c hc => ?_
    have hchild := mem_childrenOf_of_taken hx hc
    have hlt := rank_lt_of_child hrank hchild
    obtain ⟨child, hfound⟩ := exists_segById_of_mem_childrenOf hchild
    rw [hfound]
    rw [← id_of_segById hfound] at hlt
    exact ih (by omega)

/-- A segment has its own control structure. -/
theorem SameControl.refl {rank : ℕ → ℕ} (hrank : ∀ seg ∈ segments, seg.id ≠ 0 →
    seg.parent ≠ seg.id → rank seg.id < rank seg.parent) (seg : Segment) :
    SameControl segments seg seg := by
  induction hn : rank seg.id using Nat.strong_induction_on generalizing seg with
  | _ n ih =>
    refine .intro rfl rfl fun c d hcd s' t' hs ht => ?_
    obtain rfl : c = d := by
      obtain ⟨i, hi⟩ := List.mem_iff_getElem?.mp hcd
      obtain ⟨hc, hd⟩ := List.getElem?_zip_eq_some.mp hi
      exact Option.some.inj (hc.symm.trans hd)
    obtain rfl := Option.some.inj (hs.symm.trans ht)
    have hlt := rank_lt_of_child hrank (List.of_mem_zip hcd).1
    rw [← id_of_segById hs, hn] at hlt
    exact ih _ hlt s' rfl

end Forest

/-! ### What is in a class -/

section Detect

variable {segments : List Segment} {sha256 : Text → Text} {minLength : ℤ}

/-- Any two functions in one class have the same control structure. -/
def ClassesSound (segments : List Segment) (classes : List SemanticClone) : Prop :=
  ∀ clone ∈ classes, ∀ o ∈ clone.occurrences, ∀ p ∈ clone.occurrences, ∀ s t,
    segById segments o.segId = some s → segById segments p.segId = some t →
      SameControl segments s t

/-- Two functions have the same numbers of names read and written by their statements, and blocks of
the same types. -/
def SameSummary (segments : List Segment) (s t : Segment) : Prop :=
  s.stmts.map countRw = t.stmts.map countRw ∧ childTypes segments s = childTypes segments t

theorem semanticSignature_eq_iff {s t : Segment} {sig sig' : Signature}
    (h : semanticSignature segments s = some sig) (h' : semanticSignature segments t = some sig') :
    sig = sig' ↔ Alike segments s t ∧ SameSummary segments s t := by
  simp only [semanticSignature, Option.bind_eq_bind, Option.bind_eq_some_iff,
    Option.some.injEq] at h h'
  obtain ⟨fp, hfp, rfl⟩ := h
  obtain ⟨fp', hfp', rfl⟩ := h'
  rw [Signature.mk.injEq, alike_iff hfp hfp', SameSummary]

/-- What stands for the signature of a function. -/
def signatureKey (segments : List Segment) (sha256 : Text → Text) (seg : Segment) : Text :=
  ((semanticSignature segments seg).map fun sig => sha256 sig.repr).getD []

theorem semanticSignature_isSome (hacyclic : Acyclic segments) (seg : Segment) :
    (semanticSignature segments seg).isSome := by
  obtain ⟨rank, hbound, hrank⟩ := hacyclic.bounded
  obtain ⟨fp, hfp⟩ := Option.isSome_iff_exists.mp
    (structuralFingerprint_isSome hrank (Nat.lt_succ_of_le (hbound seg.id)))
  simp [semanticSignature, hfp]

theorem signatureKey_eq_iff (hsha : Function.Injective sha256) (hacyclic : Acyclic segments)
    (s t : Segment) :
    signatureKey segments sha256 s = signatureKey segments sha256 t ↔
      Alike segments s t ∧ SameSummary segments s t := by
  obtain ⟨sig, hsig⟩ := Option.isSome_iff_exists.mp (semanticSignature_isSome hacyclic s)
  obtain ⟨sig', hsig'⟩ := Option.isSome_iff_exists.mp (semanticSignature_isSome hacyclic t)
  rw [signatureKey, signatureKey, hsig, hsig', ← semanticSignature_eq_iff hsig hsig']
  exact hsha.eq_iff.trans Signature.repr_injective.eq_iff

/-- **The classes** are the functions with one signature, where there are at least two. -/
theorem exists_detectType4 (hacyclic : Acyclic segments) (sha256 : Text → Text) (minLength : ℤ) :
    ∃ classes, detectType4 segments sha256 minLength = some classes ∧
      ∀ occurrences, (∃ clone ∈ classes, clone.occurrences = occurrences) ↔
        ∃ key, 2 ≤ occurrences.length ∧ occurrences = ((fnSegments segments minLength).filter
          fun seg => signatureKey segments sha256 seg = key).map semanticOccurrence := by
  obtain ⟨signed, hmap, hsigned⟩ := exists_mapM (l := fnSegments segments minLength)
    (f := fun seg => do
      let sig ← semanticSignature segments seg
      some (sha256 sig.repr, seg)) fun seg hseg => by
        obtain ⟨sig, hsig⟩ := Option.isSome_iff_exists.mp
          (semanticSignature_isSome hacyclic seg)
        simp [hsig]
  have heq : signed = (fnSegments segments minLength).map fun seg =>
      (signatureKey segments sha256 seg, seg) := by
    refine List.map_injective_iff.mpr (Option.some_injective _) ?_
    rw [← hsigned, List.map_map]
    refine List.map_congr_left fun seg hseg => ?_
    obtain ⟨sig, hsig⟩ := Option.isSome_iff_exists.mp
      (semanticSignature_isSome hacyclic seg)
    simp [signatureKey, hsig]
  have hgroup : ∀ key, ((Dict.collect signed).get? key).getD []
      = (fnSegments segments minLength).filter fun seg =>
        signatureKey segments sha256 seg = key := by
    intro key
    rw [Dict.get?_collect, heq, List.filter_map, List.map_map]
    exact List.map_id _
  refine ⟨_, by rw [detectType4, hmap]; rfl, fun occurrences => ?_⟩
  constructor
  · rintro ⟨clone, hclone, rfl⟩
    obtain ⟨e, he, rfl⟩ := List.mem_map.mp hclone
    obtain ⟨hentry, hlen⟩ := List.mem_filter.mp (List.fst_mem_of_mem_zipIdx he)
    have hget := Dict.get?_eq_some_iff.mpr ((List.mem_insertionSort _).mp hentry)
    refine ⟨e.1.1, ?_, ?_⟩
    · rw [List.length_map]
      exact of_decide_eq_true hlen
    · rw [← hgroup, hget, Option.getD_some]
  · rintro ⟨key, hlen, rfl⟩
    rw [List.length_map, ← hgroup] at hlen
    cases hget : (Dict.collect signed).get? key with
    | none =>
      rw [hget, Option.getD_none] at hlen
      exact absurd hlen (by decide)
    | some group =>
      rw [hget, Option.getD_some] at hlen
      have hmem : (key, group) ∈ ((Dict.collect signed).entries.insertionSort fun x y =>
          y.2.length ≤ x.2.length).filter fun e => 2 ≤ e.2.length :=
        List.mem_filter.mpr ⟨(List.mem_insertionSort _).mpr (Dict.get?_eq_some_iff.mp hget),
          decide_eq_true hlen⟩
      rw [← List.zipIdx_map_fst 1 (List.filter _ _)] at hmem
      obtain ⟨e, he, hfst⟩ := List.mem_map.mp hmem
      refine ⟨_, List.mem_map_of_mem he, ?_⟩
      rw [← hgroup, hget, Option.getD_some, hfst]

/-- **When all functions in a class have the same control structure**, for every representation with
segments that have different ids and are not their own descendants: exactly if of any two functions
that are long enough, have the same shape and the same summary, nothing is missed. -/
theorem detectType4_sound_iff (hsha : Function.Injective sha256)
    (hnodup : (segments.map Segment.id).Nodup) (hacyclic : Acyclic segments) (minLength : ℤ) :
    ∃ classes, detectType4 segments sha256 minLength = some classes ∧
      (ClassesSound segments classes ↔
        ∀ s ∈ fnSegments segments minLength, ∀ t ∈ fnSegments segments minLength,
          Alike segments s t → SameSummary segments s t → ¬ Confused segments s t) := by
  obtain ⟨classes, hdetect, hclasses⟩ := exists_detectType4 hacyclic sha256 minLength
  have hfind : ∀ seg ∈ fnSegments segments minLength,
      segById segments seg.id = some seg := by
    intro seg hseg
    obtain ⟨found, hfound⟩ := Option.isSome_iff_exists.mp
      (segById_isSome (List.mem_map_of_mem (List.mem_of_mem_filter hseg)))
    rw [hfound, List.inj_on_of_nodup_map hnodup (mem_of_segById hfound)
      (List.mem_of_mem_filter hseg) (id_of_segById hfound)]
  refine ⟨classes, hdetect, ?_⟩
  constructor
  · intro hsound s hs t ht halike hsummary
    rw [← sameControl_iff halike]
    by_cases hst : s = t
    · obtain ⟨rank, hrank⟩ := hacyclic
      exact hst ▸ SameControl.refl hrank s
    · have hkey := (signatureKey_eq_iff hsha hacyclic s t).mpr ⟨halike, hsummary⟩
      have hmem : ∀ seg ∈ [s, t], seg ∈ (fnSegments segments minLength).filter fun seg =>
          signatureKey segments sha256 seg = signatureKey segments sha256 t := by
        simp only [List.forall_mem_cons, List.mem_filter, decide_eq_true_eq]
        exact ⟨⟨hs, hkey⟩, ⟨ht, trivial⟩, nofun⟩
      have hpair : [s, t].Nodup := by simp [hst]
      obtain ⟨clone, hclone, hocc⟩ := (hclasses _).mpr ⟨_, by
        rw [List.length_map]
        exact (hpair.subperm hmem).length_le, rfl⟩
      refine hsound clone hclone (semanticOccurrence s) ?_ (semanticOccurrence t) ?_ s t
        (hfind s hs) (hfind t ht)
      · exact hocc ▸ List.mem_map_of_mem (hmem s List.mem_cons_self)
      · exact hocc ▸ List.mem_map_of_mem (hmem t (by simp))
  · intro hclear clone hclone o ho p hp s t hs ht
    obtain ⟨key, -, hocc⟩ := (hclasses _).mp ⟨clone, hclone, rfl⟩
    rw [hocc] at ho hp
    obtain ⟨s', hs', rfl⟩ := List.mem_map.mp ho
    obtain ⟨t', ht', rfl⟩ := List.mem_map.mp hp
    obtain ⟨hsmem, hskey⟩ := List.mem_filter.mp hs'
    obtain ⟨htmem, htkey⟩ := List.mem_filter.mp ht'
    obtain rfl := Option.some.inj ((hfind s' hsmem).symm.trans hs)
    obtain rfl := Option.some.inj ((hfind t' htmem).symm.trans ht)
    obtain ⟨halike, hsummary⟩ := (signatureKey_eq_iff hsha hacyclic s' t').mp
      ((of_decide_eq_true hskey).trans (of_decide_eq_true htkey).symm)
    exact (sameControl_iff halike).mpr (hclear s' hsmem t' htmem halike hsummary)

end Detect

/-! ### Two functions -/

/-- Two functions, of which one returns the value that the other one only computes. -/
def expressionsSource : Text :=
  lit "int f(int x) \x7b x = 1; return x; \x7d int g(int x) \x7b x = 1; x; \x7d"

/-- Its segments. -/
def expressionsSegments : List Segment := (parseCFile .ascii {} expressionsSource).getD []

theorem parse_expressionsSource :
    parseCFile .ascii {} expressionsSource = some expressionsSegments :=
  eq_some_getD (by decide +kernel) _

theorem numbered_expressions : ∀ segs ∈ [expressionsSegments], Numbered segs := by
  rintro segs hsegs
  obtain rfl := List.mem_singleton.mp hsegs
  exact numbered_parseCFile parse_expressionsSource

theorem detectType4_sound_iff_expressions :
    ∃ classes, detectType4 (mergeSegments [expressionsSegments]) id 2 = some classes ∧
      (ClassesSound (mergeSegments [expressionsSegments]) classes ↔
        ∀ s ∈ fnSegments (mergeSegments [expressionsSegments]) 2,
          ∀ t ∈ fnSegments (mergeSegments [expressionsSegments]) 2,
            Alike (mergeSegments [expressionsSegments]) s t →
            SameSummary (mergeSegments [expressionsSegments]) s t →
              ¬ Confused (mergeSegments [expressionsSegments]) s t) :=
  detectType4_sound_iff Function.injective_id (nodup_mergeSegments numbered_expressions)
    (acyclic_mergeSegments numbered_expressions) 2

/-- **A function that returns a value and one that does not** are in one class. -/
theorem not_sameControl_expressions :
    ¬ ∀ (file : Text) (segs : List Segment) (classes : List SemanticClone),
      parseCFile .ascii {} file = some segs →
      detectType4 (mergeSegments [segs]) id 2 = some classes →
      ClassesSound (mergeSegments [segs]) classes := by
  intro h
  have hdetect : detectType4 (mergeSegments [expressionsSegments]) id 2
      = some ((detectType4 (mergeSegments [expressionsSegments]) id 2).getD []) :=
    eq_some_getD (by decide +kernel) _
  have hpair : ∃ clone ∈ (detectType4 (mergeSegments [expressionsSegments]) id 2).getD [],
      ∃ o ∈ clone.occurrences, ∃ p ∈ clone.occurrences, o.segId = 1 ∧ p.segId = 2 := by
    decide +kernel
  obtain ⟨clone, hclone, o, ho, p, hp, ho', hp'⟩ := hpair
  obtain ⟨s, hs⟩ := Option.isSome_iff_exists.mp
    (show (segById (mergeSegments [expressionsSegments]) o.segId).isSome by rw [ho']; decide +kernel)
  obtain ⟨t, ht⟩ := Option.isSome_iff_exists.mp
    (show (segById (mergeSegments [expressionsSegments]) p.segId).isSome by rw [hp']; decide +kernel)
  obtain ⟨hkinds, -, -⟩ := h _ _ _ parse_expressionsSource hdetect clone hclone o ho p hp s t hs ht
  have hdiffer : (segById (mergeSegments [expressionsSegments]) 1).map
      (fun seg => seg.stmts.map Statement.kind)
        ≠ (segById (mergeSegments [expressionsSegments]) 2).map
          fun seg => seg.stmts.map Statement.kind := by decide +kernel
  rw [← ho', ← hp', hs, ht] at hdiffer
  exact hdiffer (congrArg some hkinds)

end Csc512
