import Csc512.Cdup.Dag
import Csc512.Cdup.PyValue
import Csc512.Lib.JsonWriter

/-!
# The intermediate representation as JSON

The stages of the pipeline are separate commands: one writes the representation as a JSON document,
and the next one reads it. Records become objects, where a field that has its default value, or a
text that is empty, is left out. An expression in a row of the matrix has the same members as in its
statement, but not always in the same order.

## Main results

* `loads_irText` — a later stage decodes the document that was written
* `readSegments_irDoc` — and finds in it the fields of every slot, statement and segment
-/

namespace Csc512

/-! ### Members -/

/-- The name of a member. -/
def key (name : String) : CodePoints := codePoints name.toList

/-- A text. -/
def textDoc (s : Text) : Json := .str (codePoints s)

/-- A text that may be missing. -/
def optTextDoc (s : Option Text) : Json := s.elim .null textDoc

def textsDoc (texts : List Text) : Json := .list (texts.map textDoc)

/-- A member that is left out where the text is missing or empty. -/
def optMember (name : String) (s : Option Text) : List (CodePoints × Json) :=
  (s.filter (· ≠ [])).elim [] fun s => [(key name, textDoc s)]

/-- A member that is left out where it is false. -/
def flagMember (name : String) (b : Bool) : List (CodePoints × Json) :=
  if b then [(key name, .bool true)] else []

/-! ### Names -/

def BinOp.jsonName : BinOp → String
  | .add => "add" | .sub => "sub" | .mul => "mul" | .div => "div" | .mod => "mod"
  | .bitAnd => "bit_and" | .bitOr => "bit_or" | .bitXor => "bit_xor" | .shl => "shl" | .shr => "shr"
  | .cmpEq => "cmp_eq" | .cmpNe => "cmp_ne" | .cmpLt => "cmp_lt" | .cmpGt => "cmp_gt"
  | .cmpLe => "cmp_le" | .cmpGe => "cmp_ge" | .logAnd => "log_and" | .logOr => "log_or"

def UnOp.jsonName : UnOp → String
  | .neg => "neg" | .logNot => "log_not" | .bitNot => "bit_not" | .addrOf => "addr_of"
  | .deref => "deref"

def StepOp.jsonName : StepOp → String
  | .postInc => "post_inc" | .postDec => "post_dec" | .preInc => "pre_inc" | .preDec => "pre_dec"

def Kind.jsonName : Kind → String
  | .decl => "decl" | .assign => "assign" | .branch => "branch" | .loopHead => "loop_head"
  | .control => "control" | .call => "call" | .funcDecl => "func_decl" | .expr => "expr"

def SegType.jsonName : SegType → String
  | .root => "root" | .function => "function" | .loop => "loop" | .branch => "branch"
  | .struct => "struct" | .cls => "class"

def RowKind.jsonName : RowKind → String
  | .stmt kind => kind.jsonName
  | .phi => "phi"

def RowNote.jsonName : RowNote → String
  | .loopEntry => "loop_entry" | .branchReconvergence => "branch_reconvergence"

def NodeKind.jsonName : NodeKind → String
  | .row kind => kind.jsonName
  | .fileEntry => "file_entry" | .structDef => "struct_def" | .funcEntry => "func_entry"

def NodeNote.jsonName : NodeNote → String
  | .phi note => note.jsonName
  | .synthetic => "synthetic"

def EdgeKind.jsonName : EdgeKind → String
  | .dataFlow => "data_flow" | .phiLoop => "phi_loop" | .phiBranch => "phi_branch"

/-- A name out of a fixed list. -/
def nameDoc (name : String) : Json := textDoc name.toList

/-! ### Expressions -/

section Records

variable (U : CharTable)

/-- The object of a constant. -/
def constDoc : Const → Json
  | .int v => .obj [(key "const", .int v), (key "type", nameDoc "int")]
  | .float src => .obj [(key "const", .float ((floatOfText U src).getD .nan)),
      (key "type", nameDoc "float")]
  | .char src => .obj [(key "const", textDoc src), (key "type", nameDoc "char")]
  | .string src => .obj [(key "const", textDoc src), (key "type", nameDoc "string")]

/-- The object of an operator. What an operator has besides its operands stands behind them in a
resolved tree. -/
def opDoc (resolved : Bool) (op : String) (extra : List (CodePoints × Json)) (args : List Json) :
    Json :=
  if resolved then .obj ((key "op", nameDoc op) :: (key "args", .list args) :: extra)
  else .obj ((key "op", nameDoc op) :: (extra ++ [(key "args", .list args)]))

mutual

/-- The object of an expression. -/
def exprDoc (resolved : Bool) : Expr → Json
  | .name n => .obj [(key "name", textDoc n)]
  | .slot s => .obj [(key "slot", textDoc s)]
  | .const c => constDoc U c
  | .bin op left right =>
    opDoc resolved op.jsonName [] [exprDoc resolved left, exprDoc resolved right]
  | .un op arg => opDoc resolved op.jsonName [] [exprDoc resolved arg]
  | .step op arg => opDoc resolved op.jsonName [] [exprDoc resolved arg]
  | .index arr idx => opDoc resolved "index" [] [exprDoc resolved arr, exprDoc resolved idx]
  | .field obj field => opDoc true "field" [(key "field", textDoc field)] [exprDoc resolved obj]
  | .call fn args => opDoc resolved "call" [(key "fn", textDoc fn)] (exprDocs resolved args)
  | .cast type arg => opDoc resolved "cast" [(key "type", textDoc type)] [exprDoc resolved arg]
  | .sizeofType of => opDoc true "sizeof" [(key "of", textDoc of)] []
  | .sizeofExpr arg => opDoc true "sizeof" [(key "of", .null)] [exprDoc resolved arg]

/-- The objects of the arguments of a call. -/
def exprDocs (resolved : Bool) : List Expr → List Json
  | [] => []
  | e :: es => exprDoc resolved e :: exprDocs resolved es

end

/-! ### Records -/

/-- `Slot.to_dict`. -/
def Slot.toDict (slot : Slot) : Json :=
  .obj ([(key "name", textDoc slot.name), (key "scoped_name", textDoc slot.scopedName),
      (key "type", textDoc slot.type), (key "constant", .bool slot.constant)] ++
    (flagMember "param" slot.param ++ (flagMember "loop_iterator" slot.loopIterator ++
      (slot.value.elim [] (fun v => [(key "value", textDoc v)]) ++
        (optMember "udt_parent" slot.udtParent ++ optMember "udt_type" slot.udtType)))))

/-- `Statement.to_dict`. -/
def Statement.toDict (stmt : Statement) : Json :=
  .obj ([(key "raw", textDoc stmt.raw), (key "kind", nameDoc stmt.kind.jsonName),
      (key "l_name", optTextDoc stmt.lName), (key "r_names", textsDoc stmt.rNames)] ++
    (stmt.expr.elim [] (fun e => [(key "expr", exprDoc U false e)]) ++
      (optMember "type" stmt.type ++ optMember "iterator_type" stmt.iteratorType)))

/-- `Segment.to_dict`. -/
def Segment.toDict (seg : Segment) : Json :=
  .obj [(key "id", .int seg.id), (key "parent", .int seg.parent),
    (key "type", nameDoc seg.type.jsonName), (key "name", textDoc seg.name),
    (key "scope_path", textDoc seg.scopePath), (key "head", optTextDoc seg.head),
    (key "memory", .list (seg.memory.map Slot.toDict)),
    (key "constants", .list (seg.constants.map Slot.toDict)),
    (key "stmts", .list (seg.stmts.map (Statement.toDict U)))]

/-- The members that a row of the matrix and a node of the graph share. -/
def accessMembers (kind : String) (segId : Option ℕ) (scopePath : Option Text) (raw : Text)
    (reads writes decls : List Text) (note : Option String) (expr : Option Expr) :
    List (CodePoints × Json) :=
  [(key "kind", nameDoc kind), (key "seg_id", segId.elim .null fun id => .int id),
    (key "scope_path", optTextDoc scopePath), (key "raw", textDoc raw),
    (key "reads", textsDoc reads), (key "writes", textsDoc writes), (key "decls", textsDoc decls),
    (key "note", note.elim .null nameDoc)] ++
  expr.elim [] fun e => [(key "expr", exprDoc U true e)]

/-- A row of the matrix. -/
def rowDoc (row : Row) : Json :=
  .obj (accessMembers U row.kind.jsonName row.segId row.scopePath row.raw row.reads row.writes
    row.decls (row.note.map RowNote.jsonName) row.expr)

/-- A node of the graph. -/
def nodeDoc (node : Node) : Json :=
  .obj ((key "id", .int node.id) :: accessMembers U node.kind.jsonName node.segId node.scopePath
    node.raw node.reads node.writes node.decls (node.note.map NodeNote.jsonName) node.expr)

/-- An edge of the graph. -/
def edgeDoc (e : Edge) : Json :=
  .obj [(key "from", .int e.source), (key "to", .int e.target), (key "slot", textDoc e.slot),
    (key "kind", nameDoc e.kind.jsonName)]

/-- A representation: the segments of a file, the matrix and the data-flow graph. -/
structure IrDocument where
  segments : List Segment
  matrix : Matrix
  dag : Dag

/-- The document of a representation. -/
def irDoc (ir : IrDocument) : Json :=
  .obj [(key "segments", .list (ir.segments.map (Segment.toDict U))),
    (key "matrix", .obj [(key "slots", textsDoc ir.matrix.slots),
      (key "rows", .list (ir.matrix.rows.map (rowDoc U)))]),
    (key "dag", .obj [(key "nodes", .list (ir.dag.nodes.map (nodeDoc U))),
      (key "edges", .list (ir.dag.edges.map edgeDoc))])]

/-- What `parse_c_file` returns for a representation; `repr` prints floating point numbers. -/
def irText (repr : Double → Text) (ir : IrDocument) : Text := Json.dumps repr 2 (irDoc U ir)

end Records

/-! ### What can be written -/

mutual

/-- The nesting of the object of an expression. -/
def Expr.nesting : Expr → ℕ
  | .name _ | .slot _ | .const _ => 1
  | .bin _ left right => max left.nesting right.nesting + 2
  | .un _ arg | .step _ arg | .field arg _ | .cast _ arg | .sizeofExpr arg => arg.nesting + 2
  | .index arr idx => max arr.nesting idx.nesting + 2
  | .call _ args => Expr.nestings args + 2
  | .sizeofType _ => 2

/-- The greatest nesting of some expressions. -/
def Expr.nestings : List Expr → ℕ
  | [] => 0
  | e :: es => max e.nesting (Expr.nestings es)

end

mutual

/-- The constants of an expression. -/
def Expr.constants : Expr → List Const
  | .name _ | .slot _ | .sizeofType _ => []
  | .const c => [c]
  | .bin _ left right => left.constants ++ right.constants
  | .un _ arg | .step _ arg | .field arg _ | .cast _ arg | .sizeofExpr arg => arg.constants
  | .index arr idx => arr.constants ++ idx.constants
  | .call _ args => Expr.constantsOf args

def Expr.constantsOf : List Expr → List Const
  | [] => []
  | e :: es => e.constants ++ Expr.constantsOf es

end

section Writable

variable {U : CharTable} {limits : Json.Limits} {repr : Double → Text}

variable (U limits repr) in
/-- A constant is within the bounds of the decoder, and its floating point number is printed
faithfully. -/
def Const.Fits : Const → Prop
  | .int v => limits.Allows v.natAbs
  | .float src => Json.ReadsBack limits repr ((floatOfText U src).getD .nan)
  | .char _ | .string _ => True

variable (U limits repr) in
/-- An expression whose object can be written at a nesting of `depth`. -/
structure Expr.Fits (depth : ℕ) (e : Expr) : Prop where
  nesting : e.nesting ≤ depth
  constants : ∀ c ∈ e.constants, c.Fits U limits repr

theorem Expr.Fits.succ {depth : ℕ} {e : Expr} (h : e.Fits U limits repr depth) :
    e.Fits U limits repr (depth + 1) :=
  ⟨h.nesting.trans (Nat.le_succ depth), h.constants⟩

theorem writable_textDoc (s : Text) (depth : ℕ) : Json.Writable limits repr depth (textDoc s) :=
  Json.writable_codePoints s depth

theorem writable_nameDoc (name : String) (depth : ℕ) :
    Json.Writable limits repr depth (nameDoc name) :=
  writable_textDoc _ depth

theorem writable_optTextDoc (s : Option Text) (depth : ℕ) :
    Json.Writable limits repr depth (optTextDoc s) := by
  cases s with
  | none => exact Json.writable_null depth
  | some s => exact writable_textDoc s depth

theorem writable_textsDoc (texts : List Text) (depth : ℕ) :
    Json.Writable limits repr (depth + 1) (textsDoc texts) := by
  intro v hv
  obtain ⟨s, -, rfl⟩ := List.mem_map.mp hv
  exact writable_textDoc s depth

/-- A list of objects that can be written. -/
theorem writable_list {α : Type} {f : α → Json} {l : List α} {depth : ℕ}
    (h : ∀ a ∈ l, Json.Writable limits repr depth (f a)) :
    Json.Writable limits repr (depth + 1) (.list (l.map f)) := by
  intro v hv
  obtain ⟨a, ha, rfl⟩ := List.mem_map.mp hv
  exact h a ha

/-- Members whose keys are among some different names, in their order. -/
theorem writable_obj {es : List (CodePoints × Json)} {depth : ℕ} (names : List String)
    (hkeys : (es.map Prod.fst).Sublist (names.map key)) (hnodup : (names.map key).Nodup)
    (hes : ∀ e ∈ es, Json.Writable limits repr depth e.2) :
    Json.Writable limits repr (depth + 1) (.obj es) := by
  refine ⟨hkeys.nodup hnodup, fun e he => ⟨?_, hes e he⟩⟩
  obtain ⟨name, -, hname⟩ := List.mem_map.mp (hkeys.subset (List.mem_map_of_mem he))
  rw [← hname]
  exact Json.encodable_codePoints _

theorem mem_optMember {name : String} {s : Option Text} {e : CodePoints × Json}
    (h : e ∈ optMember name s) : ∃ t, e = (key name, textDoc t) := by
  unfold optMember at h
  cases hs : s.filter (· ≠ []) with
  | none =>
    rw [hs] at h
    exact absurd h List.not_mem_nil
  | some t =>
    rw [hs] at h
    exact ⟨t, List.mem_singleton.mp h⟩

theorem optMember_keys (name : String) (s : Option Text) :
    ((optMember name s).map Prod.fst).Sublist [key name] := by
  unfold optMember
  cases s.filter (· ≠ []) with
  | none => exact List.nil_sublist _
  | some t => exact List.Sublist.refl _

theorem flagMember_keys (name : String) (b : Bool) :
    ((flagMember name b).map Prod.fst).Sublist [key name] := by
  cases b with
  | false => exact List.nil_sublist _
  | true => exact List.Sublist.refl _

theorem elim_keys {α : Type} (name : String) (x : Option α) (f : α → Json) :
    ((x.elim [] fun a => [(key name, f a)]).map Prod.fst).Sublist [key name] := by
  cases x with
  | none => exact List.nil_sublist _
  | some a => exact List.Sublist.refl _

/-! ### Expressions -/

theorem writable_constDoc {c : Const} (h : c.Fits U limits repr) (depth : ℕ) :
    Json.Writable limits repr (depth + 1) (constDoc U c) := by
  have hpair : ∀ v type, Json.Writable limits repr depth v →
      Json.Writable limits repr (depth + 1)
        (.obj [(key "const", v), (key "type", nameDoc type)]) := by
    intro v type hv
    refine writable_obj ["const", "type"] (List.Sublist.refl _) (by decide) fun e he => ?_
    rcases List.mem_cons.mp he with rfl | he
    · exact hv
    · obtain rfl := List.mem_singleton.mp he
      exact writable_nameDoc type depth
  cases c with
  | int v => exact hpair _ _ (Json.writable_int h depth)
  | float src => exact hpair _ _ (Json.writable_float h depth)
  | char src => exact hpair _ _ (writable_textDoc src depth)
  | string src => exact hpair _ _ (writable_textDoc src depth)

/-- An operator with at most one further member. -/
theorem writable_opDoc {resolved : Bool} {op : String} {extra : List (CodePoints × Json)}
    {args : List Json} {depth : ℕ} (names : List String)
    (hkeys : extra.map Prod.fst = names.map key)
    (hnodup : (("op" :: "args" :: names).map key).Nodup)
    (hextra : ∀ e ∈ extra, Json.Writable limits repr (depth + 1) e.2)
    (hargs : ∀ v ∈ args, Json.Writable limits repr depth v) :
    Json.Writable limits repr (depth + 2) (opDoc resolved op extra args) := by
  have hall : ∀ e ∈ (key "op", nameDoc op) :: (key "args", Json.list args) :: extra,
      Json.Writable limits repr (depth + 1) e.2 := by
    intro e he
    rcases List.mem_cons.mp he with rfl | he
    · exact writable_nameDoc op _
    · rcases List.mem_cons.mp he with rfl | he
      · exact hargs
      · exact hextra e he
  unfold opDoc
  cases resolved with
  | true =>
    rw [if_pos rfl]
    exact writable_obj ("op" :: "args" :: names) (by simp [hkeys]) hnodup hall
  | false =>
    rw [if_neg Bool.false_ne_true]
    refine writable_obj ("op" :: (names ++ ["args"])) (by simp [hkeys]) ?_ fun e he => hall e ?_
    · refine (List.Perm.nodup_iff ?_).mp hnodup
      refine List.Perm.map _ (List.Perm.cons _ ?_)
      exact (List.perm_append_singleton _ _).symm
    · simp only [List.mem_cons, List.mem_append, List.not_mem_nil, or_false] at he ⊢
      tauto

theorem forall_mem_pair {v w : Json} {depth : ℕ} (hv : Json.Writable limits repr depth v)
    (hw : Json.Writable limits repr depth w) :
    ∀ u ∈ [v, w], Json.Writable limits repr depth u := by
  intro u hu
  rcases List.mem_cons.mp hu with rfl | hu
  · exact hv
  · obtain rfl := List.mem_singleton.mp hu
    exact hw

theorem forall_mem_one {α : Type} {P : α → Prop} {a : α} (h : P a) : ∀ b ∈ [a], P b := by
  intro b hb
  obtain rfl := List.mem_singleton.mp hb
  exact h

mutual

/-- The object of an expression that fits. -/
theorem writable_exprDoc (resolved : Bool) (e : Expr) (depth : ℕ) (hdepth : e.nesting ≤ depth)
    (h : ∀ c ∈ e.constants, c.Fits U limits repr) :
    Json.Writable limits repr depth (exprDoc U resolved e) := by
  have honly : ∀ name s, 1 ≤ depth →
      Json.Writable limits repr depth (.obj [(key name, textDoc s)]) := by
    intro name s hpos
    obtain ⟨depth, rfl⟩ := Nat.exists_eq_add_of_le' hpos
    exact writable_obj [name] (List.Sublist.refl _) (List.nodup_singleton _)
      (forall_mem_one (writable_textDoc s depth))
  cases e with
  | name n => exact honly _ n hdepth
  | slot s => exact honly _ s hdepth
  | const c =>
    obtain ⟨depth, rfl⟩ := Nat.exists_eq_add_of_le' hdepth
    exact writable_constDoc (h c List.mem_cons_self) depth
  | bin op left right =>
    simp only [Expr.nesting] at hdepth
    simp only [Expr.constants, List.mem_append] at h
    obtain ⟨depth, rfl⟩ := Nat.exists_eq_add_of_le' (le_of_add_le_right hdepth)
    exact writable_opDoc [] rfl (by decide) nofun
      (forall_mem_pair
        (writable_exprDoc resolved left depth (by omega) fun c hc => h c (Or.inl hc))
        (writable_exprDoc resolved right depth (by omega) fun c hc => h c (Or.inr hc)))
  | un op arg =>
    simp only [Expr.nesting] at hdepth
    obtain ⟨depth, rfl⟩ := Nat.exists_eq_add_of_le' (le_of_add_le_right hdepth)
    exact writable_opDoc [] rfl (by decide) nofun
      (forall_mem_one (writable_exprDoc resolved arg depth (by omega) h))
  | step op arg =>
    simp only [Expr.nesting] at hdepth
    obtain ⟨depth, rfl⟩ := Nat.exists_eq_add_of_le' (le_of_add_le_right hdepth)
    exact writable_opDoc [] rfl (by decide) nofun
      (forall_mem_one (writable_exprDoc resolved arg depth (by omega) h))
  | index arr idx =>
    simp only [Expr.nesting] at hdepth
    simp only [Expr.constants, List.mem_append] at h
    obtain ⟨depth, rfl⟩ := Nat.exists_eq_add_of_le' (le_of_add_le_right hdepth)
    exact writable_opDoc [] rfl (by decide) nofun
      (forall_mem_pair
        (writable_exprDoc resolved arr depth (by omega) fun c hc => h c (Or.inl hc))
        (writable_exprDoc resolved idx depth (by omega) fun c hc => h c (Or.inr hc)))
  | field arg field =>
    simp only [Expr.nesting] at hdepth
    obtain ⟨depth, rfl⟩ := Nat.exists_eq_add_of_le' (le_of_add_le_right hdepth)
    exact writable_opDoc ["field"] rfl (by decide) (forall_mem_one (writable_textDoc field _))
      (forall_mem_one (writable_exprDoc resolved arg depth (by omega) h))
  | call fn args =>
    simp only [Expr.nesting] at hdepth
    obtain ⟨depth, rfl⟩ := Nat.exists_eq_add_of_le' (le_of_add_le_right hdepth)
    exact writable_opDoc ["fn"] rfl (by decide) (forall_mem_one (writable_textDoc fn _))
      (writable_exprDocs resolved args depth (by omega) h)
  | cast type arg =>
    simp only [Expr.nesting] at hdepth
    obtain ⟨depth, rfl⟩ := Nat.exists_eq_add_of_le' (le_of_add_le_right hdepth)
    exact writable_opDoc ["type"] rfl (by decide) (forall_mem_one (writable_textDoc type _))
      (forall_mem_one (writable_exprDoc resolved arg depth (by omega) h))
  | sizeofType of =>
    obtain ⟨depth, rfl⟩ := Nat.exists_eq_add_of_le' hdepth
    exact writable_opDoc ["of"] rfl (by decide) (forall_mem_one (writable_textDoc of _))
      nofun
  | sizeofExpr arg =>
    simp only [Expr.nesting] at hdepth
    obtain ⟨depth, rfl⟩ := Nat.exists_eq_add_of_le' (le_of_add_le_right hdepth)
    exact writable_opDoc ["of"] rfl (by decide) (forall_mem_one (Json.writable_null _))
      (forall_mem_one (writable_exprDoc resolved arg depth (by omega) h))

theorem writable_exprDocs (resolved : Bool) (es : List Expr) (depth : ℕ)
    (hdepth : Expr.nestings es ≤ depth)
    (h : ∀ c ∈ Expr.constantsOf es, c.Fits U limits repr) :
    ∀ v ∈ exprDocs U resolved es, Json.Writable limits repr depth v := by
  cases es with
  | nil => exact nofun
  | cons e es =>
    simp only [Expr.nestings] at hdepth
    simp only [Expr.constantsOf, List.mem_append] at h
    intro v hv
    rcases List.mem_cons.mp hv with rfl | hv
    · exact writable_exprDoc resolved e depth (by omega) fun c hc => h c (Or.inl hc)
    · exact writable_exprDocs resolved es depth (by omega) (fun c hc => h c (Or.inr hc)) v hv

end

/-! ### Records -/

theorem writable_slot (slot : Slot) (depth : ℕ) :
    Json.Writable limits repr (depth + 1) slot.toDict := by
  refine writable_obj ["name", "scoped_name", "type", "constant", "param", "loop_iterator", "value",
    "udt_parent", "udt_type"] ?_ (by decide) fun e he => ?_
  · simp only [List.map_append]
    exact (List.Sublist.refl _).append ((flagMember_keys _ _).append ((flagMember_keys _ _).append
      ((elim_keys _ _ _).append ((optMember_keys _ _).append (optMember_keys _ _)))))
  · have hopt : ∀ name s, e ∈ optMember name s → Json.Writable limits repr depth e.2 := by
      intro name s he
      obtain ⟨t, rfl⟩ := mem_optMember he
      exact writable_textDoc t depth
    have hflag : ∀ name b, e ∈ flagMember name b → Json.Writable limits repr depth e.2 := by
      intro name b he
      cases b with
      | false => exact absurd he List.not_mem_nil
      | true =>
        obtain rfl := List.mem_singleton.mp he
        exact Json.writable_bool depth true
    simp only [List.mem_append] at he
    rcases he with he | he | he | he | he | he
    · simp only [List.mem_cons, List.not_mem_nil, or_false] at he
      rcases he with rfl | rfl | rfl | rfl
      · exact writable_textDoc _ _
      · exact writable_textDoc _ _
      · exact writable_textDoc _ _
      · exact Json.writable_bool _ _
    · exact hflag _ _ he
    · exact hflag _ _ he
    · cases hv : slot.value with
      | none =>
        rw [hv] at he
        exact absurd he List.not_mem_nil
      | some v =>
        rw [hv] at he
        obtain rfl := List.mem_singleton.mp he
        exact writable_textDoc v depth
    · exact hopt _ _ he
    · exact hopt _ _ he

/-- A member for an expression that may be missing. -/
theorem writable_exprMember {resolved : Bool} {expr : Option Expr} {depth : ℕ}
    (h : ∀ e ∈ expr, e.Fits U limits repr depth) {m : CodePoints × Json}
    (hm : m ∈ expr.elim [] fun e => [(key "expr", exprDoc U resolved e)]) :
    Json.Writable limits repr depth m.2 := by
  cases expr with
  | none => exact absurd hm List.not_mem_nil
  | some e =>
    obtain rfl := List.mem_singleton.mp hm
    have he := h e rfl
    exact writable_exprDoc resolved e depth he.nesting he.constants

theorem writable_statement {stmt : Statement} {depth : ℕ}
    (h : ∀ e ∈ stmt.expr, e.Fits U limits repr (depth + 1)) :
    Json.Writable limits repr (depth + 2) (stmt.toDict U) := by
  refine writable_obj ["raw", "kind", "l_name", "r_names", "expr", "type", "iterator_type"] ?_
    (by decide) fun e he => ?_
  · simp only [List.map_append]
    exact (List.Sublist.refl _).append ((elim_keys _ _ _).append
      ((optMember_keys _ _).append (optMember_keys _ _)))
  · have hopt : ∀ name s, e ∈ optMember name s → Json.Writable limits repr (depth + 1) e.2 := by
      intro name s he
      obtain ⟨t, rfl⟩ := mem_optMember he
      exact writable_textDoc t _
    simp only [List.mem_append] at he
    rcases he with he | he | he | he
    · simp only [List.mem_cons, List.not_mem_nil, or_false] at he
      rcases he with rfl | rfl | rfl | rfl
      · exact writable_textDoc _ _
      · exact writable_nameDoc _ _
      · exact writable_optTextDoc _ _
      · exact writable_textsDoc _ _
    · exact writable_exprMember h he
    · exact hopt _ _ he
    · exact hopt _ _ he

theorem writable_segment {seg : Segment} {depth : ℕ} (hid : limits.Allows seg.id)
    (hparent : limits.Allows seg.parent)
    (h : ∀ stmt ∈ seg.stmts, ∀ e ∈ stmt.expr, e.Fits U limits repr (depth + 1)) :
    Json.Writable limits repr (depth + 4) (seg.toDict U) := by
  refine writable_obj ["id", "parent", "type", "name", "scope_path", "head", "memory", "constants",
    "stmts"] (List.Sublist.refl _) (by decide) fun e he => ?_
  simp only [List.mem_cons, List.not_mem_nil, or_false] at he
  rcases he with rfl | rfl | rfl | rfl | rfl | rfl | rfl | rfl | rfl
  · exact Json.writable_int hid _
  · exact Json.writable_int hparent _
  · exact writable_nameDoc _ _
  · exact writable_textDoc _ _
  · exact writable_textDoc _ _
  · exact writable_optTextDoc _ _
  · exact writable_list fun slot _ => writable_slot slot _
  · exact writable_list fun slot _ => writable_slot slot _
  · exact writable_list fun stmt hstmt => writable_statement (h stmt hstmt)

/-- The members that rows and nodes share. -/
theorem writable_accessMembers {kind : String} {segId : Option ℕ} {scopePath : Option Text}
    {raw : Text} {reads writes decls : List Text} {note : Option String} {expr : Option Expr}
    {depth : ℕ} (hid : ∀ n ∈ segId, limits.Allows n)
    (h : ∀ e ∈ expr, e.Fits U limits repr (depth + 1)) :
    ∀ m ∈ accessMembers U kind segId scopePath raw reads writes decls note expr,
      Json.Writable limits repr (depth + 1) m.2 := by
  intro m hm
  rw [accessMembers, List.mem_append] at hm
  rcases hm with hm | hm
  · simp only [List.mem_cons, List.not_mem_nil, or_false] at hm
    rcases hm with rfl | rfl | rfl | rfl | rfl | rfl | rfl | rfl
    · exact writable_nameDoc _ _
    · cases segId with
      | none => exact Json.writable_null _
      | some n => exact Json.writable_int (hid n rfl) _
    · exact writable_optTextDoc _ _
    · exact writable_textDoc _ _
    · exact writable_textsDoc _ _
    · exact writable_textsDoc _ _
    · exact writable_textsDoc _ _
    · cases note with
      | none => exact Json.writable_null _
      | some note => exact writable_nameDoc _ _
  · exact writable_exprMember h hm

theorem accessMembers_keys (kind : String) (segId : Option ℕ) (scopePath : Option Text)
    (raw : Text) (reads writes decls : List Text) (note : Option String) (expr : Option Expr) :
    ((accessMembers U kind segId scopePath raw reads writes decls note expr).map Prod.fst).Sublist
      (["kind", "seg_id", "scope_path", "raw", "reads", "writes", "decls", "note",
        "expr"].map key) := by
  rw [accessMembers, List.map_append]
  exact (List.Sublist.refl _).append (elim_keys _ _ _)

theorem writable_rowDoc {row : Row} {depth : ℕ} (hid : ∀ n ∈ row.segId, limits.Allows n)
    (h : ∀ e ∈ row.expr, e.Fits U limits repr (depth + 1)) :
    Json.Writable limits repr (depth + 2) (rowDoc U row) :=
  writable_obj _ (accessMembers_keys _ _ _ _ _ _ _ _ _) (by decide)
    (writable_accessMembers hid h)

theorem writable_nodeDoc {node : Node} {depth : ℕ} (hnode : limits.Allows node.id)
    (hid : ∀ n ∈ node.segId, limits.Allows n)
    (h : ∀ e ∈ node.expr, e.Fits U limits repr (depth + 1)) :
    Json.Writable limits repr (depth + 2) (nodeDoc U node) := by
  refine writable_obj ("id" :: _) ((accessMembers_keys _ _ _ _ _ _ _ _ _).cons_cons _) (by decide)
    fun m hm => ?_
  rcases List.mem_cons.mp hm with rfl | hm
  · exact Json.writable_int hnode _
  · exact writable_accessMembers hid h m hm

theorem writable_edgeDoc {e : Edge} {depth : ℕ} (hsource : limits.Allows e.source)
    (htarget : limits.Allows e.target) :
    Json.Writable limits repr (depth + 1) (edgeDoc e) := by
  refine writable_obj ["from", "to", "slot", "kind"] (List.Sublist.refl _) (by decide)
    fun m hm => ?_
  simp only [List.mem_cons, List.not_mem_nil, or_false] at hm
  rcases hm with rfl | rfl | rfl | rfl
  · exact Json.writable_int hsource _
  · exact Json.writable_int htarget _
  · exact writable_textDoc _ _
  · exact writable_nameDoc _ _

/-! ### Documents -/

/-- The numbers in a representation: the ids of segments and nodes, wherever they stand. -/
def IrDocument.numbers (ir : IrDocument) : List ℕ :=
  (ir.segments.flatMap fun seg => [seg.id, seg.parent]) ++
    (ir.matrix.rows.filterMap Row.segId ++ ((ir.dag.nodes.map Node.id) ++
      (ir.dag.nodes.filterMap Node.segId ++ ir.dag.edges.flatMap fun e => [e.source, e.target])))

/-- The expressions in a representation. -/
def IrDocument.exprs (ir : IrDocument) : List Expr :=
  (ir.segments.flatMap fun seg => seg.stmts.filterMap Statement.expr) ++
    (ir.matrix.rows.filterMap Row.expr ++ ir.dag.nodes.filterMap Node.expr)

variable (U limits repr) in
/-- A representation within the bounds of the decoder: its expressions are not nested too deeply,
its numbers have not too many digits, and its floating point numbers are printed faithfully. -/
structure IrDocument.Fits (ir : IrDocument) : Prop where
  depth : 6 ≤ limits.depth
  numbers : ∀ n ∈ ir.numbers, limits.Allows n
  exprs : ∀ e ∈ ir.exprs, e.Fits U limits repr (limits.depth - 5)

theorem writable_irDoc {ir : IrDocument} (h : ir.Fits U limits repr) :
    Json.Writable limits repr limits.depth (irDoc U ir) := by
  obtain ⟨depth, hdepth⟩ : ∃ m, limits.depth = m + 6 :=
    ⟨limits.depth - 6, by have := h.depth; omega⟩
  have hexprs : ∀ e ∈ ir.exprs, e.Fits U limits repr (depth + 1) := by
    intro e he
    have hfits := h.exprs e he
    rwa [hdepth] at hfits
  have hnumbers := h.numbers
  simp only [IrDocument.exprs, IrDocument.numbers, List.mem_append, List.mem_flatMap,
    List.mem_filterMap, List.mem_map] at hexprs hnumbers
  rw [hdepth]
  refine writable_obj ["segments", "matrix", "dag"] (List.Sublist.refl _) (by decide) fun m hm => ?_
  simp only [List.mem_cons, List.not_mem_nil, or_false] at hm
  rcases hm with rfl | rfl | rfl
  · refine writable_list fun seg hseg => writable_segment ?_ ?_ fun stmt hstmt e he => ?_
    · exact hnumbers _ (Or.inl ⟨seg, hseg, by simp⟩)
    · exact hnumbers _ (Or.inl ⟨seg, hseg, by simp⟩)
    · exact hexprs e (Or.inl ⟨seg, hseg, stmt, hstmt, he⟩)
  · refine writable_obj ["slots", "rows"] (List.Sublist.refl _) (by decide) fun m hm => ?_
    simp only [List.mem_cons, List.not_mem_nil, or_false] at hm
    rcases hm with rfl | rfl
    · exact writable_textsDoc _ _
    · refine writable_list fun row hrow => writable_rowDoc (fun n hn => ?_) fun e he => ?_
      · exact hnumbers n (Or.inr (Or.inl ⟨row, hrow, hn⟩))
      · exact (hexprs e (Or.inr (Or.inl ⟨row, hrow, he⟩))).succ
  · refine writable_obj ["nodes", "edges"] (List.Sublist.refl _) (by decide) fun m hm => ?_
    simp only [List.mem_cons, List.not_mem_nil, or_false] at hm
    rcases hm with rfl | rfl
    · refine writable_list fun node hnode =>
        writable_nodeDoc ?_ (fun n hn => ?_) fun e he => ?_
      · exact hnumbers _ (Or.inr (Or.inr (Or.inl ⟨node, hnode, rfl⟩)))
      · exact hnumbers n (Or.inr (Or.inr (Or.inr (Or.inl ⟨node, hnode, hn⟩))))
      · exact (hexprs e (Or.inr (Or.inr ⟨node, hnode, he⟩))).succ
    · refine writable_list fun e he => writable_edgeDoc ?_ ?_
      · exact hnumbers _ (Or.inr (Or.inr (Or.inr (Or.inr ⟨e, he, by simp⟩))))
      · exact hnumbers _ (Or.inr (Or.inr (Or.inr (Or.inr ⟨e, he, by simp⟩))))

end Writable

/-! ### Reading the records -/

/-- A member of an object. -/
def lookup (name : String) (es : List (CodePoints × Json)) : Option Json :=
  (es.find? fun e => e.1 = key name).map Prod.snd

/-- `d.get(name)`. -/
def member? (name : String) : Json → Option Json
  | .obj es => lookup name es
  | _ => none

/-- The text of a value. -/
def readText : Json → Option Text
  | .str s => some (s.map Char.ofNat)
  | _ => none

/-- The text of a value, or nothing for `null`. -/
def readOptText : Json → Option (Option Text)
  | .null => some none
  | v => (readText v).map some

def readBool : Json → Option Bool
  | .bool b => some b
  | _ => none

def readNat : Json → Option ℕ
  | .int (.ofNat n) => some n
  | _ => none

/-- The items of a list. -/
def readList {α : Type} (f : Json → Option α) : Json → Option (List α)
  | .list vs => vs.mapM f
  | _ => none

/-- One of the values with a name. -/
def readName {α : Type} (all : List α) (jsonName : α → String) (v : Json) : Option α :=
  (readText v).bind fun s => all.find? fun a => (jsonName a).toList = s

/-- A slot, as the stages look up its members. -/
def readSlot (v : Json) : Option Slot := do
  let name ← (member? "name" v).bind readText
  let scopedName ← (member? "scoped_name" v).bind readText
  let type ← (member? "type" v).bind readText
  let constant ← (member? "constant" v).bind readBool
  some
    { name, scopedName, type, constant
      param := ((member? "param" v).bind readBool).getD false
      loopIterator := ((member? "loop_iterator" v).bind readBool).getD false
      value := (member? "value" v).bind readText
      udtParent := (member? "udt_parent" v).bind readText
      udtType := (member? "udt_type" v).bind readText }

/-- A statement as the later stages see it: its expression is the object of the expression. -/
structure StatementView where
  raw : Text
  kind : Kind
  lName : Option Text
  rNames : List Text
  expr : Option Json
  type : Option Text
  iteratorType : Option Text

/-- A segment as the later stages see it. -/
structure SegmentView where
  id : ℕ
  parent : ℕ
  type : SegType
  name : Text
  scopePath : Text
  head : Option Text
  memory : List Slot
  constants : List Slot
  stmts : List StatementView

/-- All kinds of statements, and all types of segments. -/
def allKinds : List Kind :=
  [.decl, .assign, .branch, .loopHead, .control, .call, .funcDecl, .expr]

def allSegTypes : List SegType := [.root, .function, .loop, .branch, .struct, .cls]

/-- A statement, as the stages look up its members. -/
def readStatement (v : Json) : Option StatementView := do
  let raw ← (member? "raw" v).bind readText
  let kind ← (member? "kind" v).bind (readName allKinds Kind.jsonName)
  let lName ← (member? "l_name" v).bind readOptText
  let rNames ← (member? "r_names" v).bind (readList readText)
  some
    { raw, kind, lName, rNames
      expr := member? "expr" v
      type := (member? "type" v).bind readText
      iteratorType := (member? "iterator_type" v).bind readText }

/-- A segment, as the stages look up its members. -/
def readSegment (v : Json) : Option SegmentView := do
  let id ← (member? "id" v).bind readNat
  let parent ← (member? "parent" v).bind readNat
  let type ← (member? "type" v).bind (readName allSegTypes SegType.jsonName)
  let name ← (member? "name" v).bind readText
  let scopePath ← (member? "scope_path" v).bind readText
  let head ← (member? "head" v).bind readOptText
  let memory ← (member? "memory" v).bind (readList readSlot)
  let constants ← (member? "constants" v).bind (readList readSlot)
  let stmts ← (member? "stmts" v).bind (readList readStatement)
  some { id, parent, type, name, scopePath, head, memory, constants, stmts }

/-- The segments of a document. -/
def readSegments (v : Json) : Option (List SegmentView) :=
  (member? "segments" v).bind (readList readSegment)

/-! ### What is read -/

/-- A slot without empty texts in its optional fields. -/
def Slot.view (slot : Slot) : Slot :=
  { slot with
    udtParent := slot.udtParent.filter (· ≠ [])
    udtType := slot.udtType.filter (· ≠ []) }

def Statement.view (U : CharTable) (stmt : Statement) : StatementView :=
  { raw := stmt.raw, kind := stmt.kind, lName := stmt.lName, rNames := stmt.rNames
    expr := stmt.expr.map (exprDoc U false)
    type := stmt.type.filter (· ≠ [])
    iteratorType := stmt.iteratorType.filter (· ≠ []) }

def Segment.view (U : CharTable) (seg : Segment) : SegmentView :=
  { id := seg.id, parent := seg.parent, type := seg.type, name := seg.name
    scopePath := seg.scopePath, head := seg.head, memory := seg.memory.map Slot.view
    constants := seg.constants.map Slot.view, stmts := seg.stmts.map (Statement.view U) }

section Read

variable {U : CharTable}

@[simp] theorem map_ofNat_codePoints (s : Text) : (codePoints s).map Char.ofNat = s := by
  simp [codePoints, Function.comp_def, Char.ofNat_toNat]

@[simp] theorem key_inj {a b : String} : key a = key b ↔ a = b := by
  refine ⟨fun h => ?_, fun h => h ▸ rfl⟩
  have htexts : a.toList = b.toList := by
    have hmap := congrArg (List.map Char.ofNat) h
    simpa [key] using hmap
  exact String.toList_injective htexts

@[simp] theorem lookup_nil (name : String) : lookup name [] = none := rfl

@[simp] theorem lookup_cons (name name' : String) (v : Json) (es : List (CodePoints × Json)) :
    lookup name ((key name', v) :: es) = if name' = name then some v else lookup name es := by
  by_cases h : name' = name <;> simp [lookup, h]

@[simp] theorem lookup_append (name : String) (es es' : List (CodePoints × Json)) :
    lookup name (es ++ es') = (lookup name es).or (lookup name es') := by
  rw [lookup, List.find?_append]
  cases h : es.find? fun e => e.1 = key name <;> simp [lookup, h]

@[simp] theorem lookup_optMember (name name' : String) (s : Option Text) :
    lookup name (optMember name' s) =
      if name' = name then (s.filter (· ≠ [])).map textDoc else none := by
  unfold optMember
  cases s.filter (· ≠ []) <;> simp

@[simp] theorem lookup_flagMember (name name' : String) (b : Bool) :
    lookup name (flagMember name' b) = if name' = name ∧ b then some (.bool true) else none := by
  cases b <;> simp [flagMember]

@[simp] theorem lookup_elim {α : Type} (name name' : String) (x : Option α) (f : α → Json) :
    lookup name (x.elim [] fun a => [(key name', f a)]) =
      if name' = name then x.map f else none := by
  cases x <;> simp

@[simp] theorem readText_textDoc (s : Text) : readText (textDoc s) = some s := by
  simp [readText, textDoc]

@[simp] theorem readOptText_optTextDoc (s : Option Text) :
    readOptText (optTextDoc s) = some s := by
  cases s with
  | none => rfl
  | some s =>
    show (readText (textDoc s)).map some = _
    rw [readText_textDoc]
    rfl

theorem mapM_map_eq_some {α β : Type} {f : α → Json} {g : Json → Option β} {view : α → β}
    (h : ∀ a, g (f a) = some (view a)) (l : List α) :
    (l.map f).mapM g = some (l.map view) := by
  induction l with
  | nil => rfl
  | cons a l ih => simp [h, ih]

@[simp] theorem readList_textsDoc (texts : List Text) :
    readList readText (textsDoc texts) = some texts := by
  have hread := mapM_map_eq_some readText_textDoc texts
  rw [List.map_id'] at hread
  exact hread

/-- A name is read as what it is the name of. -/
theorem readName_nameDoc {α : Type} {all : List α} {jsonName : α → String} {a : α} (ha : a ∈ all)
    (hinj : ∀ b ∈ all, jsonName b = jsonName a → b = a) :
    readName all jsonName (nameDoc (jsonName a)) = some a := by
  rw [readName, nameDoc, readText_textDoc, Option.bind_some]
  cases hfind : all.find? fun b => (jsonName b).toList = (jsonName a).toList with
  | none =>
    have hnone := List.find?_eq_none.mp hfind a ha
    simp at hnone
  | some b =>
    have hname := List.find?_some hfind
    have heq : (jsonName b).toList = (jsonName a).toList := by simpa using hname
    rw [hinj b (List.mem_of_find?_eq_some hfind) (String.toList_injective heq)]

@[simp] theorem readName_kind (kind : Kind) :
    readName allKinds Kind.jsonName (nameDoc kind.jsonName) = some kind :=
  readName_nameDoc (by cases kind <;> decide) (by cases kind <;> decide)

@[simp] theorem readName_segType (type : SegType) :
    readName allSegTypes SegType.jsonName (nameDoc type.jsonName) = some type :=
  readName_nameDoc (by cases type <;> decide) (by cases type <;> decide)

/-- The texts of optional members. -/
theorem bind_map_textDoc (s : Option Text) : (s.map textDoc).bind readText = s := by
  cases s <;> simp

/-- A slot is read with its own fields. -/
theorem readSlot_toDict (slot : Slot) : readSlot slot.toDict = some slot.view := by
  simp only [readSlot, Slot.toDict, member?, Slot.view]
  cases hparam : slot.param <;> cases hiter : slot.loopIterator <;>
    simp [readBool, bind_map_textDoc]

/-- A statement is read with its own fields. -/
theorem readStatement_toDict (stmt : Statement) :
    readStatement (stmt.toDict U) = some (stmt.view U) := by
  simp [readStatement, Statement.toDict, member?, Statement.view, bind_map_textDoc]

/-- A segment is read with its own fields. -/
theorem readSegment_toDict (seg : Segment) :
    readSegment (seg.toDict U) = some (seg.view U) := by
  simp [readSegment, Segment.toDict, member?, Segment.view, readNat, readList,
    mapM_map_eq_some readSlot_toDict, mapM_map_eq_some readStatement_toDict]

/-- **The segments** are read from the document of a representation. -/
theorem readSegments_irDoc (ir : IrDocument) :
    readSegments (irDoc U ir) = some (ir.segments.map (Segment.view U)) := by
  have hlist := mapM_map_eq_some (@readSegment_toDict U) ir.segments
  simpa [readSegments, irDoc, member?, readList] using hlist

end Read

/-- **The representation survives its JSON form.** A later stage that decodes the text gets the
document that was written, and finds in it every segment with its slots and statements. -/
theorem loads_irText {U : CharTable} {limits : Json.Limits} {repr : Double → Text}
    {ir : IrDocument} (h : ir.Fits U limits repr) :
    Json.loads limits (irText U repr ir) = .ok (irDoc U ir) ∧
      readSegments (irDoc U ir) = some (ir.segments.map (Segment.view U)) :=
  ⟨Json.loads_dumps (writable_irDoc h) 2, readSegments_irDoc ir⟩

/-! ### A file -/

/-- What is parsed of `double half = 0.5;`, less the matrix and the graph. -/
def halfIr : IrDocument where
  segments := [{ id := 0, parent := 0, type := .root, name := lit "root", scopePath := lit "root"
                 head := none, memory := [{ name := lit "half", scopedName := lit "root.half"
                                            type := lit "double" }]
                 stmts := [{ raw := lit "double half = 0.5;", kind := .decl, lName := some (lit "half")
                             expr := some (.const (.float (lit "0.5"))), type := some (lit "double") }] }]
  matrix := { slots := [], rows := [] }
  dag := { nodes := [], edges := [] }

/-- A half is read where it is printed as it was written. -/
theorem readsBack_half (limits : Json.Limits) : Json.ReadsBack limits (fun _ => lit "0.5")
    ((floatOfText .ascii (lit "0.5")).getD .nan) where
  begins := ⟨'0', lit ".5", rfl, by decide⟩
  reads rest h := by
    have hvalue : Json.decimal false ['0', '5'] (-1) =
        (floatOfText .ascii (lit "0.5")).getD .nan := by decide +kernel
    have htake : ('5' :: rest).takeWhile Char.isDigit = ['5'] := by
      cases rest with
      | nil => rfl
      | cons c rest => simp [(h c rfl).1]
    have hdrop : ('5' :: rest).dropWhile Char.isDigit = rest := by
      cases rest with
      | nil => rfl
      | cons c rest => simp [(h c rfl).1]
    show Json.scanUnsigned limits false ('0' :: '.' :: '5' :: rest) = _
    rw [Json.scanUnsigned]
    simp [Json.scanPlaces, htake, hdrop, Json.scanExponent_of_ends h, ← hvalue]

theorem loads_irText_half :
    Json.loads ⟨4300, 900⟩ (irText .ascii (fun _ => lit "0.5") halfIr) =
        .ok (irDoc .ascii halfIr) ∧
      readSegments (irDoc .ascii halfIr) = some (halfIr.segments.map (Segment.view .ascii)) :=
  loads_irText ⟨by decide, by decide, fun e he => by
    obtain rfl := List.mem_singleton.mp (show e ∈ [Expr.const (.float (lit "0.5"))] from he)
    exact ⟨by decide, forall_mem_one (readsBack_half _)⟩⟩

end Csc512
