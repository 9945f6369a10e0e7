import Csc512.Cdup.BranchChain
import Csc512.Cdup.CStrings
import Csc512.Cdup.Spelling

/-!
# The functions on strings

A string is given to a function as a literal, or as a variable with the address of a copy that was
made of a literal. The functions take the integer of what they are given. For a variable this is the
address, but for a literal it is what its text is read as, so that a call with a literal fails. The
copy is one of the text between the quotes: an escape counts as two characters.

## Main results

* `StringArg.copied` — a variable gets the address of a copy
* `StringCall.right_iff` — when a call of `strlen`, `strcmp` or `strcpy` does what it should
* `not_right` — `strlen("abc")` raises an error
-/

namespace Csc512

open Exec

/-! ### Literals -/

/-- The letters of the escapes, with what they stand for. -/
def simpleEscapes : List (Char × Char) :=
  [('n', '\n'), ('t', '\t'), ('r', '\r'), ('a', Char.ofNat 7), ('b', Char.ofNat 8),
    ('v', Char.ofNat 11), ('f', Char.ofNat 12), ('\\', '\\'), ('\'', '\''), ('"', '"'), ('?', '?')]

/-- The character with an octal or hexadecimal code. -/
def codeChar (base : ℕ) (ds : Text) : Char := Char.ofNat ((ofDigits base ds).getD 0)

/-- An octal digit. -/
def isOctal (c : Char) : Bool := '0' ≤ c && c ≤ '7'

/-- A hexadecimal digit. -/
def isHex (c : Char) : Bool := (digitValue c).isSome

/-- What is written between the quotes of a literal, and the string that it stands for. -/
inductive Spells : Text → Text → Prop
  | nil : Spells [] []
  | plain {c : Char} {s t : Text} (hc : c ≠ '\\' ∧ c ≠ '"' ∧ c ≠ '\n') (h : Spells s t) :
    Spells (c :: s) (c :: t)
  | simple {e c : Char} {s t : Text} (he : (e, c) ∈ simpleEscapes) (h : Spells s t) :
    Spells ('\\' :: e :: s) (c :: t)
  | octal {ds s t : Text} (hds : 1 ≤ ds.length ∧ ds.length ≤ 3 ∧ ∀ d ∈ ds, isOctal d)
    (hs : ds.length = 3 ∨ s.head?.all fun c => !isOctal c) (h : Spells s t) :
    Spells ('\\' :: (ds ++ s)) (codeChar 8 ds :: t)
  | hex {ds s t : Text} (hds : 1 ≤ ds.length ∧ ∀ d ∈ ds, isHex d)
    (hs : s.head?.all fun c => !isHex c) (h : Spells s t) :
    Spells ('\\' :: 'x' :: (ds ++ s)) (codeChar 16 ds :: t)

/-- A string without zeros is written without. -/
theorem Spells.noNul {s t : Text} (h : Spells s t) (ht : NoNul t) : NoNul s := by
  have hcons : ∀ {c : Char} {u : Text}, c.toNat ≠ 0 → NoNul u → NoNul (c :: u) := by
    intro c u hc hu d hd
    rcases List.mem_cons.mp hd with rfl | hd
    · exact hc
    · exact hu d hd
  induction h with
  | nil => exact ht
  | plain hc h ih => exact hcons (ht _ List.mem_cons_self) (ih ht.tail)
  | simple he h ih =>
    have hletters := (by decide : ∀ p ∈ simpleEscapes, p.1.toNat ≠ 0) _ he
    exact hcons (by decide) (hcons hletters (ih ht.tail))
  | octal hds hs h ih =>
    refine hcons (by decide) fun d hd => ?_
    rcases List.mem_append.mp hd with hd | hd
    · rintro hzero
      have hdigit := hds.2.2 d hd
      obtain rfl : d = Char.ofNat 0 := Char.toNat_inj.mp hzero
      exact absurd hdigit (by decide)
    · exact ih ht.tail d hd
  | hex hds hs h ih =>
    refine hcons (by decide) (hcons (by decide) fun d hd => ?_)
    rcases List.mem_append.mp hd with hd | hd
    · rintro hzero
      have hdigit := hds.2 d hd
      obtain rfl : d = Char.ofNat 0 := Char.toNat_inj.mp hzero
      exact absurd hdigit (by decide)
    · exact ih ht.tail d hd

/-- Without escapes a string is written as it is. -/
theorem Spells.eq_of_notMem {s t : Text} (h : Spells s t) (hs : '\\' ∉ s) : s = t ∧ '"' ∉ s := by
  induction h with
  | nil => exact ⟨rfl, List.not_mem_nil⟩
  | plain hc h ih =>
    obtain ⟨rfl, hquote⟩ := ih fun hmem => hs (List.mem_cons_of_mem _ hmem)
    exact ⟨rfl, fun hmem => (List.mem_cons.mp hmem).elim (fun heq => hc.2.1 heq.symm) hquote⟩
  | simple | octal | hex => exact absurd List.mem_cons_self hs

/-- The token of a literal. -/
def literalText (src : Text) : Text := '"' :: (src ++ ['"'])

/-- What the interpreter makes of a literal. -/
def keptText (src : Text) : Text := stripChars ['"'] (literalText src)

/-- The quotes at the ends of the text are lost with those around it. -/
theorem keptText_eq (src : Text) : keptText src = stripChars ['"'] src := by
  have hdrop : ∀ l : Text, ('"' :: l).dropWhile (fun c => decide (c ∈ ['"']))
      = l.dropWhile fun c => decide (c ∈ ['"']) :=
    fun l => List.dropWhile_cons_of_pos (p := fun c => decide (c ∈ ['"'])) (by decide)
  rw [keptText, literalText, stripChars, stripChars, hdrop, List.dropWhile_append]
  split_ifs with hempty
  · rw [List.isEmpty_iff.mp hempty, hdrop]
    rfl
  · exact List.rdropWhile_concat_pos _ _ _ (by decide)

theorem mem_of_mem_keptText {src : Text} {c : Char} (h : c ∈ keptText src) : c ∈ src := by
  rw [keptText_eq, stripChars] at h
  exact (List.dropWhile_suffix _).subset ((List.rdropWhile_prefix _ _).subset h)

theorem keptText_of_notMem {src : Text} (h : '"' ∉ src) : keptText src = src := by
  have hall : ∀ c ∈ src, decide (c ∈ ['"']) = false := by
    intro c hc
    rw [decide_eq_false_iff_not, List.mem_singleton]
    rintro rfl
    exact h hc
  have hdrop : src.dropWhile (fun c => decide (c ∈ ['"'])) = src := by
    rw [List.dropWhile_eq_self_iff]
    intro hlt
    simpa using hall _ (List.getElem_mem hlt)
  rw [keptText_eq, stripChars, hdrop, List.rdropWhile_eq_self_iff]
  intro hne
  simpa using hall _ (List.getLast_mem hne)

/-! ### Arguments -/

/-- How a string is given. -/
inductive ArgForm where
  | literal
  | pointer (name : Text)
deriving DecidableEq, Repr

/-- A string that is given to a function, with the text of its literal. -/
structure StringArg where
  form : ArgForm
  src : Text
  string : Text
  spells : Spells src string
  noNul : NoNul string

namespace StringArg

variable (a : StringArg)

/-- The text that is looked at. -/
def kept : Text := keptText a.src

/-- The expression of an argument. -/
def expr : Expr :=
  match a.form with
  | .literal => .const (.string (literalText a.src))
  | .pointer name => .name name

/-- An address that a variable has. -/
def PointsTo (s : VmState) (frame : ℕ) (name : Text) (addr : ℕ) : Prop :=
  name ≠ lit "NULL" ∧ (slotIn s.frames frame name).map SlotDesc.value = some (.int addr)

/-- A variable has the address of a copy of the literal. -/
def Given (s : VmState) (frame : ℕ) : Prop :=
  ∀ name, a.form = .pointer name → ∃ addr, PointsTo s frame name addr ∧ StringAt s addr a.kept

theorem noNul_kept : NoNul a.kept := fun c hc =>
  a.spells.noNul a.noNul c (mem_of_mem_keptText hc)

/-- Without escapes the string itself is looked at. -/
theorem kept_eq (h : '\\' ∉ a.src) : a.kept = a.string := by
  obtain ⟨hsrc, hquote⟩ := a.spells.eq_of_notMem h
  exact (keptText_of_notMem hquote).trans hsrc

end StringArg

section Args

variable (U : CharTable) (M : MathLib) (P : Program) (fuel : ℕ) {frame : ℕ} {scope : Text}
  {s : VmState} {a : StringArg}

variable (scope) in
/-- The address of what a variable points to. -/
theorem intArg_variable (args : List Expr) (i : ℕ) (missing : Vm ℤ) {addr : ℕ} {name : Text}
    (harg : args[i]? = some (.name name)) (h : StringArg.PointsTo s frame name addr) :
    intArg U (interp U M P (fuel + 1)) args i missing frame scope s = (.ok addr, s) := by
  obtain ⟨hname, hvalue⟩ := h
  obtain ⟨slot, hslot, hslotvalue⟩ := Option.map_eq_some_iff.mp hvalue
  have hfirst : firstInFrame frame [name, stripScope name scope] s
      = (.ok (some (.int addr)), s) := by
    have hlookup : slot? frame name s = (.ok (some slot), s) := by
      show (Except.ok (slotIn s.frames frame name), s) = _
      rw [hslot]
    rw [firstInFrame, bind_of_ok hlookup]
    dsimp only
    rw [hslotvalue]
    rfl
  have heval : evalName frame scope name s = (.ok (.int addr), s) := by
    rw [evalName, if_neg hname, bind_of_ok hfirst]
    rfl
  rw [intArg, harg]
  exact bind_of_ok heval _

/-- A literal whose text is no integer is refused. -/
theorem intArg_literal {args : List Expr} {i : ℕ} {src : Text} {missing : Vm ℤ}
    (harg : args[i]? = some (.const (.string (literalText src))))
    (hint : decimalInt U (keptText src) = none) :
    intArg U (interp U M P (fuel + 1)) args i missing frame scope s
      = (.error (.raised ⟨.valueError, []⟩), s) := by
  have heval : constValue U (.string (literalText src)) s = (.ok (.str (keptText src)), s) := rfl
  rw [intArg, harg]
  refine (bind_of_ok heval _).trans ?_
  rw [toInt, hint]
  rfl

end Args

/-! ### Calls -/

/-- A call of a function on strings. The first argument of `strcpy` is a pointer. -/
inductive StringCall where
  | strlen (a : StringArg)
  | strcmp (a b : StringArg)
  | strcpy (dst : Text) (a : StringArg)

namespace StringCall

/-- The expression of a call. -/
def expr : StringCall → Expr
  | strlen a => .call (lit "strlen") [a.expr]
  | strcmp a b => .call (lit "strcmp") [a.expr, b.expr]
  | strcpy dst a => .call (lit "strcpy") [.name dst, a.expr]

/-- What a call does. -/
def run (U : CharTable) (I : Interp) (frame : ℕ) (scope : Text) : StringCall → Vm Value
  | strlen a => callBuiltin U I .strlen [a.expr] frame scope
  | strcmp a b => callBuiltin U I .strcmp [a.expr, b.expr] frame scope
  | strcpy dst a => callBuiltin U I .strcpy [.name dst, a.expr] frame scope

/-- The strings that a call is given. -/
def args : StringCall → List StringArg
  | strlen a | strcpy _ a => [a]
  | strcmp a b => [a, b]

/-- A pointer has the address of a block that the string fits in, and that has no part of the cells
that are copied behind its beginning. -/
def Room (s : VmState) (frame : ℕ) : StringCall → ℕ → Prop
  | strcpy dst a, addr => StringArg.PointsTo s frame dst addr ∧ 0 < addr ∧
      (∀ i ≤ a.string.length, (s.heap.get? (addr + i)).isSome) ∧
      ∀ name src, a.form = .pointer name → StringArg.PointsTo s frame name src →
        ¬ (src < addr ∧ addr ≤ src + a.kept.length)
  | _, _ => True

/-- The outcome is the one that the function should have. -/
def Right (s : VmState) (addr : ℕ) (r : Except Stop Value × VmState) : StringCall → Prop
  | strlen a => r = (.ok (.int a.string.length), s)
  | strcmp a b => ∃ n, r = (.ok (.int n), s) ∧ (n < 0 ↔ a.string < b.string) ∧
      (n = 0 ↔ a.string = b.string)
  | strcpy _ a => ∃ heap, r = (.ok (.int addr), { s with heap }) ∧
      StringAt { s with heap } addr a.string ∧
      ∀ x, x < addr ∨ addr + a.string.length < x → heap.get? x = s.heap.get? x

/-- The texts that are looked at have what the function asks for in common with the strings. -/
def Faithful : StringCall → Prop
  | strlen a => min a.kept.length 100001 = a.string.length
  | strcmp a b => (a.kept < b.kept ↔ a.string < b.string) ∧ (a.kept = b.kept ↔ a.string = b.string)
  | strcpy _ a => a.kept = a.string

/-- Every string is given as a variable. -/
def AllVariables (call : StringCall) : Prop := ∀ a ∈ call.args, ∃ name, a.form = .pointer name

variable {s : VmState} {frame addr : ℕ} {call : StringCall}

theorem Room.untracked (h : Room s frame call addr) : Room { s with derefs := [] } frame call addr := by
  cases call with
  | strlen | strcmp => trivial
  | strcpy dst a => exact h

end StringCall

theorem StringArg.Given.untracked {s : VmState} {frame : ℕ} {a : StringArg}
    (h : a.Given s frame) : a.Given { s with derefs := [] } frame := by
  intro name hname
  obtain ⟨addr, hpoints, hstring⟩ := h name hname
  exact ⟨addr, hpoints, hstring.congr fun _ _ => rfl⟩

/-- To evaluate a call is to call the function, and to forget its reads through pointers. -/
theorem eval_call (U : CharTable) (M : MathLib) (P : Program) (fuel frame : ℕ) (scope : Text)
    (call : StringCall) (s : VmState) : (interp U M P (fuel + 2)).eval frame scope call.expr s
      = untraced (call.run U (interp U M P (fuel + 1)) frame scope) s := by
  cases call <;> rfl

section Outcome

variable (U : CharTable) (M : MathLib) (P : Program) (fuel : ℕ) {frame : ℕ} {scope : Text}
  {s : VmState} {a b : StringArg}

variable (scope) in
/-- The address of a string that is given as a variable. -/
theorem intArg_given (args : List Expr) (i : ℕ) (missing : Vm ℤ) {name : Text}
    (harg : args[i]? = some a.expr) (hform : a.form = .pointer name) (hgiven : a.Given s frame) :
    ∃ addr, StringArg.PointsTo s frame name addr ∧ StringAt s addr a.kept ∧
      intArg U (interp U M P (fuel + 1)) args i missing frame scope s = (.ok addr, s) := by
  obtain ⟨addr, hpoints, hstring⟩ := hgiven name hform
  have hexpr : a.expr = .name name := by rw [StringArg.expr, hform]
  exact ⟨addr, hpoints, hstring, intArg_variable U M P fuel scope args i missing (hexpr ▸ harg) hpoints⟩

/-- A string that is given as a literal is refused. -/
theorem intArg_refused {args : List Expr} {i : ℕ} {missing : Vm ℤ} (harg : args[i]? = some a.expr)
    (hform : a.form = .literal) (hint : decimalInt U a.kept = none) :
    intArg U (interp U M P (fuel + 1)) args i missing frame scope s
      = (.error (.raised ⟨.valueError, []⟩), s) := by
  have hexpr : a.expr = .const (.string (literalText a.src)) := by rw [StringArg.expr, hform]
  exact intArg_literal U M P fuel (hexpr ▸ harg) hint

/-- A call with a literal fails. -/
theorem run_error (scope : Text) {call : StringCall} {addr : ℕ} (hroom : call.Room s frame addr)
    (hgiven : ∀ a ∈ call.args, a.Given s frame)
    (hlit : ∀ a ∈ call.args, a.form = .literal → decimalInt U a.kept = none)
    (h : ¬ call.AllVariables) : call.run U (interp U M P (fuel + 1)) frame scope s
      = (.error (.raised ⟨.valueError, []⟩), s) := by
  have hvariables : (∀ a ∈ call.args, ∃ name, a.form = .pointer name) → False := h
  cases call with
  | strlen a =>
    have hmem : a ∈ [a] := List.mem_cons_self
    cases hform : a.form with
    | literal => exact bind_of_error (intArg_refused U M P fuel rfl hform (hlit a hmem hform)) _
    | pointer name =>
      refine (hvariables fun x hx => ?_).elim
      rw [List.mem_singleton.mp hx]
      exact ⟨name, hform⟩
  | strcmp a b =>
    have hmem : a ∈ [a, b] := List.mem_cons_self
    have hmem' : b ∈ [a, b] := List.mem_cons_of_mem _ List.mem_cons_self
    cases hform : a.form with
    | literal => exact bind_of_error (intArg_refused U M P fuel rfl hform (hlit a hmem hform)) _
    | pointer name =>
      obtain ⟨addr, -, -, hfirst⟩ := intArg_given U M P fuel scope [a.expr, b.expr] 0
        (raise .indexError) rfl hform (hgiven a hmem)
      refine (bind_of_ok hfirst _).trans ?_
      cases hform' : b.form with
      | literal =>
        exact bind_of_error (intArg_refused U M P fuel rfl hform' (hlit b hmem' hform')) _
      | pointer name' =>
        refine (hvariables fun x hx => ?_).elim
        rcases List.mem_cons.mp hx with rfl | hx
        · exact ⟨name, hform⟩
        · rw [List.mem_singleton.mp hx]
          exact ⟨name', hform'⟩
  | strcpy dst a =>
    have hmem : a ∈ [a] := List.mem_cons_self
    have hfirst := intArg_variable U M P fuel scope [.name dst, a.expr] 0
      (raise .indexError) rfl hroom.1
    refine (bind_of_ok hfirst _).trans ?_
    cases hform : a.form with
    | literal => exact bind_of_error (intArg_refused U M P fuel rfl hform (hlit a hmem hform)) _
    | pointer name =>
      refine (hvariables fun x hx => ?_).elim
      rw [List.mem_singleton.mp hx]
      exact ⟨name, hform⟩

theorem run_strlen (hgiven : a.Given s frame) {name : Text} (hform : a.form = .pointer name) :
    (StringCall.strlen a).run U (interp U M P (fuel + 1)) frame scope s
      = (.ok (.int (min a.kept.length 100001 : ℕ)), s) := by
  obtain ⟨addr, -, hstring, hfirst⟩ := intArg_given U M P fuel scope [a.expr] 0
    (pure 0) rfl hform hgiven
  refine (bind_of_ok hfirst _).trans ?_
  have hcount := countChars_apply U (k := 0) hstring a.noNul_kept 100001
  rwa [Nat.zero_add] at hcount

theorem run_strcmp (hgiven : a.Given s frame) (hgiven' : b.Given s frame) {name name' : Text}
    (hform : a.form = .pointer name) (hform' : b.form = .pointer name') :
    (StringCall.strcmp a b).run U (interp U M P (fuel + 1)) frame scope s
      = (.ok (.int (compareTexts a.kept b.kept)), s) := by
  obtain ⟨addr, -, hstring, hfirst⟩ := intArg_given U M P fuel scope [a.expr, b.expr] 0
    (raise .indexError) rfl hform hgiven
  obtain ⟨addr', -, hstring', hsecond⟩ := intArg_given U M P fuel scope [a.expr, b.expr] 1
    (raise .indexError) rfl hform' hgiven'
  obtain ⟨size, hsize, hlt⟩ := hstring.lt_memorySize
  refine (bind_of_ok hfirst _).trans ((bind_of_ok hsecond _).trans ((bind_of_ok hsize _).trans ?_))
  exact compareChars_apply U hstring hstring' a.noNul_kept b.noNul_kept hlt

/-- A copy of a string that is given as a variable is as the one that `copyChars` makes. -/
theorem run_strcpy (scope : Text) {dst : Text} {addr : ℕ} (hroom : (StringCall.strcpy dst a).Room s frame addr)
    (hgiven : a.Given s frame) {name : Text} (hform : a.form = .pointer name) :
    ∃ src size, StringAt s src a.kept ∧ ¬ (src < addr ∧ addr ≤ src + a.kept.length) ∧
      a.kept.length < size ∧
      (StringCall.strcpy dst a).run U (interp U M P (fuel + 1)) frame scope s
        = (copyChars U addr src size >>= fun _ => pure (.int addr)) s := by
  have hfirst := intArg_variable U M P fuel scope [.name dst, a.expr] 0
    (raise .indexError) rfl hroom.1
  obtain ⟨src, hpoints, hstring, hsecond⟩ := intArg_given U M P fuel scope [.name dst, a.expr] 1
    (raise .indexError) rfl hform hgiven
  obtain ⟨size, hsize, hlt⟩ := hstring.lt_memorySize
  exact ⟨src, size, hstring, hroom.2.2.2 name src hform hpoints, hlt,
    (bind_of_ok hfirst _).trans ((bind_of_ok hsecond _).trans (bind_of_ok hsize _))⟩

end Outcome

/-! ### The copy of a literal -/

theorem stringAt_setCells {s : VmState} {base : ℕ} {heap : Dict ℕ HeapCell} (hpos : 0 < base)
    (t : Text) (hheap : s.heap = setCells base (charCells t) heap) : StringAt s base t := by
  have hcell : ∀ (i : ℕ) (cell : HeapCell), (charCells t)[i]? = some cell →
      s.heap.get? (base + i) = some cell := by
    intro i cell hcell
    rw [hheap]
    exact get?_setCells hcell
  clear hheap
  induction t generalizing base with
  | nil => exact ⟨hpos, by rw [← Nat.add_zero base, hcell 0 _ rfl]; rfl⟩
  | cons c t ih =>
    refine ⟨hpos, by rw [← Nat.add_zero base, hcell 0 _ rfl]; rfl, ih (Nat.succ_pos base) ?_⟩
    intro i cell hi
    rw [show base + 1 + i = base + (i + 1) by omega]
    exact hcell (i + 1) cell hi

/-- A pointer that is declared with a literal gets the address of a copy. -/
theorem StringArg.copied (U : CharTable) (a : StringArg) {s : VmState} (hs : HeapBelow s)
    (type : Text) : ∃ t, (constValue U (.string (literalText a.src)) >>= promote true type) s
      = (.ok (.int s.heapCounter), t) ∧ StringAt t s.heapCounter a.kept := by
  obtain ⟨t, heq, hblock⟩ := internString_apply a.kept s
  exact ⟨t, heq, stringAt_setCells hs.pos a.kept hblock.heap⟩

/-! ### When a call is right -/

theorem firstStop_eq {n m : ℕ} {s t : VmState} :
    ((.ok (.int n), s) : Except Stop Value × VmState) = (.ok (.int m), t) ↔ n = m ∧ s = t := by
  simp

/-- The order of what is looked at is that of the strings. -/
theorem sign_iff {a b : StringArg} : (StringCall.strcmp a b).Faithful ↔
    (compareTexts a.kept b.kept < 0 ↔ a.string < b.string) ∧
      (compareTexts a.kept b.kept = 0 ↔ a.string = b.string) := by
  obtain ⟨hlt, heq⟩ := compareTexts_sign a.kept b.kept a.noNul_kept b.noNul_kept
  rw [hlt, heq]
  rfl

section Right

variable {U : CharTable} {M : MathLib} {P : Program} {fuel frame addr : ℕ} {scope : Text}
  {s : VmState}

theorem right_strlen_iff {a : StringArg} (hgiven : a.Given s frame) {name : Text}
    (hform : a.form = .pointer name) : (StringCall.strlen a).Right s addr
      ((interp U M P (fuel + 2)).eval frame scope (StringCall.strlen a).expr s) ↔
        (StringCall.strlen a).Faithful := by
  rw [eval_call, untraced_apply, run_strlen U M P fuel hgiven.untracked hform]
  exact firstStop_eq.trans (and_iff_left rfl)

theorem right_strcmp_iff {a b : StringArg} (hgiven : a.Given s frame) (hgiven' : b.Given s frame)
    {name name' : Text} (hform : a.form = .pointer name) (hform' : b.form = .pointer name') :
    (StringCall.strcmp a b).Right s addr
      ((interp U M P (fuel + 2)).eval frame scope (StringCall.strcmp a b).expr s) ↔
        (StringCall.strcmp a b).Faithful := by
  rw [eval_call, untraced_apply,
    run_strcmp U M P fuel hgiven.untracked hgiven'.untracked hform hform', sign_iff]
  constructor
  · rintro ⟨n, heq, hsign⟩
    cases heq
    exact hsign
  · exact fun hsign => ⟨_, rfl, hsign⟩

theorem right_strcpy_iff {dst : Text} {a : StringArg}
    (hroom : (StringCall.strcpy dst a).Room s frame addr) (hgiven : a.Given s frame) {name : Text}
    (hform : a.form = .pointer name) : (StringCall.strcpy dst a).Right s addr
      ((interp U M P (fuel + 2)).eval frame scope (StringCall.strcpy dst a).expr s) ↔
        (StringCall.strcpy dst a).Faithful := by
  obtain ⟨src, size, hstring, happart, hsize, hrun⟩ :=
    run_strcpy U M P fuel scope hroom.untracked hgiven.untracked hform
  rw [eval_call, untraced_apply, hrun]
  constructor
  · rintro ⟨heap, heq, hcopied, -⟩
    have hok := congrArg Prod.fst heq
    generalize hresult : (copyChars U addr src size >>= fun _ => pure (Value.int addr))
      { s with derefs := [] } = result at heq hok
    obtain ⟨value, t⟩ := result
    obtain rfl : value = .ok (.int addr) := hok
    obtain ⟨_, t', hcopy, hpure⟩ := exists_of_bind_ok hresult
    have hheap : t'.heap = heap := by
      have hstate : t.heap = heap := congrArg (fun r => r.2.heap) heq
      rwa [← show t' = t from congrArg Prod.snd hpure] at hstate
    have hleft : StringAt t' addr a.string := hcopied.congr fun _ _ => by rw [hheap]
    exact eq_of_copyChars U hstring a.noNul_kept happart hleft a.noNul hroom.2.2.1 hcopy
  · intro hkept
    have hcells : ∀ i ≤ a.kept.length, (s.heap.get? (addr + i)).isSome := by
      rw [show a.kept = a.string from hkept]
      exact hroom.2.2.1
    obtain ⟨heap, hcopy, hcopied, hsame⟩ :=
      copyChars_apply U hstring a.noNul_kept hroom.2.1 hcells happart hsize
    rw [bind_of_ok hcopy]
    rw [show a.kept = a.string from hkept] at hcopied hsame
    exact ⟨heap, rfl, hcopied.congr fun _ _ => rfl, hsame⟩

/-- The **functions on strings** do what they should, if every string is given as a variable and the
text that is looked at is as good as the string; and not otherwise, if no literal is read as an
integer. -/
theorem StringCall.right_iff {call : StringCall} (hroom : call.Room s frame addr)
    (hgiven : ∀ a ∈ call.args, a.Given s frame) :
    (call.AllVariables ∧ call.Faithful →
      call.Right s addr ((interp U M P (fuel + 2)).eval frame scope call.expr s)) ∧
    ((∀ a ∈ call.args, a.form = .literal → decimalInt U a.kept = none) →
      call.Right s addr ((interp U M P (fuel + 2)).eval frame scope call.expr s) →
        call.AllVariables ∧ call.Faithful) := by
  have hiff : call.AllVariables →
      (call.Right s addr ((interp U M P (fuel + 2)).eval frame scope call.expr s) ↔
        call.Faithful) := by
    intro hvariables
    cases call with
    | strlen a =>
      obtain ⟨name, hform⟩ := hvariables a List.mem_cons_self
      exact right_strlen_iff (hgiven a List.mem_cons_self) hform
    | strcmp a b =>
      have hmem : b ∈ [a, b] := List.mem_cons_of_mem _ List.mem_cons_self
      obtain ⟨name, hform⟩ := hvariables a List.mem_cons_self
      obtain ⟨name', hform'⟩ := hvariables b hmem
      exact right_strcmp_iff (hgiven a List.mem_cons_self) (hgiven b hmem) hform hform'
    | strcpy dst a =>
      obtain ⟨name, hform⟩ := hvariables a List.mem_cons_self
      exact right_strcpy_iff hroom (hgiven a List.mem_cons_self) hform
  refine ⟨fun h => (hiff h.1).mpr h.2, fun hlit hright => ?_⟩
  have hvariables : call.AllVariables := by
    by_contra hliteral
    have herror := run_error U M P fuel scope hroom.untracked
      (fun a ha => (hgiven a ha).untracked) hlit hliteral
    rw [eval_call, untraced_apply, herror] at hright
    cases call with
    | strlen => exact absurd (congrArg Prod.fst hright) nofun
    | strcmp =>
      obtain ⟨n, heq, -⟩ := hright
      exact absurd (congrArg Prod.fst heq) nofun
    | strcpy =>
      obtain ⟨heap, heq, -⟩ := hright
      exact absurd (congrArg Prod.fst heq) nofun
  exact ⟨hvariables, (hiff hvariables).mp hright⟩

end Right

/-- A string without escapes. -/
def plainArg (form : ArgForm) (c : Char) (hc : c ≠ '\\' ∧ c ≠ '"' ∧ c ≠ '\n') (hnul : c.toNat ≠ 0) :
    StringArg :=
  ⟨form, [c], [c], .plain hc .nil, fun d hd => by rwa [List.mem_singleton.mp hd]⟩

/-- A frame with a string of one character and a block of two cells. -/
def frameOfString : VmState :=
  { frames := [((Dict.empty.upsert (lit "s") fun _ => ⟨0x1000, .int 0x80000000, lit "char*"⟩).upsert
      (lit "d") fun _ => ⟨0x1001, .int 0x80000002, lit "char*"⟩)]
    heap := setCells 0x80000002 [⟨.int 7, lit "int"⟩, ⟨.int 7, lit "int"⟩]
      (setCells 0x80000000 (charCells ['a']) Dict.empty) }

/-- `strcpy(d, s)`. -/
theorem stringCall_right_sample :
    (StringCall.strcpy (lit "d") (plainArg (.pointer (lit "s")) 'a' (by decide) (by decide))).Right
      frameOfString 0x80000002 ((interp .ascii noMath ⟨[], 1⟩ 2).eval 0 []
        (StringCall.strcpy (lit "d")
          (plainArg (.pointer (lit "s")) 'a' (by decide) (by decide))).expr frameOfString) := by
  have hsame : keptText ['a'] = ['a'] := by decide
  have hcell : StringAt frameOfString 0x80000000 (keptText ['a']) := by
    rw [hsame]
    exact ⟨by decide, by decide +kernel, by decide, by decide +kernel⟩
  have hroom : (StringCall.strcpy (lit "d")
      (plainArg (.pointer (lit "s")) 'a' (by decide) (by decide))).Room frameOfString 0
        0x80000002 := by
    refine ⟨⟨by decide, by decide +kernel⟩, by decide, ?_, fun name src hform hpoints => ?_⟩
    · show ∀ i ≤ 1, (frameOfString.heap.get? (0x80000002 + i)).isSome
      decide +kernel
    · cases hform
      have hsrc : (slotIn frameOfString.frames 0 (lit "s")).map SlotDesc.value
          = some (.int 0x80000000) := by decide +kernel
      rw [hpoints.2] at hsrc
      have hvalue : (src : ℤ) = 0x80000000 := by simpa using hsrc
      show ¬ (src < 0x80000002 ∧ 0x80000002 ≤ src + (keptText ['a']).length)
      rw [hsame, List.length_singleton]
      omega
  refine (StringCall.right_iff hroom fun a ha => ?_).1 ⟨fun a ha => ?_, hsame⟩
  · rw [List.mem_singleton.mp ha]
    rintro name ⟨⟩
    exact ⟨0x80000000, ⟨by decide, by decide +kernel⟩, hcell⟩
  · rw [List.mem_singleton.mp ha]
    exact ⟨_, rfl⟩

/-- `strlen("a")`. -/
def lengthOfLiteral : StringCall := .strlen (plainArg .literal 'a' (by decide) (by decide))

/-- **`strlen("a")`** fails. -/
theorem not_stringCall_right : ¬ lengthOfLiteral.Right {} 0
    ((interp .ascii noMath ⟨[], 1⟩ 2).eval 0 [] lengthOfLiteral.expr {}) := by
  have herror : ((interp .ascii noMath ⟨[], 1⟩ 2).eval 0 [] lengthOfLiteral.expr {}).1
      = .error (.raised ⟨.valueError, []⟩) := by decide +kernel
  intro h
  exact nomatch herror.symm.trans (congrArg Prod.fst h)

end Csc512
