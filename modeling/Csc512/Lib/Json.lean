import Csc512.Lib.Double
import Csc512.Lib.Text

/-!
# JSON as Python reads it

Values and the decoder of the module `json`: the constants `NaN` and `Infinity` are values, a
repeated key of an object keeps its place and gets the last value, and what a text holds are code
points, since an escape can stand for half of a surrogate pair. Decoding fails with an error of its
own where the text is no JSON; but digits and nesting also run into bounds of the interpreter, which
are errors of another kind.

## Main results

* `Json.loads_ne_outOfFuel` — the fuel of the decoder is enough for every text
-/

namespace Csc512

/-- The code points of a text. -/
abbrev CodePoints := List ℕ

/-- A constant, as the one for texts. -/
instance lawfulBEqCodePoints : LawfulBEq CodePoints := inferInstance

/-- The code points of characters. -/
def codePoints (s : Text) : CodePoints := s.map Char.toNat

/-- JSON values. -/
inductive Json where
  | null
  | bool (b : Bool)
  | int (n : ℤ)
  | float (x : Double)
  | str (s : CodePoints)
  | list (items : List Json)
  | obj (entries : List (CodePoints × Json))

namespace Json

/-- Why a text is not decoded: it is no JSON, it has a number with too many digits, or it is nested
too deeply. The fuel of the decoder never runs out. -/
inductive Error where
  | decode | digits | recursion | outOfFuel
deriving DecidableEq, Repr

/-- What the interpreter allows: the digits of an integer, where 0 stands for any number of them,
and the nesting. -/
structure Limits where
  maxStrDigits : ℕ
  depth : ℕ

/-- Skip white space. -/
def skipBlanks (s : Text) : Text := s.dropWhile (· ∈ [' ', '\t', '\n', '\r'])

/-! ### Strings -/

/-- The value of a hexadecimal digit. -/
def hexDigit (c : Char) : Option ℕ :=
  if c.isDigit then some (c.toNat - 48)
  else if 'a' ≤ c ∧ c ≤ 'f' then some (c.toNat - 87)
  else if 'A' ≤ c ∧ c ≤ 'F' then some (c.toNat - 55)
  else none

/-- The value of four hexadecimal digits. -/
def hexUnit (a b c d : Char) : Option ℕ :=
  [a, b, c, d].foldlM (fun n x => (hexDigit x).map (16 * n + ·)) 0

/-- What a letter behind a backslash stands for. -/
def escape (c : Char) : Option ℕ :=
  match c with
  | '"' => some 34
  | '\\' => some 92
  | '/' => some 47
  | 'b' => some 8
  | 'f' => some 12
  | 'n' => some 10
  | 'r' => some 13
  | 't' => some 9
  | _ => none

/-- Put a code point in front of the rest of a string. -/
def pushUnit (u : ℕ) (p : CodePoints × Text) : CodePoints × Text := (u :: p.1, p.2)

/-- Read a string up to its closing quote, and what follows. -/
def scanUnits : Text → Except Error (CodePoints × Text)
  | [] => .error .decode
  | '"' :: s => .ok ([], s)
  | '\\' :: 'u' :: a :: b :: c :: d :: s =>
    match hexUnit a b c d with
    | some u => (scanUnits s).map (pushUnit u)
    | none => .error .decode
  | '\\' :: e :: s =>
    match escape e with
    | some u => (scanUnits s).map (pushUnit u)
    | none => .error .decode
  | c :: s =>
    if c = '\\' ∨ c.toNat < 32 then .error .decode else (scanUnits s).map (pushUnit c.toNat)

/-- Join surrogate pairs. -/
def joinSurrogates : CodePoints → CodePoints
  | high :: low :: us =>
    if 0xD800 ≤ high ∧ high < 0xDC00 ∧ 0xDC00 ≤ low ∧ low < 0xE000 then
      (0x10000 + (high - 0xD800) * 0x400 + (low - 0xDC00)) :: joinSurrogates us
    else high :: joinSurrogates (low :: us)
  | us => us

/-- Read a string behind its opening quote. -/
def scanString (s : Text) : Except Error (CodePoints × Text) :=
  (scanUnits s).map fun p => (joinSurrogates p.1, p.2)

/-- Read the key of a member, and the colon behind it. -/
def scanKey : Text → Except Error (CodePoints × Text)
  | '"' :: s => do
    let (key, s) ← scanString s
    match skipBlanks s with
    | ':' :: s => .ok (key, skipBlanks s)
    | _ => .error .decode
  | _ => .error .decode

/-! ### Numbers and constants -/

/-- The number that digits write. -/
def digitsValue (digits : Text) : ℕ := digits.foldl (fun n c => 10 * n + (c.toNat - 48)) 0

/-- The places behind a point, and what follows. -/
def scanPlaces (s : Text) : Text × Text :=
  match s with
  | '.' :: t =>
    if t.takeWhile Char.isDigit = [] then ([], s)
    else (t.takeWhile Char.isDigit, t.dropWhile Char.isDigit)
  | _ => ([], s)

/-- The exponent, if there is one, and what follows. -/
def scanExponent (s : Text) : Option ℤ × Text :=
  match s with
  | c :: t =>
    let neg := t.head? = some '-'
    let t := if neg ∨ t.head? = some '+' then t.drop 1 else t
    let digits := t.takeWhile Char.isDigit
    if (c = 'e' ∨ c = 'E') ∧ digits ≠ [] then
      (some (if neg then -(digitsValue digits : ℤ) else digitsValue digits), t.dropWhile Char.isDigit)
    else (none, s)
  | [] => (none, s)

/-- A decimal number. -/
def decimal (neg : Bool) (digits : Text) (exponent : ℤ) : Double :=
  let scale : ℚ := if 0 ≤ exponent then 10 ^ exponent.toNat else mkRat 1 (10 ^ (-exponent).toNat)
  let x := Double.round (digitsValue digits * scale)
  if neg then x.neg else x

/-- Read a number behind its sign. -/
def scanUnsigned (limits : Limits) (neg : Bool) (s : Text) : Except Error (Json × Text) :=
  let whole := if s.head? = some '0' then ['0'] else s.takeWhile Char.isDigit
  let (places, afterPlaces) := scanPlaces (s.drop whole.length)
  let (exponent, rest) := scanExponent afterPlaces
  if whole = [] then .error .decode
  else if places = [] ∧ exponent = none then
    if 0 < limits.maxStrDigits ∧ limits.maxStrDigits < whole.length then .error .digits
    else .ok (.int (if neg then -(digitsValue whole : ℤ) else digitsValue whole), rest)
  else .ok (.float (decimal neg (whole ++ places) (exponent.getD 0 - places.length)), rest)

/-- The constants. -/
def constants : List (Text × Json) :=
  [(lit "null", .null), (lit "true", .bool true), (lit "false", .bool false),
    (lit "NaN", .float .nan), (lit "Infinity", .float (.inf false)),
    (lit "-Infinity", .float (.inf true))]

/-- Read a constant or a number. -/
def scanAtom (limits : Limits) (s : Text) : Except Error (Json × Text) :=
  match constants.find? fun p => p.1.isPrefixOf s with
  | some (word, v) => .ok (v, s.drop word.length)
  | none => if s.head? = some '-' then scanUnsigned limits true (s.drop 1)
    else scanUnsigned limits false s

/-! ### Values -/

/-- Set the value at a key, which keeps its place. -/
def setItem (key : CodePoints) (v : Json) (entries : List (CodePoints × Json)) :
    List (CodePoints × Json) :=
  if key ∈ entries.map Prod.fst then entries.map fun e => if e.1 = key then (key, v) else e
  else entries ++ [(key, v)]

mutual

/-- Read a value, and what follows; `depth` bounds the nesting, and `fuel` the calls. -/
def scanOnce (limits : Limits) : ℕ → ℕ → Text → Except Error (Json × Text)
  | 0, _, _ => .error .outOfFuel
  | fuel + 1, depth, s =>
    match s with
    | '"' :: s => (scanString s).map fun p => (.str p.1, p.2)
    | '{' :: s =>
      match depth, skipBlanks s with
      | 0, _ => .error .recursion
      | _, '}' :: s => .ok (.obj [], s)
      | depth + 1, s => (scanMembers limits fuel depth [] s).map fun p => (.obj p.1, p.2)
    | '[' :: s =>
      match depth, skipBlanks s with
      | 0, _ => .error .recursion
      | _, ']' :: s => .ok (.list [], s)
      | depth + 1, s => (scanItems limits fuel depth [] s).map fun p => (.list p.1, p.2)
    | s => scanAtom limits s

/-- Read the items of a list up to its end. -/
def scanItems (limits : Limits) : ℕ → ℕ → List Json → Text → Except Error (List Json × Text)
  | 0, _, _, _ => .error .outOfFuel
  | fuel + 1, depth, items, s => do
    let (v, s) ← scanOnce limits fuel depth s
    match skipBlanks s with
    | ']' :: s => .ok (items ++ [v], s)
    | ',' :: s => scanItems limits fuel depth (items ++ [v]) (skipBlanks s)
    | _ => .error .decode

/-- Read the members of an object up to its end. -/
def scanMembers (limits : Limits) : ℕ → ℕ → List (CodePoints × Json) → Text →
    Except Error (List (CodePoints × Json) × Text)
  | 0, _, _, _ => .error .outOfFuel
  | fuel + 1, depth, entries, s => do
    let (key, s) ← scanKey s
    let (v, s) ← scanOnce limits fuel depth s
    match skipBlanks s with
    | '}' :: s => .ok (setItem key v entries, s)
    | ',' :: s => scanMembers limits fuel depth (setItem key v entries) (skipBlanks s)
    | _ => .error .decode

end

/-- Decode a text. -/
def loads (limits : Limits) (s : Text) : Except Error Json :=
  if s.head? = some '\ufeff' then .error .decode
  else (scanOnce limits (2 * s.length + 1) limits.depth (skipBlanks s)).bind fun p =>
    if skipBlanks p.2 = [] then .ok p.1 else .error .decode

/-! ### The fuel is enough -/

/-- Reading from `s` does not run out of fuel, and leaves less than `s`. -/
structure Progress {α : Type} (s : Text) (r : Except Error (α × Text)) : Prop where
  fueled : r ≠ .error .outOfFuel
  shorter : ∀ v t, r = .ok (v, t) → t.length < s.length

namespace Progress

variable {α β : Type} {s s' : Text}

theorem error {e : Error} (h : e ≠ .outOfFuel) : Progress (α := α) s (.error e) :=
  ⟨fun heq => h (Except.error.inj heq), nofun⟩

theorem ok {v : α} {t : Text} (h : t.length < s.length) : Progress s (.ok (v, t)) := by
  refine ⟨nofun, fun w u heq => ?_⟩
  cases heq
  exact h

theorem mono {r : Except Error (α × Text)} (h : Progress s r) (hle : s.length ≤ s'.length) :
    Progress s' r :=
  ⟨h.fueled, fun v t heq => (h.shorter v t heq).trans_le hle⟩

theorem bind {r : Except Error (α × Text)} {k : α × Text → Except Error (β × Text)}
    (hr : Progress s r) (hk : ∀ v t, t.length < s.length → Progress t (k (v, t))) :
    Progress s (r >>= k) := by
  cases r with
  | error e => exact error fun he => hr.fueled (he ▸ rfl)
  | ok p =>
    have hshort := hr.shorter p.1 p.2 rfl
    exact (hk p.1 p.2 hshort).mono hshort.le

theorem map {r : Except Error (α × Text)} (hr : Progress s r) (f : α → β) :
    Progress s (r.map fun p => (f p.1, p.2)) := by
  cases r with
  | error e => exact error fun he => hr.fueled (he ▸ rfl)
  | ok p => exact ok (hr.shorter p.1 p.2 rfl)

end Progress

theorem length_skipBlanks_le (s : Text) : (skipBlanks s).length ≤ s.length :=
  (List.dropWhile_sublist _).length_le

theorem length_lt_of_skipBlanks {s t : Text} {c : Char} (h : skipBlanks s = c :: t) :
    t.length < s.length := by
  have hle := length_skipBlanks_le s
  rw [h, List.length_cons] at hle
  exact hle

theorem progress_scanUnits (s : Text) : Progress s (scanUnits s) := by
  have hpush : ∀ {s t : Text} (u : ℕ), Progress t (scanUnits t) → t.length ≤ s.length →
      Progress s ((scanUnits t).map (pushUnit u)) :=
    fun u h hle => (h.map (u :: ·)).mono hle
  fun_induction scanUnits s with
  | case1 => exact .error nofun
  | case2 s => exact .ok (Nat.lt_succ_self _)
  | case3 a b c d s u hu ih =>
    refine hpush u ih ?_
    simp only [List.length_cons]
    omega
  | case4 => exact .error nofun
  | case5 e s hne u hu ih =>
    refine hpush u ih ?_
    simp only [List.length_cons]
    omega
  | case6 => exact .error nofun
  | case7 => exact .error nofun
  | case8 c s _ _ _ _ ih => exact hpush _ ih (Nat.le_succ _)

theorem progress_scanString (s : Text) : Progress s (scanString s) :=
  (progress_scanUnits s).map joinSurrogates

theorem progress_scanKey (s : Text) : Progress s (scanKey s) := by
  unfold scanKey
  split
  · refine ((progress_scanString _).bind fun key t ht => ?_).mono (Nat.le_succ _)
    dsimp only
    split
    · rename_i t' hcolon
      have hshort := length_lt_of_skipBlanks hcolon
      exact .ok ((length_skipBlanks_le t').trans_lt hshort)
    · exact .error nofun
  · exact .error nofun

theorem length_scanPlaces_le (s : Text) : (scanPlaces s).2.length ≤ s.length := by
  unfold scanPlaces
  split
  · split
    · exact le_rfl
    · exact ((List.dropWhile_sublist _).length_le).trans (Nat.le_succ _)
  · exact le_rfl

theorem length_scanExponent_le (s : Text) : (scanExponent s).2.length ≤ s.length := by
  unfold scanExponent
  split
  · rename_i c t
    dsimp only
    generalize htail : (if t.head? = some '-' ∨ t.head? = some '+' then t.drop 1 else t) = tail
    have hle : tail.length ≤ t.length := by
      rw [← htail]
      split
      · exact (List.drop_sublist 1 t).length_le
      · exact le_rfl
    split
    · exact ((List.dropWhile_sublist _).length_le.trans hle).trans (Nat.le_succ _)
    · exact le_rfl
  · exact le_rfl

theorem progress_scanUnsigned (limits : Limits) (neg : Bool) (s : Text) :
    Progress s (scanUnsigned limits neg s) := by
  rw [scanUnsigned]
  dsimp only
  generalize hwhole : (if s.head? = some '0' then ['0'] else s.takeWhile Char.isDigit) = whole
  have hrest : whole ≠ [] →
      (scanExponent (scanPlaces (s.drop whole.length)).2).2.length < s.length := by
    intro hne
    have hexponent := length_scanExponent_le (scanPlaces (s.drop whole.length)).2
    have hplaces := length_scanPlaces_le (s.drop whole.length)
    have hpos := List.length_pos_of_ne_nil hne
    have hs : s ≠ [] := by
      rintro rfl
      exact hne hwhole.symm
    have hlength := List.length_pos_of_ne_nil hs
    rw [List.length_drop] at hplaces
    omega
  refine iteInduction (fun _ => .error nofun) fun hne => iteInduction (fun _ =>
    iteInduction (fun _ => .error nofun) fun _ => .ok (hrest hne)) fun _ => .ok (hrest hne)

theorem progress_scanAtom (limits : Limits) (s : Text) : Progress s (scanAtom limits s) := by
  rw [scanAtom]
  split
  · rename_i word v hword
    have hne : word ≠ [] := by
      have hall : ∀ p ∈ constants, p.1 ≠ [] := by decide
      exact hall _ (List.mem_of_find?_eq_some hword)
    have hprefix : word <+: s := by
      have hfound := List.find?_some hword
      exact List.isPrefixOf_iff_prefix.mp hfound
    have hpos := List.length_pos_of_ne_nil hne
    have hle := hprefix.length_le
    refine .ok ?_
    rw [List.length_drop]
    omega
  · split
    · exact (progress_scanUnsigned limits true _).mono (by rw [List.length_drop]; omega)
    · exact progress_scanUnsigned limits false s

/-- What the calls do with enough fuel. -/
structure Fueled (limits : Limits) (fuel : ℕ) : Prop where
  once : ∀ depth s, 2 * s.length < fuel → Progress s (scanOnce limits fuel depth s)
  items : ∀ depth items s, 2 * s.length + 1 < fuel →
    Progress s (scanItems limits fuel depth items s)
  members : ∀ depth entries s, 2 * s.length + 1 < fuel →
    Progress s (scanMembers limits fuel depth entries s)

theorem fueled (limits : Limits) (fuel : ℕ) : Fueled limits fuel := by
  induction fuel with
  | zero => exact ⟨nofun, nofun, nofun⟩
  | succ fuel ih =>
    refine ⟨fun depth s hfuel => ?_, fun depth items s hfuel => ?_,
      fun depth entries s hfuel => ?_⟩
    · unfold scanOnce
      split
      · exact ((progress_scanString _).map Json.str).mono (Nat.le_succ _)
      · rename_i s
        have hle := length_skipBlanks_le s
        rw [List.length_cons] at hfuel
        split
        · exact .error nofun
        · rename_i hclose
          exact .ok ((length_lt_of_skipBlanks hclose).trans (Nat.lt_succ_self _))
        · exact ((ih.members _ [] _ (by omega)).map Json.obj).mono (hle.trans (Nat.le_succ _))
      · rename_i s
        have hle := length_skipBlanks_le s
        rw [List.length_cons] at hfuel
        split
        · exact .error nofun
        · rename_i hclose
          exact .ok ((length_lt_of_skipBlanks hclose).trans (Nat.lt_succ_self _))
        · exact ((ih.items _ [] _ (by omega)).map Json.list).mono (hle.trans (Nat.le_succ _))
      · exact progress_scanAtom limits s
    · unfold scanItems
      refine (ih.once depth s (by omega)).bind fun v t ht => ?_
      dsimp only
      split
      · rename_i hclose
        exact .ok (length_lt_of_skipBlanks hclose)
      · rename_i t' hcomma
        have hshort := length_lt_of_skipBlanks hcomma
        have hle := length_skipBlanks_le t'
        exact (ih.items _ _ _ (by omega)).mono (by omega)
      · exact .error nofun
    · unfold scanMembers
      refine (progress_scanKey s).bind fun key t ht => ?_
      refine (ih.once depth t (by omega)).bind fun v t' ht' => ?_
      dsimp only
      split
      · rename_i hclose
        exact .ok (length_lt_of_skipBlanks hclose)
      · rename_i t'' hcomma
        have hshort := length_lt_of_skipBlanks hcomma
        have hle := length_skipBlanks_le t''
        exact (ih.members _ _ _ (by omega)).mono (by omega)
      · exact .error nofun

/-- **The fuel is enough**: decoding never runs out of it. -/
theorem loads_ne_outOfFuel (limits : Limits) (s : Text) : loads limits s ≠ .error .outOfFuel := by
  have honce := (fueled limits (2 * s.length + 1)).once limits.depth (skipBlanks s)
    (by have hle := length_skipBlanks_le s; omega)
  unfold loads
  split
  · nofun
  · cases hread : scanOnce limits (2 * s.length + 1) limits.depth (skipBlanks s) with
    | error e =>
      rw [hread] at honce
      exact fun heq => honce.fueled (congrArg Except.error (Except.error.inj heq))
    | ok p =>
      rw [Except.bind]
      split <;> nofun

end Json

end Csc512
