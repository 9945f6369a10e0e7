import Csc512.Lib.Json
import Mathlib.Data.List.Chain

/-!
# JSON as Python writes it

The encoder of the module `json` with an indentation, which writes ASCII only: every other code
point becomes an escape, those beyond four hexadecimal digits a surrogate pair. How a floating point
number is printed is a parameter.

Decoding what was written gives the value back. What can go wrong is said by `Writable`: the bounds
of the interpreter, keys that come twice in an object, halves of a surrogate pair that stand next to
each other without being one code point.

## Main results

* `Json.scanUnits_writeStr` — strings
* `Json.scanOnce_write` — values, in front of anything that ends them
* `Json.loads_dumps` — the round trip
-/

namespace Csc512

namespace Json

/-! ### The encoder -/

/-- Four hexadecimal digits. -/
def hexFour (u : ℕ) : Text :=
  [Nat.digitChar (u / 4096 % 16), Nat.digitChar (u / 256 % 16), Nat.digitChar (u / 16 % 16),
    Nat.digitChar (u % 16)]

/-- The escape of a code unit. -/
def writeUnit (u : ℕ) : Text := '\\' :: 'u' :: hexFour u

/-- The first and the second half of a surrogate pair. -/
def highHalf (u : ℕ) : ℕ := 0xD800 + (u - 0x10000) / 0x400 % 0x400

def lowHalf (u : ℕ) : ℕ := 0xDC00 + (u - 0x10000) % 0x400

/-- The letter behind the backslash of a short escape. -/
def shortEscape (u : ℕ) : Option Char :=
  match u with
  | 34 => some '"'
  | 92 => some '\\'
  | 8 => some 'b'
  | 12 => some 'f'
  | 10 => some 'n'
  | 13 => some 'r'
  | 9 => some 't'
  | _ => none

/-- Write a code point. -/
def writePoint (u : ℕ) : Text :=
  match shortEscape u with
  | some c => ['\\', c]
  | none =>
    if 32 ≤ u ∧ u < 127 then [Char.ofNat u]
    else if u < 0x10000 then writeUnit u
    else writeUnit (highHalf u) ++ writeUnit (lowHalf u)

/-- Write a string, with its quotes. -/
def writeStr (s : CodePoints) : Text := '"' :: (s.flatMap writePoint ++ ['"'])

/-- Write an integer. -/
def writeInt (n : ℤ) : Text := if n < 0 then '-' :: natText n.natAbs else natText n.natAbs

/-- A new line, indented. -/
def newline (indent level : ℕ) : Text := '\n' :: List.replicate (indent * level) ' '

mutual

/-- Write a value; `level` is its nesting. -/
def write (repr : Double → Text) (indent : ℕ) : ℕ → Json → Text
  | _, .null => lit "null"
  | _, .bool b => if b then lit "true" else lit "false"
  | _, .int n => writeInt n
  | _, .float x => repr x
  | _, .str s => writeStr s
  | _, .list [] => lit "[]"
  | level, .list (v :: vs) =>
    '[' :: (newline indent (level + 1) ++ (write repr indent (level + 1) v ++
      (writeItems repr indent (level + 1) vs ++ (newline indent level ++ [']']))))
  | _, .obj [] => lit "\x7b\x7d"
  | level, .obj ((k, v) :: es) =>
    '{' :: (newline indent (level + 1) ++ (writeStr k ++ (lit ": " ++
      (write repr indent (level + 1) v ++ (writeMembers repr indent (level + 1) es ++
        (newline indent level ++ ['}']))))))

/-- Write the items of a list behind the first one. -/
def writeItems (repr : Double → Text) (indent : ℕ) : ℕ → List Json → Text
  | _, [] => []
  | level, v :: vs =>
    ',' :: (newline indent level ++ (write repr indent level v ++ writeItems repr indent level vs))

/-- Write the members of an object behind the first one. -/
def writeMembers (repr : Double → Text) (indent : ℕ) : ℕ → List (CodePoints × Json) → Text
  | _, [] => []
  | level, (k, v) :: es =>
    ',' :: (newline indent level ++ (writeStr k ++ (lit ": " ++ (write repr indent level v ++
      writeMembers repr indent level es))))

end

/-- Encode a value. -/
def dumps (repr : Double → Text) (indent : ℕ) (v : Json) : Text := write repr indent 0 v

/-! ### Strings -/

theorem hexDigit_digitChar {d : ℕ} (h : d < 16) : hexDigit (Nat.digitChar d) = some d := by
  have hall : ∀ d < 16, hexDigit (Nat.digitChar d) = some d := by decide
  exact hall d h

theorem hexUnit_hexFour {u : ℕ} (h : u < 0x10000) :
    hexUnit (Nat.digitChar (u / 4096 % 16)) (Nat.digitChar (u / 256 % 16))
      (Nat.digitChar (u / 16 % 16)) (Nat.digitChar (u % 16)) = some u := by
  have hlt : ∀ n : ℕ, n % 16 < 16 := fun n => Nat.mod_lt n (by decide)
  simp only [hexUnit, List.foldlM_cons, List.foldlM_nil, hexDigit_digitChar (hlt _),
    Option.map_some, Option.bind_eq_bind, Option.bind_some, Option.pure_def]
  congr 1
  omega

/-- An escaped code unit is read back. -/
theorem scanUnits_writeUnit {u : ℕ} (h : u < 0x10000) (s : Text) :
    scanUnits (writeUnit u ++ s) = (scanUnits s).map (pushUnit u) := by
  rw [writeUnit, hexFour, List.cons_append, List.cons_append, List.cons_append, List.cons_append,
    List.cons_append, List.cons_append, List.nil_append, scanUnits, hexUnit_hexFour h]

/-- A character that needs no escape is read back. -/
theorem scanUnits_plain {c : Char} (hquote : c ≠ '"') (hback : c ≠ '\\') (hlow : ¬ c.toNat < 32)
    (s : Text) : scanUnits (c :: s) = (scanUnits s).map (pushUnit c.toNat) := by
  rw [scanUnits]
  · rw [if_neg (by simp [hback, hlow])]
  · exact fun h => absurd h hquote
  · intro a b c' d s' h
    exact absurd h hback
  · intro e s' h
    exact absurd h hback

/-- A short escape is read back. -/
theorem scanUnits_escape {e : Char} {u : ℕ} (hu : e ≠ 'u') (he : escape e = some u) (s : Text) :
    scanUnits ('\\' :: e :: s) = (scanUnits s).map (pushUnit u) := by
  rw [scanUnits]
  · rw [he]
  · intro a b c d s' h
    exact absurd h hu

theorem escape_shortEscape {u : ℕ} {c : Char} (h : shortEscape u = some c) :
    escape c = some u ∧ c ≠ 'u' ∧ u < 0x10000 := by
  unfold shortEscape at h
  split at h <;> cases h <;> exact ⟨rfl, by decide, by decide⟩

theorem shortEscape_eq_none {u : ℕ} (h : shortEscape u = none) : u ≠ 34 ∧ u ≠ 92 := by
  constructor <;> rintro rfl <;> cases h

theorem ofNat_plain {u : ℕ} (h₁ : 32 ≤ u) (h₂ : u < 127) (hquote : u ≠ 34) (hback : u ≠ 92) :
    (Char.ofNat u).toNat = u ∧ Char.ofNat u ≠ '"' ∧ Char.ofNat u ≠ '\\' := by
  have hall : ∀ u < 127, 32 ≤ u ∧ u ≠ 34 ∧ u ≠ 92 →
      (Char.ofNat u).toNat = u ∧ Char.ofNat u ≠ '"' ∧ Char.ofNat u ≠ '\\' := by decide +kernel
  exact hall u h₂ ⟨h₁, hquote, hback⟩

/-- The code units of a code point. -/
def unitsOf (u : ℕ) : List ℕ := if u < 0x10000 then [u] else [highHalf u, lowHalf u]

/-- What is written for a code point is read as its code units. -/
theorem scanUnits_writePoint (u : ℕ) (s : Text) :
    scanUnits (writePoint u ++ s) = (scanUnits s).map fun p => (unitsOf u ++ p.1, p.2) := by
  unfold writePoint
  split
  · rename_i c hshort
    obtain ⟨hescape, hu, hlt⟩ := escape_shortEscape hshort
    rw [List.cons_append, List.cons_append, List.nil_append, unitsOf, if_pos hlt,
      scanUnits_escape hu hescape]
    rfl
  · rename_i hshort
    obtain ⟨hquote, hback⟩ := shortEscape_eq_none hshort
    split
    · rename_i hplain
      obtain ⟨hc, hnq, hnb⟩ := ofNat_plain hplain.1 hplain.2 hquote hback
      have hlt : u < 0x10000 := hplain.2.trans (by decide)
      rw [List.cons_append, List.nil_append, unitsOf, if_pos hlt,
        scanUnits_plain hnq hnb (by rw [hc]; exact not_lt.mpr hplain.1), hc]
      rfl
    · split
      · rename_i hlt
        rw [scanUnits_writeUnit hlt, unitsOf, if_pos hlt]
        rfl
      · rename_i hlt
        have hhigh : highHalf u < 0x10000 := by
          unfold highHalf
          omega
        have hlow : lowHalf u < 0x10000 := by
          unfold lowHalf
          omega
        rw [List.append_assoc, scanUnits_writeUnit hhigh, scanUnits_writeUnit hlow, unitsOf,
          if_neg hlt]
        cases scanUnits s <;> rfl

/-- The halves of a surrogate pair. -/
def IsHigh (u : ℕ) : Prop := 0xD800 ≤ u ∧ u < 0xDC00

def IsLow (u : ℕ) : Prop := 0xDC00 ≤ u ∧ u < 0xE000

/-- A string that is decoded as it is: its code points are code points, and no first half of a
surrogate pair stands in front of a second one. -/
structure Encodable (s : CodePoints) : Prop where
  inRange : ∀ u ∈ s, u < 0x110000
  apart : s.IsChain fun u v => ¬ (IsHigh u ∧ IsLow v)

theorem scanUnits_flatMap (s : CodePoints) (rest : Text) :
    scanUnits (s.flatMap writePoint ++ '"' :: rest) = .ok (s.flatMap unitsOf, rest) := by
  induction s with
  | nil => rw [List.flatMap_nil, List.nil_append, scanUnits, List.flatMap_nil]
  | cons u s ih =>
    rw [List.flatMap_cons, List.append_assoc, scanUnits_writePoint, ih, List.flatMap_cons]
    rfl

theorem joinSurrogates_pair {u : ℕ} (h : 0x10000 ≤ u) (hu : u < 0x110000) (us : CodePoints) :
    joinSurrogates (highHalf u :: lowHalf u :: us) = u :: joinSurrogates us := by
  have hhigh : 0xD800 ≤ highHalf u ∧ highHalf u < 0xDC00 := by
    unfold highHalf
    omega
  have hlow : 0xDC00 ≤ lowHalf u ∧ lowHalf u < 0xE000 := by
    unfold lowHalf
    omega
  have hvalue : 0x10000 + (highHalf u - 0xD800) * 0x400 + (lowHalf u - 0xDC00) = u := by
    unfold highHalf lowHalf
    omega
  rw [joinSurrogates, if_pos ⟨hhigh.1, hhigh.2, hlow.1, hlow.2⟩, hvalue]

theorem joinSurrogates_apart {u v : ℕ} (h : ¬ (IsHigh u ∧ IsLow v)) (us : CodePoints) :
    joinSurrogates (u :: v :: us) = u :: joinSurrogates (v :: us) := by
  rw [joinSurrogates, if_neg]
  rintro ⟨h₁, h₂, h₃, h₄⟩
  exact h ⟨⟨h₁, h₂⟩, h₃, h₄⟩

/-- The first code unit is the second half of a pair only if the first code point is. -/
theorem head_unitsOf {v : ℕ} : ∃ w ws, unitsOf v = w :: ws ∧ (IsLow w → IsLow v) := by
  unfold unitsOf
  split
  · exact ⟨v, [], rfl, id⟩
  · refine ⟨highHalf v, [lowHalf v], rfl, fun h => ?_⟩
    unfold IsLow highHalf at h
    omega

/-- Surrogate pairs are joined to what they were made of. -/
theorem joinSurrogates_flatMap {s : CodePoints} (h : Encodable s) :
    joinSurrogates (s.flatMap unitsOf) = s := by
  induction s with
  | nil =>
    rw [List.flatMap_nil, joinSurrogates]
    exact nofun
  | cons u s ih =>
    have htail : Encodable s :=
      ⟨fun v hv => h.inRange v (List.mem_cons_of_mem _ hv), h.apart.tail⟩
    rw [List.flatMap_cons]
    by_cases hlt : u < 0x10000
    · rw [unitsOf, if_pos hlt, List.cons_append, List.nil_append]
      cases s with
      | nil =>
        rw [List.flatMap_nil, joinSurrogates]
        exact nofun
      | cons v s =>
        obtain ⟨w, ws, hw, hlow⟩ := @head_unitsOf v
        have hapart := (List.isChain_cons_cons.mp h.apart).1
        have hjoin := ih htail
        rw [List.flatMap_cons, hw, List.cons_append] at hjoin ⊢
        rw [joinSurrogates_apart fun hs => hapart ⟨hs.1, hlow hs.2⟩, hjoin]
    · rw [unitsOf, if_neg hlt, List.cons_append, List.cons_append, List.nil_append,
        joinSurrogates_pair (not_lt.mp hlt) (h.inRange u List.mem_cons_self), ih htail]

/-- **Strings** are read back. -/
theorem scanString_writeStr {s : CodePoints} (h : Encodable s) (rest : Text) :
    scanString (s.flatMap writePoint ++ '"' :: rest) = .ok (s, rest) := by
  rw [scanString, scanUnits_flatMap]
  exact congrArg (fun us => Except.ok (us, rest)) (joinSurrogates_flatMap h)

/-! ### Numbers and constants -/

/-- What may follow a number: nothing that would go on with it. -/
def Ends (rest : Text) : Prop :=
  ∀ c ∈ rest.head?, c.isDigit = false ∧ c ≠ '.' ∧ c ≠ 'e' ∧ c ≠ 'E'

theorem digitsValue_natText (n : ℕ) : digitsValue (natText n) = n :=
  Nat.ofDigitChars_ten_toDigits

/-- The digits in front of the end of a number. -/
theorem takeWhile_natText {rest : Text} (h : Ends rest) (n : ℕ) :
    (natText n ++ rest).takeWhile Char.isDigit = natText n := by
  rw [List.takeWhile_append_of_pos fun c => isDigit_of_mem_natText]
  cases rest with
  | nil => simp
  | cons c rest =>
    have hc := (h c rfl).1
    simp [hc]

theorem scanPlaces_of_ends {rest : Text} (h : Ends rest) : scanPlaces rest = ([], rest) := by
  unfold scanPlaces
  split
  · exact absurd rfl (h '.' rfl).2.1
  · rfl

theorem scanExponent_of_ends {rest : Text} (h : Ends rest) :
    scanExponent rest = (none, rest) := by
  cases rest with
  | nil => rfl
  | cons c rest =>
    obtain ⟨-, -, he, hE⟩ := h c rfl
    simp [scanExponent, he, hE]

/-- The digits of a number are within the bounds. -/
def Limits.Allows (limits : Limits) (n : ℕ) : Prop :=
  limits.maxStrDigits = 0 ∨ (natText n).length ≤ limits.maxStrDigits

instance (limits : Limits) (n : ℕ) : Decidable (limits.Allows n) :=
  inferInstanceAs (Decidable (_ ∨ _))

theorem scanUnsigned_natText {limits : Limits} {n : ℕ} (hn : limits.Allows n) (neg : Bool)
    {rest : Text} (h : Ends rest) : scanUnsigned limits neg (natText n ++ rest) =
      .ok (.int (if neg then -(n : ℤ) else n), rest) := by
  have hwhole : (if (natText n ++ rest).head? = some '0' then ['0']
      else (natText n ++ rest).takeWhile Char.isDigit) = natText n := by
    rcases Nat.eq_zero_or_pos n with rfl | hpos
    · rfl
    · rw [List.head?_append_of_ne_nil _ (natText_ne_nil n), if_neg (head?_natText_ne hpos),
        takeWhile_natText h]
  have hlimit : ¬ (0 < limits.maxStrDigits ∧ limits.maxStrDigits < (natText n).length) := by
    rcases hn with hn | hn <;> omega
  rw [scanUnsigned, hwhole, List.drop_left, scanPlaces_of_ends h]
  simp only [scanExponent_of_ends h, natText_ne_nil, if_false, and_self, if_true, hlimit,
    digitsValue_natText]

/-- A value begins with a character that is neither blank nor the end of a list or an object. -/
def Begins (s : Text) : Prop :=
  ∃ c t, s = c :: t ∧ c ∉ [' ', '\t', '\n', '\r', ']', '}', '\ufeff']

/-- No constant is written like a number, with or without a sign. -/
theorem find?_constants_natText (n : ℕ) (rest : Text) :
    constants.find? (fun p => p.1.isPrefixOf (natText n ++ rest)) = none ∧
      constants.find? (fun p => p.1.isPrefixOf ('-' :: (natText n ++ rest))) = none := by
  obtain ⟨c, t, hc, hdigit⟩ := exists_natText n
  have hne : ∀ d ∈ ['n', 't', 'f', 'N', 'I', '-'], (d == c) = false := by
    intro d hd
    rw [beq_eq_false_iff_ne]
    rintro rfl
    have hall : ∀ d ∈ ['n', 't', 'f', 'N', 'I', '-'], d.isDigit = false := by decide
    rw [hall d hd] at hdigit
    cases hdigit
  simp only [List.forall_mem_cons, List.not_mem_nil, false_imp_iff, implies_true] at hne
  rw [hc]
  simp [constants, lit, List.isPrefixOf, hne]

/-- **Integers** are read back. -/
theorem scanAtom_writeInt {limits : Limits} {n : ℤ} (hn : limits.Allows n.natAbs) {rest : Text}
    (h : Ends rest) : scanAtom limits (writeInt n ++ rest) = .ok (.int n, rest) := by
  obtain ⟨hplain, hminus⟩ := find?_constants_natText n.natAbs rest
  unfold writeInt
  split
  · rename_i hneg
    have hvalue : -(n.natAbs : ℤ) = n := by omega
    rw [List.cons_append, scanAtom, hminus]
    simp only [List.head?_cons, if_true, List.drop_succ_cons, List.drop_zero]
    rw [scanUnsigned_natText hn true h, if_pos rfl, hvalue]
  · rename_i hpos
    have hvalue : (n.natAbs : ℤ) = n := by omega
    obtain ⟨c, t, hc, hdigit⟩ := exists_natText n.natAbs
    have hhead : (natText n.natAbs ++ rest).head? ≠ some '-' := by
      rw [hc]
      intro hminus
      rw [Option.some.inj hminus] at hdigit
      cases hdigit
    rw [scanAtom, hplain]
    simp only [hhead, if_false]
    rw [scanUnsigned_natText hn false h, if_neg Bool.false_ne_true, hvalue]

/-! ### Values -/

section Values

variable (limits : Limits) (repr : Double → Text)

/-- A floating point number is printed as something that is read as this number. -/
structure ReadsBack (x : Double) : Prop where
  begins : ∃ c t, repr x = c :: t ∧
    c ∉ [' ', '\t', '\n', '\r', ']', '}', '"', '{', '[', '\ufeff']
  reads : ∀ rest, Ends rest → scanAtom limits (repr x ++ rest) = .ok (.float x, rest)

/-- The values that can be written and read, nested at most `depth` deep. -/
def Writable : ℕ → Json → Prop
  | _, .null | _, .bool _ => True
  | _, .int n => limits.Allows n.natAbs
  | _, .float x => ReadsBack limits repr x
  | _, .str s => Encodable s
  | 0, .list _ | 0, .obj _ => False
  | depth + 1, .list vs => ∀ v ∈ vs, Writable depth v
  | depth + 1, .obj es => (es.map Prod.fst).Nodup ∧ ∀ e ∈ es, Encodable e.1 ∧ Writable depth e.2

variable {limits repr} {indent : ℕ}

/-- What is written for a value begins with a character that is not skipped. -/
theorem begins_write {depth : ℕ} {v : Json} (h : Writable limits repr depth v) (level : ℕ) :
    Begins (write repr indent level v) := by
  cases v with
  | null => exact ⟨'n', _, rfl, by decide⟩
  | bool b => cases b <;> exact ⟨_, _, rfl, by decide⟩
  | int n =>
    rw [write, writeInt]
    split
    · exact ⟨'-', _, rfl, by decide⟩
    · obtain ⟨c, t, hc, hdigit⟩ := exists_natText n.natAbs
      refine ⟨c, t, hc, fun hmem => ?_⟩
      have hall : ∀ d ∈ [' ', '\t', '\n', '\r', ']', '}', '\ufeff'], d.isDigit = false := by
        decide
      rw [hall c hmem] at hdigit
      cases hdigit
  | float x =>
    have hx : ReadsBack limits repr x := by cases depth <;> exact h
    obtain ⟨c, t, hc, hmem⟩ := hx.begins
    rw [write]
    exact ⟨c, t, hc, fun hin => hmem (by simp only [List.mem_cons] at hin ⊢; tauto)⟩
  | str s =>
    rw [write, writeStr]
    exact ⟨'"', _, rfl, by decide⟩
  | list vs =>
    cases vs <;> rw [write] <;> exact ⟨'[', _, rfl, by decide⟩
  | obj es =>
    rcases es with _ | ⟨⟨k, v⟩, es⟩ <;> rw [write] <;> exact ⟨'{', _, rfl, by decide⟩

theorem skipBlanks_of_begins {s : Text} (h : Begins s) (rest : Text) :
    skipBlanks (s ++ rest) = s ++ rest := by
  obtain ⟨c, t, rfl, hc⟩ := h
  simp only [List.mem_cons, List.not_mem_nil, or_false, not_or] at hc
  simp [skipBlanks, hc]

theorem skipBlanks_newline (indent level : ℕ) (s : Text) :
    skipBlanks (newline indent level ++ s) = skipBlanks s := by
  rw [newline, List.cons_append, skipBlanks, List.dropWhile_cons_of_pos (by decide),
    List.dropWhile_append_of_pos]
  · rfl
  · intro c hc
    rw [List.eq_of_mem_replicate hc]
    decide

/-- Neither a comma nor a new line goes on with a number. -/
theorem ends_comma (s : Text) : Ends (',' :: s) := by
  intro c hc
  obtain rfl := Option.some.inj hc
  decide

theorem ends_newline (indent level : ℕ) (s : Text) : Ends (newline indent level ++ s) := by
  intro c hc
  obtain rfl := Option.some.inj hc
  decide

theorem ends_nil : Ends [] := nofun

/-- The characters in front of a value decide how it is read. -/
theorem scanOnce_atom {fuel depth : ℕ} {c : Char} {t : Text} (h : c ∉ ['"', '{', '[']) :
    scanOnce limits (fuel + 1) depth (c :: t) = scanAtom limits (c :: t) := by
  simp only [List.mem_cons, List.not_mem_nil, or_false, not_or] at h
  rw [scanOnce]
  · exact fun s hs => absurd (List.cons.inj hs).1 h.1
  · exact fun s hs => absurd (List.cons.inj hs).1 h.2.1
  · exact fun s hs => absurd (List.cons.inj hs).1 h.2.2

/-- Values nested at most `depth` deep are read back, with enough fuel and in front of whatever ends
a number. -/
def ReadBack (limits : Limits) (repr : Double → Text) (indent depth : ℕ) : Prop :=
  ∀ v, Writable limits repr depth v → ∀ level fuel rest, Ends rest →
    2 * (write repr indent level v).length ≤ fuel →
    scanOnce limits fuel depth (write repr indent level v ++ rest) = .ok (v, rest)

theorem scanItems_last {fuel depth : ℕ} {items : List Json} {s t u : Text} {v : Json}
    (hv : scanOnce limits fuel depth s = .ok (v, t)) (ht : skipBlanks t = ']' :: u) :
    scanItems limits (fuel + 1) depth items s = .ok (items ++ [v], u) := by
  rw [scanItems, hv]
  simp only [bind, Except.bind, ht]

theorem scanItems_more {fuel depth : ℕ} {items : List Json} {s t u : Text} {v : Json}
    (hv : scanOnce limits fuel depth s = .ok (v, t)) (ht : skipBlanks t = ',' :: u) :
    scanItems limits (fuel + 1) depth items s =
      scanItems limits fuel depth (items ++ [v]) (skipBlanks u) := by
  rw [scanItems, hv]
  simp only [bind, Except.bind, ht]

theorem scanMembers_last {fuel depth : ℕ} {entries : List (CodePoints × Json)} {s s' t u : Text}
    {k : CodePoints} {v : Json} (hk : scanKey s = .ok (k, s'))
    (hv : scanOnce limits fuel depth s' = .ok (v, t)) (ht : skipBlanks t = '}' :: u) :
    scanMembers limits (fuel + 1) depth entries s = .ok (setItem k v entries, u) := by
  rw [scanMembers, hk]
  simp only [bind, Except.bind, hv, ht]

theorem scanMembers_more {fuel depth : ℕ} {entries : List (CodePoints × Json)} {s s' t u : Text}
    {k : CodePoints} {v : Json} (hk : scanKey s = .ok (k, s'))
    (hv : scanOnce limits fuel depth s' = .ok (v, t)) (ht : skipBlanks t = ',' :: u) :
    scanMembers limits (fuel + 1) depth entries s =
      scanMembers limits fuel depth (setItem k v entries) (skipBlanks u) := by
  rw [scanMembers, hk]
  simp only [bind, Except.bind, hv, ht]

theorem skipBlanks_cons {c : Char} (h : c ∉ [' ', '\t', '\n', '\r']) (s : Text) :
    skipBlanks (c :: s) = c :: s := by
  rw [skipBlanks, List.dropWhile_cons_of_neg (by simpa using h)]

/-- The items of a list are read up to its end. -/
theorem scanItems_write {depth : ℕ} (ih : ReadBack limits repr indent depth) (level level' : ℕ)
    (rest : Text) (vs : List Json) : ∀ (v : Json) (items : List Json) (fuel : ℕ),
    (∀ w ∈ v :: vs, Writable limits repr depth w) →
    2 * ((write repr indent level v).length + (writeItems repr indent level vs).length) < fuel →
    scanItems limits fuel depth items (write repr indent level v ++
      (writeItems repr indent level vs ++ (newline indent level' ++ ']' :: rest))) =
        .ok (items ++ v :: vs, rest) := by
  induction vs with
  | nil =>
    intro v items fuel hw hfuel
    obtain ⟨fuel, rfl⟩ : ∃ m, fuel = m + 1 := ⟨fuel - 1, by omega⟩
    have hv := ih v (hw v List.mem_cons_self) level fuel (newline indent level' ++ ']' :: rest)
      (ends_newline _ _ _) (by omega)
    rw [writeItems, List.nil_append]
    refine scanItems_last hv ?_
    rw [skipBlanks_newline, skipBlanks_cons (by decide)]
  | cons v' vs hvs =>
    intro v items fuel hw hfuel
    obtain ⟨fuel, rfl⟩ : ∃ m, fuel = m + 1 := ⟨fuel - 1, by omega⟩
    rw [writeItems, List.cons_append, List.append_assoc, List.append_assoc]
    have hlen : (writeItems repr indent level (v' :: vs)).length =
        (newline indent level).length + (write repr indent level v').length +
          (writeItems repr indent level vs).length + 1 := by
      rw [writeItems, List.length_cons, List.length_append, List.length_append]
      omega
    have hv := ih v (hw v List.mem_cons_self) level fuel _ (ends_comma
      (newline indent level ++ (write repr indent level v' ++
        (writeItems repr indent level vs ++ (newline indent level' ++ ']' :: rest))))) (by omega)
    have hv' := hw v' (List.mem_cons_of_mem _ List.mem_cons_self)
    rw [scanItems_more hv (skipBlanks_cons (by decide) _), skipBlanks_newline,
      skipBlanks_of_begins (begins_write hv' level),
      hvs v' (items ++ [v]) fuel (fun w hmem => hw w (List.mem_cons_of_mem _ hmem)) (by omega)]
    rw [List.append_assoc]
    rfl

/-- A key is read back, with the colon and the blank behind it. -/
theorem scanKey_write {k : CodePoints} (hk : Encodable k) {s rest : Text} (hs : Begins s) :
    scanKey (writeStr k ++ (lit ": " ++ (s ++ rest))) = .ok (k, s ++ rest) := by
  have hcolon : skipBlanks (lit ": " ++ (s ++ rest)) = ':' :: ' ' :: (s ++ rest) :=
    skipBlanks_cons (by decide) _
  have hblank : skipBlanks (' ' :: (s ++ rest)) = s ++ rest := by
    rw [skipBlanks, List.dropWhile_cons_of_pos (by decide)]
    exact skipBlanks_of_begins hs rest
  rw [writeStr, List.cons_append, List.append_assoc, List.cons_append, List.nil_append, scanKey,
    scanString_writeStr hk]
  simp only [bind, Except.bind, hcolon, hblank]

/-- A member with a new key is put behind the others. -/
theorem setItem_of_not_mem {k : CodePoints} {v : Json} {entries : List (CodePoints × Json)}
    (h : k ∉ entries.map Prod.fst) : setItem k v entries = entries ++ [(k, v)] := if_neg h

theorem not_mem_of_nodup {k : CodePoints} {v : Json} {entries es : List (CodePoints × Json)}
    (h : ((entries ++ (k, v) :: es).map Prod.fst).Nodup) : k ∉ entries.map Prod.fst := by
  rw [List.map_append, List.map_cons, List.nodup_append] at h
  exact fun hk => h.2.2 k hk k List.mem_cons_self rfl

/-- The members of an object are read up to its end. -/
theorem scanMembers_write {depth : ℕ} (ih : ReadBack limits repr indent depth) (level level' : ℕ)
    (rest : Text) (es : List (CodePoints × Json)) :
    ∀ (k : CodePoints) (v : Json) (entries : List (CodePoints × Json)) (fuel : ℕ),
    (∀ e ∈ (k, v) :: es, Encodable e.1 ∧ Writable limits repr depth e.2) →
    ((entries ++ (k, v) :: es).map Prod.fst).Nodup →
    2 * ((write repr indent level v).length + (writeMembers repr indent level es).length) < fuel →
    scanMembers limits fuel depth entries (writeStr k ++ (lit ": " ++ (write repr indent level v ++
      (writeMembers repr indent level es ++ (newline indent level' ++ '}' :: rest))))) =
        .ok (entries ++ (k, v) :: es, rest) := by
  induction es with
  | nil =>
    intro k v entries fuel hw hnodup hfuel
    obtain ⟨fuel, rfl⟩ : ∃ m, fuel = m + 1 := ⟨fuel - 1, by omega⟩
    obtain ⟨hk, hv⟩ := hw (k, v) List.mem_cons_self
    have hread := ih v hv level fuel (newline indent level' ++ '}' :: rest)
      (ends_newline _ _ _) (by omega)
    rw [writeMembers, List.nil_append]
    rw [scanMembers_last (scanKey_write hk (begins_write hv level)) hread
      (by rw [skipBlanks_newline, skipBlanks_cons (by decide)]),
      setItem_of_not_mem (not_mem_of_nodup hnodup)]
  | cons e es hes =>
    obtain ⟨k', v'⟩ := e
    intro k v entries fuel hw hnodup hfuel
    obtain ⟨fuel, rfl⟩ : ∃ m, fuel = m + 1 := ⟨fuel - 1, by omega⟩
    obtain ⟨hk, hv⟩ := hw (k, v) List.mem_cons_self
    obtain ⟨hk', hv'⟩ := hw (k', v') (List.mem_cons_of_mem _ List.mem_cons_self)
    have hlen : (write repr indent level v').length + (writeMembers repr indent level es).length <
        (writeMembers repr indent level ((k', v') :: es)).length := by
      rw [writeMembers, List.length_cons, List.length_append, List.length_append,
        List.length_append, List.length_append]
      omega
    have hread := ih v hv level fuel (writeMembers repr indent level ((k', v') :: es) ++
      (newline indent level' ++ '}' :: rest)) (by rw [writeMembers]; exact ends_comma _) (by omega)
    have hmore : skipBlanks (writeMembers repr indent level ((k', v') :: es) ++
        (newline indent level' ++ '}' :: rest)) = ',' :: (newline indent level ++ (writeStr k' ++
          (lit ": " ++ (write repr indent level v' ++ (writeMembers repr indent level es ++
            (newline indent level' ++ '}' :: rest)))))) := by
      rw [writeMembers, List.cons_append, skipBlanks_cons (by decide)]
      simp only [List.append_assoc]
    have hbegins : Begins (writeStr k') := ⟨'"', _, rfl, by decide⟩
    rw [scanMembers_more (scanKey_write hk (begins_write hv level)) hread hmore,
      setItem_of_not_mem (not_mem_of_nodup hnodup), skipBlanks_newline,
      skipBlanks_of_begins hbegins,
      hes k' v' (entries ++ [(k, v)]) fuel (fun e he => hw e (List.mem_cons_of_mem _ he))
        (by rw [List.append_assoc]; exact hnodup) (by omega), List.append_assoc]
    rfl

theorem scanOnce_list {fuel depth : ℕ} {s t rest : Text} {vs : List Json}
    (hs : skipBlanks s = t) (ht : ∀ u, t ≠ ']' :: u)
    (h : scanItems limits fuel depth [] t = .ok (vs, rest)) :
    scanOnce limits (fuel + 1) (depth + 1) ('[' :: s) = .ok (.list vs, rest) := by
  rw [scanOnce.eq_8 _ _ _ _ (fun u hu => ht u (hs.symm.trans hu)), hs, h]
  rfl

theorem scanOnce_obj {fuel depth : ℕ} {s t rest : Text} {es : List (CodePoints × Json)}
    (hs : skipBlanks s = t) (ht : ∀ u, t ≠ '}' :: u)
    (h : scanMembers limits fuel depth [] t = .ok (es, rest)) :
    scanOnce limits (fuel + 1) (depth + 1) ('{' :: s) = .ok (.obj es, rest) := by
  rw [scanOnce.eq_5 _ _ _ _ (fun u hu => ht u (hs.symm.trans hu)), hs, h]
  rfl

theorem Begins.append_ne {s : Text} (h : Begins s) (rest : Text) {c : Char}
    (hc : c ∈ [']', '}', '\ufeff']) (u : Text) : s ++ rest ≠ c :: u := by
  obtain ⟨d, t, rfl, hd⟩ := h
  rw [List.cons_append]
  intro heq
  obtain rfl := (List.cons.inj heq).1
  simp only [List.mem_cons, List.not_mem_nil, or_false] at hc
  rcases hc with rfl | rfl | rfl <;> exact hd (by decide)

theorem cons_writeInt (n : ℤ) : ∃ c t, writeInt n = c :: t ∧ c ∉ ['"', '{', '['] := by
  unfold writeInt
  split
  · exact ⟨'-', _, rfl, by decide⟩
  · obtain ⟨c, t, hc, hdigit⟩ := exists_natText n.natAbs
    refine ⟨c, t, hc, fun hmem => ?_⟩
    have hall : ∀ d ∈ ['"', '{', '['], d.isDigit = false := by decide
    rw [hall c hmem] at hdigit
    cases hdigit

/-- Values that are neither lists nor objects are read back. -/
theorem scanOnce_writeAtom {fuel depth level : ℕ} {v : Json} {rest : Text}
    (hv : Writable limits repr depth v) (hlist : ∀ vs, v ≠ .list vs) (hobj : ∀ es, v ≠ .obj es)
    (hends : Ends rest) :
    scanOnce limits (fuel + 1) depth (write repr indent level v ++ rest) = .ok (v, rest) := by
  cases v with
  | null =>
    rw [write, show lit "null" = 'n' :: lit "ull" from rfl, List.cons_append,
      scanOnce_atom (by decide)]
    rfl
  | bool b =>
    cases b with
    | false =>
      rw [write, if_neg Bool.false_ne_true, show lit "false" = 'f' :: lit "alse" from rfl,
        List.cons_append, scanOnce_atom (by decide)]
      rfl
    | true =>
      rw [write, if_pos rfl, show lit "true" = 't' :: lit "rue" from rfl, List.cons_append,
        scanOnce_atom (by decide)]
      rfl
  | int n =>
    have hn : limits.Allows n.natAbs := by cases depth <;> exact hv
    have hread := scanAtom_writeInt hn hends
    obtain ⟨c, t, hc, hmem⟩ := cons_writeInt n
    rw [write]
    rw [hc, List.cons_append] at hread ⊢
    rw [scanOnce_atom hmem, hread]
  | float x =>
    have hx : ReadsBack limits repr x := by cases depth <;> exact hv
    obtain ⟨c, t, hc, hmem⟩ := hx.begins
    have hread := hx.reads rest hends
    rw [write]
    rw [hc, List.cons_append] at hread ⊢
    rw [scanOnce_atom (fun hin => hmem (by simp only [List.mem_cons] at hin ⊢; tauto)), hread]
  | str s =>
    have hs : Encodable s := by cases depth <;> exact hv
    rw [write, writeStr, List.cons_append, List.append_assoc, List.cons_append, List.nil_append,
      scanOnce, scanString_writeStr hs]
    rfl
  | list vs => exact absurd rfl (hlist vs)
  | obj es => exact absurd rfl (hobj es)

/-- A list is read back if its items are. -/
theorem scanOnce_writeList {depth : ℕ} (ih : ReadBack limits repr indent depth) {vs : List Json}
    (hvs : ∀ v ∈ vs, Writable limits repr depth v) {level fuel : ℕ} (rest : Text)
    (hfuel : 2 * (write repr indent level (.list vs)).length ≤ fuel + 1) :
    scanOnce limits (fuel + 1) (depth + 1) (write repr indent level (.list vs) ++ rest) =
      .ok (.list vs, rest) := by
  cases vs with
  | nil =>
    rw [write, show lit "[]" = '[' :: [']'] from rfl, List.cons_append, List.cons_append,
      List.nil_append]
    exact scanOnce.eq_7 _ _ _ _ _ (Nat.succ_ne_zero depth) (skipBlanks_cons (by decide) _)
  | cons v vs =>
    have hbegins : Begins (write repr indent (level + 1) v) :=
      begins_write (hvs v List.mem_cons_self) (level + 1)
    rw [write] at hfuel ⊢
    simp only [List.length_cons, List.length_append] at hfuel
    rw [List.cons_append, List.append_assoc]
    refine scanOnce_list (skipBlanks_newline _ _ _) ?_ ?_
    · rw [List.append_assoc, skipBlanks_of_begins hbegins]
      exact hbegins.append_ne _ (by decide)
    · rw [List.append_assoc, skipBlanks_of_begins hbegins, List.append_assoc, List.append_assoc]
      exact scanItems_write ih (level + 1) level rest vs v [] fuel hvs (by omega)

/-- An object is read back if its values are. -/
theorem scanOnce_writeObj {depth : ℕ} (ih : ReadBack limits repr indent depth)
    {es : List (CodePoints × Json)} (hnodup : (es.map Prod.fst).Nodup)
    (hes : ∀ e ∈ es, Encodable e.1 ∧ Writable limits repr depth e.2) {level fuel : ℕ} (rest : Text)
    (hfuel : 2 * (write repr indent level (.obj es)).length ≤ fuel + 1) :
    scanOnce limits (fuel + 1) (depth + 1) (write repr indent level (.obj es) ++ rest) =
      .ok (.obj es, rest) := by
  rcases es with _ | ⟨⟨k, v⟩, es⟩
  · rw [write, show lit "\x7b\x7d" = '{' :: ['}'] from rfl, List.cons_append, List.cons_append,
      List.nil_append]
    exact scanOnce.eq_4 _ _ _ _ _ (Nat.succ_ne_zero depth) (skipBlanks_cons (by decide) _)
  · have hbegins : Begins (writeStr k) := ⟨'"', _, rfl, by decide⟩
    rw [write] at hfuel ⊢
    simp only [List.length_cons, List.length_append] at hfuel
    rw [List.cons_append, List.append_assoc]
    refine scanOnce_obj (skipBlanks_newline _ _ _) ?_ ?_
    · rw [List.append_assoc, skipBlanks_of_begins hbegins]
      exact hbegins.append_ne _ (by decide)
    · rw [List.append_assoc, skipBlanks_of_begins hbegins]
      simp only [List.append_assoc]
      exact scanMembers_write ih (level + 1) level rest es k v [] fuel hes hnodup (by omega)

/-- **Values** are read back. -/
theorem scanOnce_write (limits : Limits) (repr : Double → Text) (indent depth : ℕ) :
    ReadBack limits repr indent depth := by
  have hfueled : ∀ depth v, Writable limits repr depth v → ∀ level fuel,
      2 * (write repr indent level v).length ≤ fuel → ∃ m, fuel = m + 1 := by
    intro depth v hv level fuel hfuel
    obtain ⟨c, t, hc, -⟩ := begins_write hv level
    rw [hc, List.length_cons] at hfuel
    exact ⟨fuel - 1, by omega⟩
  induction depth with
  | zero =>
    intro v hv level fuel rest hends hfuel
    obtain ⟨fuel, rfl⟩ := hfueled 0 v hv level fuel hfuel
    refine scanOnce_writeAtom hv ?_ ?_ hends
    · rintro vs rfl
      exact hv
    · rintro es rfl
      exact hv
  | succ depth ih =>
    intro v hv level fuel rest hends hfuel
    obtain ⟨fuel, rfl⟩ := hfueled (depth + 1) v hv level fuel hfuel
    cases v with
    | list vs => exact scanOnce_writeList ih hv rest hfuel
    | obj es => exact scanOnce_writeObj ih hv.1 hv.2 rest hfuel
    | null | bool | int | float | str => exact scanOnce_writeAtom hv nofun nofun hends

/-- **The round trip.** What was written is decoded to the value it was written for. -/
theorem loads_dumps {v : Json} (h : Writable limits repr limits.depth v) (indent : ℕ) :
    loads limits (dumps repr indent v) = .ok v := by
  have hbegins : Begins (write repr indent 0 v) := begins_write h 0
  have hblanks := skipBlanks_of_begins hbegins []
  have hread := scanOnce_write limits repr indent limits.depth v h 0
    (2 * (write repr indent 0 v).length + 1) [] ends_nil (Nat.le_succ _)
  have hbom : (write repr indent 0 v).head? ≠ some '\ufeff' := by
    obtain ⟨c, t, hc, hmem⟩ := hbegins
    rw [hc]
    intro heq
    obtain rfl := Option.some.inj heq
    exact hmem (by decide)
  rw [List.append_nil] at hblanks hread
  rw [loads, dumps, if_neg hbom, hblanks, hread]
  rfl

/-! ### What can be written -/

/-- Characters are no halves of surrogate pairs. -/
theorem encodable_codePoints (s : Text) : Encodable (codePoints s) where
  inRange u hu := by
    obtain ⟨c, -, rfl⟩ := List.mem_map.mp hu
    have hc := c.valid
    simp only [UInt32.isValidChar, Nat.isValidChar] at hc
    show c.val.toNat < 0x110000
    omega
  apart := by
    rw [codePoints, List.isChain_map]
    refine (List.pairwise_of_forall fun c d h => ?_).isChain
    have hc := c.valid
    simp only [UInt32.isValidChar, Nat.isValidChar] at hc
    have hhigh : 0xD800 ≤ c.val.toNat ∧ c.val.toNat < 0xDC00 := h.1
    omega

theorem writable_null (depth : ℕ) : Writable limits repr depth .null := by cases depth <;> trivial

theorem writable_bool (depth : ℕ) (b : Bool) : Writable limits repr depth (.bool b) := by
  cases depth <;> trivial

theorem writable_int {n : ℤ} (h : limits.Allows n.natAbs) (depth : ℕ) :
    Writable limits repr depth (.int n) := by
  cases depth <;> exact h

theorem writable_float {x : Double} (h : ReadsBack limits repr x) (depth : ℕ) :
    Writable limits repr depth (.float x) := by
  cases depth <;> exact h

theorem writable_codePoints (s : Text) (depth : ℕ) :
    Writable limits repr depth (.str (codePoints s)) := by
  cases depth <;> exact encodable_codePoints s

end Values

end Json

end Csc512
