import Csc512.Cdup.ArrayText
import Csc512.Cdup.CStrings
import Csc512.Lib.Replace

/-!
# Formatted output

A format is made of characters, `%%`, and conversions, each of which consumes an argument. The
interpreter looks at one letter behind a `%`: it writes out `%d`, `%i`, `%f`, `%s` and `%c`, and
copies the conversions with other letters, but it consumes an argument for these as well. From a
format that it is given as a string it takes the quotes at the ends.

## Main results

* `formatText_formatOf` — what is made of a format
* `printsAsC_iff` — when this is what C makes of it
* `not_printsAsC` — `%ld` is copied
-/

namespace Csc512

open Exec

/-! ### Formats -/

/-- The conversions that the interpreter is said to support. -/
inductive Conversion where
  | d | i | f | g | e | s | c | u | ld | li | lu | lf
deriving DecidableEq, Repr

namespace Conversion

/-- The letters of a conversion. -/
def letters : Conversion → Text
  | .d => lit "d"
  | .i => lit "i"
  | .f => lit "f"
  | .g => lit "g"
  | .e => lit "e"
  | .s => lit "s"
  | .c => lit "c"
  | .u => lit "u"
  | .ld => lit "ld"
  | .li => lit "li"
  | .lu => lit "lu"
  | .lf => lit "lf"

/-- The conversions that the interpreter writes out. -/
def handled (k : Conversion) : Bool := k ∈ [d, i, f, s, c]

end Conversion

/-- A part of a format. -/
inductive FormatItem where
  | char (c : Char)
  | percent
  | conv (k : Conversion)
deriving DecidableEq, Repr

/-- The text of a part. -/
def FormatItem.text : FormatItem → Text
  | .char c => [c]
  | .percent => lit "%%"
  | .conv k => '%' :: k.letters

/-- The text of a format. -/
def formatOf (items : List FormatItem) : Text := items.flatMap FormatItem.text

/-- No character of a format is a `%`. -/
def PlainChars (items : List FormatItem) : Prop := ∀ c, FormatItem.char c ∈ items → c ≠ '%'

/-- A format with the texts of its arguments filled in, by a rule for the conversions. -/
def fill (rule : Conversion → Text → Text) : List FormatItem → List Text → Text
  | [], _ => []
  | .char c :: items, ts => c :: fill rule items ts
  | .percent :: items, ts => '%' :: fill rule items ts
  | .conv k :: items, ts => rule k (ts.headD []) ++ fill rule items ts.tail

/-- What C makes of a format. -/
def filled (items : List FormatItem) (ts : List Text) : Text := fill (fun _ t => t) items ts

/-- What the interpreter makes of a conversion. -/
def mockPiece (k : Conversion) (t : Text) : Text := if k.handled then t else '%' :: k.letters

/-! ### Texts of arguments -/

/-- The first `places + 1` decimal digits of a number that is not negative, rounded, with the
exponent of the first one. -/
def leadingDigits (places : ℕ) (q : ℚ) : ℕ × ℤ :=
  if q = 0 then (0, 0)
  else
    let k := firstPlace q
    let ds := (roundHalfEven (q / powTen (k - places))).natAbs
    if ds = 10 ^ (places + 1) then (10 ^ places, k + 1) else (ds, k)

/-- A text of digits with zeros before it, at least `n` long. -/
def padded (n : ℕ) (ds : Text) : Text := List.replicate (n - ds.length) '0' ++ ds

/-- The exponent of a number. -/
def exponentText (k : ℤ) : Text := 'e' :: (if k < 0 then '-' else '+') :: padded 2 (natText k.natAbs)

/-- A number with a sign, or the name of what is no number. -/
def signedText (x : Double) (digits : ℚ → Text) : Text :=
  let sign := if x.isNeg then ['-'] else []
  match x with
  | .nan => lit "nan"
  | .inf _ => sign ++ lit "inf"
  | x => sign ++ digits |x.value?.getD 0|

/-- A fraction behind its point, if there is one. -/
def fractionText (ds : Text) : Text := if ds = [] then [] else '.' :: ds

/-- The text of a number for `%e`. -/
def scientificText (x : Double) : Text :=
  signedText x fun q =>
    let (n, k) := leadingDigits 6 q
    let ds := padded 7 (natText n)
    ds.take 1 ++ '.' :: ds.drop 1 ++ exponentText k

/-- The text of a number for `%g`. -/
def generalText (x : Double) : Text :=
  signedText x fun q =>
    let (n, k) := leadingDigits 5 q
    let ds := padded 6 (natText n)
    if -4 ≤ k ∧ k < 6 then
      let places := if k < 0 then List.replicate k.natAbs '0' ++ ds else ds
      let whole := k.toNat + 1
      places.take whole ++ fractionText (rstripChar '0' (places.drop whole))
    else ds.take 1 ++ fractionText (rstripChar '0' (ds.drop 1)) ++ exponentText k

example : [scientificText (.rat (1 / 4)), generalText (.rat (1 / 4)), generalText (.rat 1234567)]
    = [lit "2.500000e-01", lit "0.25", lit "1.23457e+06"] := by decide +kernel

/-- The text of an argument for a conversion that it fits. -/
inductive ArgText (s : VmState) : Conversion → Value → Text → Prop
  | int {k : Conversion} (hk : k ∈ [.d, .i, .ld, .li]) (n : ℤ) : ArgText s k (.int n) (intText n)
  | unsigned {k : Conversion} (hk : k ∈ [.u, .lu]) (n : ℕ) : ArgText s k (.int n) (intText n)
  | fixed {k : Conversion} (hk : k ∈ [.f, .lf]) (x : Double) :
    ArgText s k (.float x) (fixedText x)
  | general (x : Double) : ArgText s .g (.float x) (generalText x)
  | scientific (x : Double) : ArgText s .e (.float x) (scientificText x)
  | string (t : Text) : ArgText s .s (.str t) t
  | pointer {a : ℕ} {t : Text} (ha : 0x1000 ≤ a) (h : StringAt s a t) (hnul : NoNul t) :
    ArgText s .s (.int a) t
  | char (c : Char) : ArgText s .c (.int c.toNat) [c]

/-- The texts of the arguments of a format, of which there may be more than conversions. -/
inductive ArgTexts (s : VmState) : List FormatItem → List Value → List Text → Prop
  | nil (vals : List Value) : ArgTexts s [] vals []
  | char (c : Char) {items : List FormatItem} {vals : List Value} {ts : List Text}
    (h : ArgTexts s items vals ts) : ArgTexts s (.char c :: items) vals ts
  | percent {items : List FormatItem} {vals : List Value} {ts : List Text}
    (h : ArgTexts s items vals ts) : ArgTexts s (.percent :: items) vals ts
  | conv {k : Conversion} {v : Value} {t : Text} (hv : ArgText s k v t) {items : List FormatItem}
    {vals : List Value} {ts : List Text} (h : ArgTexts s items vals ts) :
    ArgTexts s (.conv k :: items) (v :: vals) (t :: ts)

/-- The lines of formatted output. -/
def outputLines (t : Text) : List Text := (t.splitOn '\n').filter (· ≠ [])

/-! ### Numbers -/

/-- A character of the text of a number. -/
def isNumberChar (c : Char) : Bool := c.isAlphanum || c ∈ ['-', '+', '.']

/-- A text that a number can have. -/
def NumberText (t : Text) : Prop := t ≠ [] ∧ ∀ c ∈ t, isNumberChar c = true

theorem isNumberChar_of_isDigit {c : Char} (h : c.isDigit = true) : isNumberChar c = true := by
  rw [isNumberChar, isAlphanum_of_isDigit h]
  rfl

/-- The texts of digits. -/
def Digits (t : Text) : Prop := ∀ c ∈ t, isNumberChar c = true

section Digits

variable {t u : Text}

theorem Digits.append (ht : Digits t) (hu : Digits u) : Digits (t ++ u) := fun c hc =>
  (List.mem_append.mp hc).elim (ht c) (hu c)

theorem Digits.cons {c : Char} (hc : isNumberChar c = true) (ht : Digits t) : Digits (c :: t) :=
  List.forall_mem_cons.mpr ⟨hc, ht⟩

theorem Digits.subset (ht : Digits t) (h : u ⊆ t) : Digits u := fun c hc => ht c (h hc)

theorem digits_of_all (h : t.all isNumberChar = true) : Digits t := List.all_eq_true.mp h

theorem digits_natText (n : ℕ) : Digits (natText n) := fun _ hc =>
  isNumberChar_of_isDigit (isDigit_of_mem_natText hc)

theorem digits_replicate (n : ℕ) : Digits (List.replicate n '0') := by
  intro c hc
  rw [List.eq_of_mem_replicate hc]
  decide

theorem digits_padded (n : ℕ) (ht : Digits t) : Digits (padded n t) :=
  (digits_replicate _).append ht

theorem digits_exponentText (k : ℤ) : Digits (exponentText k) := by
  refine .cons (by decide) (.cons ?_ (digits_padded 2 (digits_natText _)))
  split_ifs <;> decide

theorem digits_fractionText (ht : Digits t) : Digits (fractionText (rstripChar '0' t)) := by
  have hstrip : Digits (rstripChar '0' t) := ht.subset (List.rdropWhile_prefix _ _).subset
  rw [fractionText]
  split_ifs
  · exact fun _ hc => nomatch hc
  · exact .cons (by decide) hstrip

theorem numberText_intText (n : ℤ) : NumberText (intText n) := by
  refine ⟨intText_ne_nil n, fun c hc => ?_⟩
  rcases Bool.or_eq_true_iff.mp (isNumeral_of_mem_intText c hc) with h | h
  · exact isNumberChar_of_isDigit h
  · rw [of_decide_eq_true h]
    decide

theorem numberText_sign {neg : Bool} (hne : t ≠ []) (ht : Digits t) :
    NumberText ((if neg then ['-'] else []) ++ t) := by
  refine ⟨fun h => hne (List.append_eq_nil_iff.mp h).2, Digits.append ?_ ht⟩
  split_ifs
  · exact digits_of_all (by decide)
  · exact fun _ hc => nomatch hc

theorem numberText_signedText (x : Double) {digits : ℚ → Text} (hne : ∀ q, digits q ≠ [])
    (h : ∀ q, Digits (digits q)) : NumberText (signedText x digits) := by
  cases x with
  | nan => exact ⟨List.cons_ne_nil _ _, digits_of_all (t := lit "nan") (by decide)⟩
  | inf => exact numberText_sign (List.cons_ne_nil _ _) (digits_of_all (by decide))
  | rat | negZero => exact numberText_sign (hne _) (h _)

theorem numberText_fixedText (x : Double) : NumberText (fixedText x) := by
  have hplaces : ∀ n m : ℕ, Digits (natText n ++ '.' :: (List.replicate (6 - (natText m).length) '0' ++
      natText m)) := fun n m => (digits_natText n).append
    (.cons (by decide) ((digits_replicate _).append (digits_natText m)))
  cases x with
  | nan => exact ⟨List.cons_ne_nil _ _, digits_of_all (by decide)⟩
  | inf => exact numberText_sign (List.cons_ne_nil _ _) (digits_of_all (by decide))
  | rat | negZero =>
    simp only [fixedText, List.append_assoc, List.cons_append]
    refine numberText_sign (fun h => ?_) (hplaces _ _)
    cases (List.append_eq_nil_iff.mp h).2

theorem numberText_scientificText (x : Double) : NumberText (scientificText x) := by
  refine numberText_signedText x (fun q h => ?_) fun q => ?_
  · have hpoint := (List.append_eq_nil_iff.mp (List.append_eq_nil_iff.mp h).1).2
    cases hpoint
  · have hdigits := digits_padded 7 (digits_natText (leadingDigits 6 q).1)
    exact ((hdigits.subset (List.take_subset _ _)).append
      (.cons (by decide) (hdigits.subset (List.drop_subset _ _)))).append (digits_exponentText _)

theorem numberText_generalText (x : Double) : NumberText (generalText x) := by
  have hne : ∀ (n : ℕ) (ds u : Text), ds ≠ [] → (ds.take (n + 1) ++ u) ≠ [] := by
    intro n ds u hds h
    obtain ⟨d, ds, rfl⟩ := List.exists_cons_of_ne_nil hds
    cases (List.append_eq_nil_iff.mp h).1
  have hpadded : ∀ n : ℕ, padded 6 (natText n) ≠ [] := fun n h =>
    Nat.toDigits_ne_nil (List.append_eq_nil_iff.mp h).2
  refine numberText_signedText x (fun q => ?_) fun q => ?_
  · dsimp only
    split_ifs
    · exact hne _ _ _ fun h => hpadded _ (List.append_eq_nil_iff.mp h).2
    · exact hne _ _ _ (hpadded _)
    · rw [List.append_assoc]
      exact hne 0 _ _ (hpadded _)
  · have hdigits := digits_padded 6 (digits_natText (leadingDigits 5 q).1)
    dsimp only
    split_ifs with hplain hneg
    · have hall := (digits_replicate (leadingDigits 5 q).2.natAbs).append hdigits
      exact (hall.subset (List.take_subset _ _)).append
        (digits_fractionText (hall.subset (List.drop_subset _ _)))
    · exact (hdigits.subset (List.take_subset _ _)).append
        (digits_fractionText (hdigits.subset (List.drop_subset _ _)))
    · exact ((hdigits.subset (List.take_subset _ _)).append
        (digits_fractionText (hdigits.subset (List.drop_subset _ _)))).append
          (digits_exponentText _)

end Digits

/-! ### What is made of a format -/

section Format

variable (U : CharTable) {s : VmState} {items : List FormatItem} {vals : List Value}
  {ts : List Text}

theorem formatText_char {c : Char} (hc : c ≠ '%') (fmt : Text) (vals : List Value) :
    formatText U (c :: fmt) vals = (do
      let rest ← formatText U fmt vals
      pure (c :: rest)) := by
  rw [formatText]
  rintro spec fmt' rfl
  exact absurd rfl hc

theorem formatText_conv (spec : Char) (fmt : Text) (vals : List Value) :
    formatText U ('%' :: spec :: fmt) vals = (do
      let piece ← formatSpec U spec (vals.headD (.int 0))
      let rest ← formatText U fmt (if spec = '%' then vals else vals.drop 1)
      pure (piece ++ rest)) := rfl

/-- A letter that stands for no conversion is copied. -/
theorem formatSpec_unhandled {spec : Char} (h : spec ∉ lit "difsc%") (v : Value) :
    formatSpec U spec v s = (.ok ['%', spec], s) := by
  have hne : ∀ c ∈ lit "difsc%", spec ≠ c := fun c hc heq => h (heq ▸ hc)
  unfold formatSpec
  rw [bind_of_ok (get_apply s), if_neg (not_or.mpr ⟨hne 'd' (by decide), hne 'i' (by decide)⟩), if_neg (hne 'f' (by decide)),
    if_neg (hne 's' (by decide)), if_neg (hne 'c' (by decide)), if_neg (hne '%' (by decide))]
  rfl

theorem formatSpec_s (n : ℤ) : formatSpec U 's' (.int n) s = (if 0x1000 ≤ n then do
      let size ← memorySize
      readChars U n size
    else pure (intText n) : Vm Text) s := rfl

theorem formatSpec_c (n : ℤ) : formatSpec U 'c' (.int n) s = (do
    let c ← chr (.int n)
    pure [c] : Vm Text) s := rfl

/-- A conversion that is supported gives the text of its argument. -/
theorem formatSpec_handled {k : Conversion} (hk : k.handled = true) {v : Value} {t : Text}
    (h : ArgText s k v t) : ∃ spec, k.letters = [spec] ∧ spec ≠ '%' ∧
      formatSpec U spec v s = (.ok t, s) := by
  cases h with
  | int hint n =>
    rcases (by simpa using hint : k = .d ∨ k = .i ∨ k = .ld ∨ k = .li) with rfl | rfl | rfl | rfl
    · exact ⟨'d', rfl, by decide, rfl⟩
    · exact ⟨'i', rfl, by decide, rfl⟩
    · cases hk
    · cases hk
  | unsigned hu n =>
    rcases (by simpa using hu : k = .u ∨ k = .lu) with rfl | rfl <;> cases hk
  | fixed hf x =>
    rcases (by simpa using hf : k = .f ∨ k = .lf) with rfl | rfl
    · exact ⟨'f', rfl, by decide, rfl⟩
    · cases hk
  | general | scientific => cases hk
  | string t => exact ⟨'s', rfl, by decide, rfl⟩
  | @pointer a t ha h hnul =>
    refine ⟨'s', rfl, by decide, ?_⟩
    obtain ⟨size, hsize, hlt⟩ := h.lt_memorySize
    have hread := readChars_apply U h hnul (Nat.le_of_lt hlt)
    have haddr : (0x1000 : ℤ) ≤ a := by omega
    rw [formatSpec_s, if_pos haddr, bind_of_ok hsize, hread]
  | char c =>
    refine ⟨'c', rfl, by decide, ?_⟩
    rw [formatSpec_c, bind_of_ok (chr_code c s)]
    rfl

/-- Characters that are no `%` are copied. -/
theorem formatText_append {front fmt t : Text} (hfront : ∀ c ∈ front, c ≠ '%')
    (h : formatText U fmt vals s = (.ok t, s)) :
    formatText U (front ++ fmt) vals s = (.ok (front ++ t), s) := by
  induction front with
  | nil => exact h
  | cons c front ih =>
    rw [List.cons_append, formatText_char U (hfront c List.mem_cons_self),
      bind_of_ok (ih fun d hd => hfront d (List.mem_cons_of_mem _ hd))]
    rfl

/-- The letters of a conversion that is not supported. -/
theorem letters_unhandled {k : Conversion} (hk : k.handled = false) : ∃ spec rest,
    k.letters = spec :: rest ∧ spec ∉ lit "difsc%" ∧ ∀ c ∈ rest, c ≠ '%' := by
  cases k with
  | d | i | f | s | c => cases hk
  | g | e | u | ld | li | lu | lf => exact ⟨_, _, rfl, by decide, by decide⟩

/-- **What is made of a format**: the conversions that are not supported are copied, and consume an
argument. -/
theorem formatText_formatOf (h : ArgTexts s items vals ts) (hplain : PlainChars items) :
    formatText U (formatOf items) vals s = (.ok (fill mockPiece items ts), s) := by
  induction h with
  | nil => rfl
  | @char c items vals ts h ih =>
    have hrest := ih fun d hd => hplain d (List.mem_cons_of_mem _ hd)
    rw [show formatOf (.char c :: items) = c :: formatOf items from rfl,
      formatText_char U (hplain c List.mem_cons_self), bind_of_ok hrest]
    rfl
  | @percent items vals ts h ih =>
    have hrest := ih fun d hd => hplain d (List.mem_cons_of_mem _ hd)
    rw [show formatOf (.percent :: items) = '%' :: '%' :: formatOf items from rfl,
      formatText_conv, bind_of_ok (show formatSpec U '%' _ s = (.ok ['%'], s) from rfl),
      if_pos rfl, bind_of_ok hrest]
    rfl
  | @conv k v t hv items vals ts h ih =>
    have hrest := ih fun d hd => hplain d (List.mem_cons_of_mem _ hd)
    have htext : formatOf (.conv k :: items) = '%' :: (k.letters ++ formatOf items) := rfl
    rw [htext, fill, mockPiece]
    cases hk : k.handled with
    | true =>
      obtain ⟨spec, hletters, hspec, hpiece⟩ := formatSpec_handled U hk hv
      rw [hletters, List.cons_append, List.nil_append, formatText_conv, List.headD_cons, bind_of_ok hpiece,
        if_neg hspec, List.drop_one, List.tail_cons, bind_of_ok hrest]
      rfl
    | false =>
      obtain ⟨spec, rest, hletters, hspec, hcopied⟩ := letters_unhandled hk
      have hcopy := formatText_append U hcopied hrest
      rw [hletters, List.cons_append, formatText_conv, bind_of_ok (formatSpec_unhandled U hspec _),
        if_neg (fun heq : spec = '%' => hspec (heq ▸ by decide)), List.drop_one, List.tail_cons,
        bind_of_ok hcopy]
      rfl

end Format

/-! ### When it is what C makes of it -/

section Compare

variable {s : VmState} {items : List FormatItem} {vals : List Value} {ts : List Text}

/-- The argument of a conversion that is not supported is a number. -/
theorem numberText_of_unhandled {k : Conversion} (hk : k.handled = false) {v : Value} {t : Text}
    (h : ArgText s k v t) : NumberText t := by
  cases h with
  | int | unsigned => exact numberText_intText _
  | fixed => exact numberText_fixedText _
  | general => exact numberText_generalText _
  | scientific => exact numberText_scientificText _
  | string | pointer | char => cases hk

theorem fill_conv (rule : Conversion → Text → Text) (k : Conversion) (t : Text) :
    fill rule (.conv k :: items) (t :: ts) = rule k t ++ fill rule items ts := rfl

theorem filled_conv (k : Conversion) (t : Text) :
    filled (.conv k :: items) (t :: ts) = t ++ filled items ts := rfl

/-- No quote is lost in a conversion. -/
theorem count_quote_fill (h : ArgTexts s items vals ts) :
    (fill mockPiece items ts).count '"' = (filled items ts).count '"' := by
  induction h with
  | nil => rfl
  | char c h ih => exact (List.count_cons ..).trans ((congrArg (· + _) ih).trans (List.count_cons ..).symm)
  | percent h ih => exact (List.count_cons ..).trans ((congrArg (· + _) ih).trans (List.count_cons ..).symm)
  | @conv k v t hv items vals ts h ih =>
    rw [filled_conv, fill_conv, List.count_append, List.count_append, ih]
    congr 1
    rw [mockPiece]
    split_ifs with hk
    · rfl
    · have hnumber := (numberText_of_unhandled (Bool.eq_false_iff.mpr hk) hv).2
      have hletters : '"' ∉ '%' :: k.letters := by cases k <;> decide
      rw [List.count_eq_zero.mpr hletters, List.count_eq_zero.mpr]
      exact fun hmem => absurd (hnumber _ hmem) (by decide)

/-- The text without its line breaks. -/
def unbroken (t : Text) : Text := t.filter (· ≠ '\n')

theorem flatten_outputLines (t : Text) : (outputLines t).flatten = unbroken t := by
  have hfilter : ∀ L : List Text, (L.filter (· ≠ [])).flatten = L.flatten := by
    intro L
    induction L with
    | nil => rfl
    | cons u L ih => cases u <;> simp_all
  rw [outputLines, hfilter]
  induction t with
  | nil => rfl
  | cons c t ih =>
    rw [unbroken, List.splitOn, List.splitOnP_cons_eq_if_modifyHead]
    by_cases hc : c = '\n'
    · rw [if_pos (by simpa using hc), List.filter_cons_of_neg (by simpa using hc)]
      exact ih
    · rw [if_neg (by simpa using hc), List.filter_cons_of_pos (by simpa using hc)]
      obtain ⟨line, lines, hlines⟩ := List.exists_cons_of_ne_nil (List.splitOnP_ne_nil (· == '\n') t)
      rw [List.splitOn, hlines] at ih
      rw [hlines, List.modifyHead_cons, List.flatten_cons, List.cons_append]
      exact congrArg (c :: ·) ih

theorem unbroken_append (t u : Text) : unbroken (t ++ u) = unbroken t ++ unbroken u :=
  List.filter_append ..

theorem unbroken_cons {c : Char} (hc : c ≠ '\n') (t : Text) : unbroken (c :: t) = c :: unbroken t :=
  List.filter_cons_of_pos (by simpa using hc)

/-- A format whose conversions are not all supported is not filled in. -/
theorem handled_of_unbroken_eq (h : ArgTexts s items vals ts)
    (heq : unbroken (fill mockPiece items ts) = unbroken (filled items ts)) :
    ∀ k, .conv k ∈ items → k.handled = true := by
  induction h with
  | nil => nofun
  | @char c items vals ts h ih =>
    have hcons : unbroken [c] ++ unbroken (fill mockPiece items ts)
        = unbroken [c] ++ unbroken (filled items ts) := by
      rw [← unbroken_append, ← unbroken_append]
      exact heq
    intro k hk
    exact ih (List.append_cancel_left hcons) k (by simpa using hk)
  | percent h ih =>
    intro k hk
    exact ih (List.cons.inj heq).2 k (by simpa using hk)
  | @conv k v t hv items vals ts h ih =>
    rw [fill_conv, filled_conv, unbroken_append, unbroken_append] at heq
    have hk : k.handled = true := by
      by_contra hk
      -- where C has the beginning of a number, the interpreter has a `%`
      obtain ⟨hne, hnumber⟩ := numberText_of_unhandled (Bool.eq_false_iff.mpr hk) hv
      obtain ⟨c, t, rfl⟩ := List.exists_cons_of_ne_nil hne
      have hc := hnumber c List.mem_cons_self
      have hbreak : c ≠ '\n' := fun h => absurd (h ▸ hc) (by decide)
      rw [mockPiece, if_neg hk, unbroken_cons (by decide), unbroken_cons hbreak] at heq
      exact absurd ((List.cons.inj heq).1 ▸ hc) (by decide)
    rw [mockPiece, if_pos hk] at heq
    intro k' hk'
    rcases List.mem_cons.mp hk' with heq' | hk'
    · cases heq'
      exact hk
    · exact ih (List.append_cancel_left heq) k' hk'

/-- If all conversions are supported, then the format is filled in. -/
theorem fill_mockPiece (hk : ∀ k, .conv k ∈ items → k.handled = true) (ts : List Text) :
    fill mockPiece items ts = filled items ts := by
  induction items generalizing ts with
  | nil => rfl
  | cons item items ih =>
    have hrest := ih fun k hmem => hk k (List.mem_cons_of_mem _ hmem)
    cases item with
    | char c => exact congrArg (c :: ·) (hrest ts)
    | percent => exact congrArg ('%' :: ·) (hrest ts)
    | conv k =>
      rw [filled, fill, fill, hrest, mockPiece, if_pos (hk k List.mem_cons_self)]
      rfl

end Compare

/-! ### Quotes at the ends -/

section Quotes

variable {s : VmState} {items : List FormatItem} {vals : List Value} {ts : List Text}

theorem unescape_cons_quote (t : Text) : unescape ('"' :: t) = '"' :: unescape t := by
  rw [unescape, replaceAll_literal_cons (by decide) (by decide),
    replaceAll_literal_cons (by decide) (by decide)]
  rfl

theorem unescape_concat_quote (t : Text) : unescape (t ++ ['"']) = unescape t ++ ['"'] := by
  rw [unescape, replaceAll_literal_concat (by decide) (by decide),
    replaceAll_literal_concat (by decide) (by decide)]
  rfl

theorem formatOf_eq_cons_quote {fmt : Text} (h : formatOf items = '"' :: fmt) :
    ∃ items', items = .char '"' :: items' ∧ formatOf items' = fmt := by
  cases items with
  | nil => cases h
  | cons item items =>
    cases item with
    | char c =>
      obtain ⟨rfl, hrest⟩ := List.cons.inj h
      exact ⟨items, rfl, hrest⟩
    | percent => cases (List.cons.inj h).1
    | conv k => cases (List.cons.inj h).1

theorem formatOf_eq_concat_quote {fmt : Text} (h : formatOf items = fmt ++ ['"']) :
    ∃ items', items = items' ++ [.char '"'] ∧ formatOf items' = fmt := by
  rcases List.eq_nil_or_concat items with rfl | ⟨items, item, rfl⟩
  · simp [formatOf] at h
  · have hlast : formatOf items ++ item.text = fmt ++ ['"'] := by
      rw [← h]
      simp [formatOf]
    have hquote : item = .char '"' := by
      have hend := congrArg List.getLast? hlast
      rw [List.getLast?_concat] at hend
      cases item with
      | char c =>
        rw [FormatItem.text, List.getLast?_concat] at hend
        rw [Option.some.inj hend]
      | percent =>
        rw [List.getLast?_append_of_ne_nil _ (by decide)] at hend
        exact absurd hend (by decide)
      | conv k =>
        rw [FormatItem.text, List.getLast?_append_of_ne_nil _ (List.cons_ne_nil _ _)] at hend
        cases k <;> exact absurd hend (by decide)
    subst hquote
    exact ⟨items, List.concat_eq_append, List.append_cancel_right hlast⟩

theorem ArgTexts.of_concat {c : Char} (h : ArgTexts s (items ++ [.char c]) vals ts) :
    ArgTexts s items vals ts := by
  induction items generalizing vals ts with
  | nil =>
    cases h with
    | char _ h =>
      cases h
      exact .nil vals
  | cons item items ih =>
    cases h with
    | char _ h => exact .char _ (ih h)
    | percent h => exact .percent (ih h)
    | conv hv h => exact .conv hv (ih h)

theorem filled_concat (c : Char) (ts : List Text) :
    filled (items ++ [.char c]) ts = filled items ts ++ [c] := by
  induction items generalizing ts with
  | nil => rfl
  | cons item items ih =>
    cases item with
    | char d => exact congrArg (d :: ·) (ih ts)
    | percent => exact congrArg ('%' :: ·) (ih ts)
    | conv k =>
      show ts.headD [] ++ filled (items ++ [.char c]) ts.tail = (ts.headD [] ++ filled items _) ++ _
      rw [ih, List.append_assoc]

/-- The quotes at the ends of a format are characters of what C makes of it. -/
theorem exists_quotes (j k : ℕ) {core : Text} (hplain : PlainChars items)
    (h : ArgTexts s items vals ts)
    (hfmt : formatOf items = unescape (List.replicate j '"' ++ core ++ List.replicate k '"')) :
    ∃ items', formatOf items' = unescape core ∧ PlainChars items' ∧ ArgTexts s items' vals ts ∧
      (filled items ts).count '"' = (filled items' ts).count '"' + (j + k) := by
  induction j generalizing items with
  | zero =>
    rw [List.replicate_zero, List.nil_append] at hfmt
    induction k generalizing items with
    | zero =>
      rw [List.replicate_zero, List.append_nil] at hfmt
      exact ⟨items, hfmt, hplain, h, rfl⟩
    | succ k ih =>
      rw [List.replicate_succ', ← List.append_assoc, unescape_concat_quote] at hfmt
      obtain ⟨front, rfl, hfront⟩ := formatOf_eq_concat_quote hfmt
      obtain ⟨items', hfmt', hplain', h', hcount⟩ := ih
        (fun c hc => hplain c (List.mem_append_left _ hc)) h.of_concat hfront
      refine ⟨items', hfmt', hplain', h', ?_⟩
      rw [filled_concat, List.count_append, hcount, List.count_singleton_self]
      omega
  | succ j ih =>
    rw [List.replicate_succ, List.cons_append, List.cons_append, unescape_cons_quote] at hfmt
    obtain ⟨rest, rfl, hrest⟩ := formatOf_eq_cons_quote hfmt
    have hargs : ArgTexts s rest vals ts := by
      cases h with
      | char _ h => exact h
    obtain ⟨items', hfmt', hplain', h', hcount⟩ := ih
      (fun c hc => hplain c (List.mem_cons_of_mem _ hc)) hargs hrest
    refine ⟨items', hfmt', hplain', h', ?_⟩
    rw [show filled (.char '"' :: rest) ts = '"' :: filled rest ts from rfl, List.count_cons_self,
      hcount]
    omega

/-- A text is what is left of it without the quotes at its ends, and these quotes. -/
theorem exists_replicate_quotes (t : Text) : ∃ j k,
    t = List.replicate j '"' ++ stripChars ['"'] t ++ List.replicate k '"' := by
  let isQuote : Char → Bool := fun c => decide (c ∈ ['"'])
  have hfront : t.takeWhile isQuote = List.replicate (t.takeWhile isQuote).length '"' :=
    List.eq_replicate_of_mem fun c hc =>
      List.mem_singleton.mp (of_decide_eq_true (List.mem_takeWhile_imp (p := isQuote) hc))
  have hback : (t.dropWhile isQuote).rtakeWhile isQuote
      = List.replicate ((t.dropWhile isQuote).rtakeWhile isQuote).length '"' :=
    List.eq_replicate_of_mem fun c hc =>
      List.mem_singleton.mp (of_decide_eq_true (List.mem_rtakeWhile_imp (p := isQuote) hc))
  refine ⟨(t.takeWhile isQuote).length, ((t.dropWhile isQuote).rtakeWhile isQuote).length, ?_⟩
  rw [← hfront, ← hback, List.append_assoc]
  show t = _ ++ ((t.dropWhile isQuote).rdropWhile isQuote ++ _)
  rw [List.rdropWhile_append_rtakeWhile, List.takeWhile_append_dropWhile]

end Quotes

/-! ### The function -/

/-- How a format is given: as a string, or as the address of one. -/
inductive GivenFormat (s : VmState) : Value → Text → Prop
  | text (fmt : Text) : GivenFormat s (.str fmt) fmt
  | address {a : ℕ} {fmt : Text} (ha : 0x1000 ≤ a) (h : StringAt s a fmt) (hnul : NoNul fmt) :
    GivenFormat s (.int a) fmt

/-- A format at an address is read to its end. -/
def ReadToEnd : Value → Text → Prop
  | .int _, fmt => fmt.length ≤ 10001
  | _, _ => True

/-- A format that is given as a string has no quotes at its ends. -/
def Unquoted : Value → Text → Prop
  | .str _, fmt => stripChars ['"'] fmt = fmt
  | _, _ => True

/-- All conversions are supported. -/
def AllHandled (items : List FormatItem) : Prop := ∀ k, .conv k ∈ items → k.handled = true

section Printf

variable {U : CharTable} {s : VmState} {items : List FormatItem} {vals : List Value}
  {ts : List Text} {fmtArg : Value} {fmt : Text}

/-- The output is what C makes of the format. -/
def PrintsAsC (U : CharTable) (fmtArg : Value) (vals : List Value) (items : List FormatItem)
    (ts : List Text) (s : VmState) : Prop :=
  mockPrintf U (fmtArg :: vals) s
    = (.ok (), { s with output := s.output ++ outputLines (filled items ts) })

/-- Append the formatted output of a format. -/
def printFormat (U : CharTable) (vals : List Value) (fmt : Text) : Vm Unit := do
  let result ← formatText U (unescape fmt) vals
  Exec.modify fun s => { s with output := s.output ++ outputLines result }

theorem mockPrintf_str {t : Text}
    (h : formatText U (unescape (stripChars ['"'] fmt)) vals s = (.ok t, s)) :
    mockPrintf U (.str fmt :: vals) s
      = (.ok (), { s with output := s.output ++ outputLines t }) := by
  have hseen : mockPrintf U (.str fmt :: vals) s
      = (pure (stripChars ['"'] fmt) >>= printFormat U vals) s := by
    unfold printFormat outputLines
    rfl
  have hpure : (pure (stripChars ['"'] fmt) : Vm Text) s = (.ok (stripChars ['"'] fmt), s) := rfl
  rw [hseen, bind_of_ok hpure, printFormat, bind_of_ok h]
  rfl

theorem mockPrintf_int (n : ℤ) : mockPrintf U (.int n :: vals) s
    = (if 0x1000 ≤ n then readChars U n 10001 >>= printFormat U vals
      else pure (intText n) >>= printFormat U vals : Vm Unit) s := by
  unfold printFormat outputLines
  rfl

theorem mockPrintf_address {a : ℕ} {t : Text} (ha : 0x1000 ≤ a) (hat : StringAt s a fmt)
    (hnul : NoNul fmt) (hlen : fmt.length ≤ 10001)
    (h : formatText U (unescape fmt) vals s = (.ok t, s)) : mockPrintf U (.int a :: vals) s
      = (.ok (), { s with output := s.output ++ outputLines t }) := by
  have haddr : (0x1000 : ℤ) ≤ a := by omega
  rw [mockPrintf_int, if_pos haddr, bind_of_ok (readChars_apply U hat hnul hlen), printFormat, bind_of_ok h]
  rfl

/-- The same output has the same characters. -/
theorem unbroken_eq_of_output {t u : Text} (h : ((.ok (), { s with
      output := s.output ++ outputLines t }) : Except Stop Unit × VmState)
        = (.ok (), { s with output := s.output ++ outputLines u })) : unbroken t = unbroken u := by
  have houtput := congrArg (fun r : Except Stop Unit × VmState => r.2.output) h
  rw [← flatten_outputLines, ← flatten_outputLines, List.append_cancel_left houtput]

theorem count_unbroken (t : Text) : (unbroken t).count '"' = t.count '"' := by
  induction t with
  | nil => rfl
  | cons c t ih =>
    by_cases hc : c = '\n'
    · rw [unbroken, List.filter_cons_of_neg (by simpa using hc), hc,
        List.count_cons_of_ne (by decide)]
      exact ih
    · rw [unbroken_cons hc, List.count_cons, List.count_cons, ih]

/-- **What `printf` makes of a format** is what C makes of it, if all conversions are supported and
no quotes are lost; and not otherwise. -/
theorem printsAsC_iff (hfmt : GivenFormat s fmtArg fmt) (hitems : unescape fmt = formatOf items)
    (hplain : PlainChars items) (hargs : ArgTexts s items vals ts) :
    (AllHandled items ∧ Unquoted fmtArg fmt ∧ ReadToEnd fmtArg fmt →
      PrintsAsC U fmtArg vals items ts s) ∧
    (ReadToEnd fmtArg fmt → PrintsAsC U fmtArg vals items ts s →
      AllHandled items ∧ Unquoted fmtArg fmt) := by
  have hformat := formatText_formatOf U hargs hplain
  rw [← hitems] at hformat
  cases hfmt with
  | text =>
    refine ⟨fun h => ?_, fun _ hprints => ?_⟩
    · have hstrip : stripChars ['"'] fmt = fmt := h.2.1
      rw [PrintsAsC, mockPrintf_str (hstrip.symm ▸ hformat), fill_mockPiece h.1]
    · obtain ⟨j, k, hquotes⟩ := exists_replicate_quotes fmt
      obtain ⟨inner, hinner, hplain', hargs', hcount⟩ :=
        exists_quotes j k hplain hargs (hquotes ▸ hitems.symm)
      have hformat' := formatText_formatOf U hargs' hplain'
      rw [hinner] at hformat'
      have hinside := hprints
      rw [PrintsAsC, mockPrintf_str hformat'] at hinside
      -- the output has as many quotes as the format without those at its ends
      have hquote := congrArg (List.count '"') (unbroken_eq_of_output hinside)
      rw [count_unbroken, count_unbroken, count_quote_fill hargs', hcount] at hquote
      obtain ⟨rfl, rfl⟩ : j = 0 ∧ k = 0 := by omega
      have hstrip : stripChars ['"'] fmt = fmt := by
        rw [List.replicate_zero, List.nil_append, List.append_nil] at hquotes
        exact hquotes.symm
      rw [PrintsAsC, mockPrintf_str (hstrip.symm ▸ hformat)] at hprints
      exact ⟨handled_of_unbroken_eq hargs (unbroken_eq_of_output hprints), hstrip⟩
  | address ha hat hnul =>
    refine ⟨fun h => ?_, fun hlen hprints => ?_⟩
    · rw [PrintsAsC, mockPrintf_address ha hat hnul h.2.2 hformat, fill_mockPiece h.1]
    · rw [PrintsAsC, mockPrintf_address ha hat hnul hlen hformat] at hprints
      exact ⟨handled_of_unbroken_eq hargs (unbroken_eq_of_output hprints), trivial⟩

end Printf

/-- `%d%%`. -/
theorem printsAsC_sample : PrintsAsC .ascii (.str (lit "%d%%")) [.int 5] [.conv .d, .percent]
    [lit "5"] {} := by
  have hargs : ArgTexts {} [.conv .d, .percent] [.int 5] [lit "5"] :=
    .conv (.int (by decide) 5) (.percent (.nil []))
  exact (printsAsC_iff (.text _) (by decide) (by intro c hc; simp at hc) hargs).1
    ⟨by intro k hk; simp at hk; rw [hk]; rfl, (by decide : stripChars _ _ = _), trivial⟩

/-- **`%ld`** is copied. -/
theorem not_printsAsC :
    ¬ PrintsAsC .ascii (.str (lit "%ld")) [.int 5] [.conv .ld] [lit "5"] {} := by
  have hargs : ArgTexts {} [.conv .ld] [.int 5] [lit "5"] := .conv (.int (by decide) 5) (.nil [])
  have hseen : formatOf [.conv .ld] = unescape (stripChars ['"'] (lit "%ld")) := by decide
  have hformat := formatText_formatOf .ascii hargs fun c hc => nomatch List.mem_singleton.mp hc
  rw [hseen] at hformat
  intro h
  rw [PrintsAsC, mockPrintf_str hformat] at h
  cases handled_of_unbroken_eq hargs (unbroken_eq_of_output h) .ld List.mem_cons_self

end Csc512
