import Csc512.Cdup.BraceScan

/-!
# The cleaned text of a segment, glyph by glyph

`cleanSegment` trims the lines of a segment and drops the empty ones. Read from left to right it
keeps what stands between two visible characters on one line, and puts one line break between two
lines. `Cleaner` does so with the cleaned text so far and the gap behind it, so the cleaned text of
a segment can be cut at any place of the segment.

## Main results

* `cleanSegment_eq` — the cleaner computes `cleanSegment`
* `cleanSegment_append` — cutting the cleaned text before a visible character
* `isInfix_of_cleanSegment` — cleaning brings no two visible characters together
-/

namespace Csc512

/-- The cleaned text so far, up to its last visible character, and the gap behind it. -/
structure Cleaner where
  out : Text := []
  gap : Text := []

namespace Cleaner

/-- Read a character. -/
def read (C : Cleaner) (c : Char) : Cleaner :=
  if isLineBreak c then { C with gap := if C.out.isEmpty then [] else ['\n'] }
  else if isSpace c then
    if C.out.isEmpty ∨ C.gap = ['\n'] then C else { C with gap := C.gap ++ [c] }
  else { out := C.out ++ C.gap ++ [c], gap := [] }

/-- Read a text. -/
def run (C : Cleaner) (s : Text) : Cleaner := s.foldl read C

end Cleaner

/-- The cleaned text up to a place of a segment, with the gap before the place. -/
def cleanedSoFar (s : Text) : Text :=
  let C := ({} : Cleaner).run s
  C.out ++ C.gap

theorem isSpace_of_isLineBreak {c : Char} (h : isLineBreak c) : isSpace c := by
  simp only [isLineBreak, isSpace, Bool.or_eq_true, Bool.and_eq_true, decide_eq_true_eq,
    beq_iff_eq] at h ⊢
  omega

/-! ### The cleaner computes the cleaned text -/

/-- The lines of a segment that are not blank, trimmed. -/
def inkLines (lines : List Text) : List Text :=
  (lines.filter fun line => !(strip line).isEmpty).map strip

theorem inkLines_cons (line : Text) (lines : List Text) :
    inkLines (line :: lines) = inkLines [line] ++ inkLines lines := by
  rw [inkLines, inkLines, inkLines, ← List.map_append, ← List.filter_append]
  rfl

theorem inkLines_blank {line : Text} (h : strip line = []) : inkLines [line] = [] := by
  simp [inkLines, h]

theorem inkLines_ink {line : Text} (h : strip line ≠ []) : inkLines [line] = [strip line] := by
  simp [inkLines, h]

theorem lstrip_append_of_ink {s : Text} (h : strip s ≠ []) (t : Text) :
    lstrip (s ++ t) = lstrip s ++ t := by
  have hne : ¬ (s.dropWhile isSpace).isEmpty := by
    rw [List.isEmpty_iff, List.dropWhile_eq_nil_iff]
    exact fun hs => h (strip_blanks hs)
  show (s ++ t).dropWhile isSpace = s.dropWhile isSpace ++ t
  rw [List.dropWhile_append, if_neg hne]

/-- Only a blank text is trimmed away. -/
theorem lstrip_eq_nil {s : Text} (h : strip s = []) : lstrip s = [] := by
  induction s with
  | nil => rfl
  | cons c s ih =>
    by_cases hc : isSpace c
    · have hdrop : lstrip (c :: s) = lstrip s := List.dropWhile_cons_of_pos hc
      rw [strip, hdrop] at h
      rw [hdrop, ih h]
    · rw [strip, lstrip_cons hc, rstrip_cons hc] at h
      cases h

theorem strip_append_space (s : Text) {c : Char} (hc : isSpace c) : strip (s ++ [c]) = strip s := by
  by_cases hs : strip s = []
  · have hall : ∀ d ∈ s ++ [c], isSpace d := by
      intro d hd
      rcases List.mem_append.mp hd with hd | hd
      · exact List.dropWhile_eq_nil_iff.mp (lstrip_eq_nil hs) d hd
      · rwa [List.mem_singleton.mp hd]
    rw [strip_blanks hall, hs]
  · rw [strip, lstrip_append_of_ink hs, rstrip_append_space _ hc, strip]

/-- Lines put together with line breaks. -/
abbrev joinLines (lines : List Text) : Text := ['\n'].intercalate lines

theorem joinLines_append (lines : List Text) (line : Text) :
    joinLines (lines ++ [line])
      = joinLines lines ++ (if lines = [] then [] else ['\n']) ++ line := by
  induction lines with
  | nil => simp [joinLines]
  | cons x lines ih =>
    have hne : lines ++ [line] ≠ [] := by simp
    rw [joinLines, List.cons_append, List.intercalate_cons_of_ne_nil hne, if_neg (by simp)]
    cases lines with
    | nil => simp [joinLines]
    | cons y lines =>
      rw [joinLines, List.intercalate_cons_of_ne_nil (List.cons_ne_nil y lines)]
      rw [joinLines, joinLines, if_neg (by simp)] at ih
      rw [ih]
      simp

namespace Cleaner

/-- The state behind some lines, trimmed, and the beginning of another one. -/
def Behind (C : Cleaner) (lines : List Text) (line : Text) : Prop :=
  (strip line = [] ∧ C.out = joinLines lines ∧
    C.gap = if lines = [] then [] else ['\n']) ∨
  (strip line ≠ [] ∧ C.out = joinLines (lines ++ [strip line]) ∧
    lstrip line = strip line ++ C.gap ∧ C.gap ≠ ['\n'])

/-- No line is empty. -/
def Inked (lines : List Text) : Prop := ∀ line ∈ lines, line ≠ []

theorem joinLines_append_ne_nil (lines : List Text) {line : Text} (h : line ≠ []) :
    joinLines (lines ++ [line]) ≠ [] := by
  rw [joinLines_append]
  simp [h]

theorem isEmpty_joinLines {lines : List Text} (h : Inked lines) :
    (joinLines lines).isEmpty = decide (lines = []) := by
  rcases List.eq_nil_or_concat lines with rfl | ⟨front, line, rfl⟩
  · rfl
  · rw [List.concat_eq_append] at h ⊢
    have hne := joinLines_append_ne_nil front (h line (by simp))
    simp [hne]

variable {C : Cleaner} {lines : List Text} {line : Text}

theorem Behind.lineBreak (h : C.Behind lines line) (hlines : Inked lines) {c : Char}
    (hc : isLineBreak c) : (C.read c).Behind (lines ++ inkLines [line]) [] := by
  have hread : C.read c = { C with gap := if C.out.isEmpty then [] else ['\n'] } := if_pos hc
  rw [hread]
  rcases h with ⟨hblank, hout, -⟩ | ⟨hink, hout, -⟩
  · refine Or.inl ⟨rfl, ?_, ?_⟩
    · rw [inkLines_blank hblank, List.append_nil]
      exact hout
    · rw [inkLines_blank hblank, List.append_nil, hout, isEmpty_joinLines hlines]
      simp
  · refine Or.inl ⟨rfl, ?_, ?_⟩
    · rw [inkLines_ink hink]
      exact hout
    · have hne := joinLines_append_ne_nil lines hink
      rw [inkLines_ink hink, hout]
      simp [List.isEmpty_iff, hne]

theorem Behind.glyph (h : C.Behind lines line) (hlines : Inked lines) {c : Char}
    (hc : ¬ isLineBreak c) : (C.read c).Behind lines (line ++ [c]) := by
  have hne : c ≠ '\n' := fun heq => hc (heq ▸ rfl)
  by_cases hspace : isSpace c
  · have hread : C.read c
        = if C.out.isEmpty ∨ C.gap = ['\n'] then C else { C with gap := C.gap ++ [c] } := by
      rw [Cleaner.read, if_neg hc, if_pos hspace]
    rw [hread]
    rcases h with ⟨hblank, hout, hgap⟩ | ⟨hink, hout, hline, hgap⟩
    · have hkeep : C.out.isEmpty ∨ C.gap = ['\n'] := by
        rw [hout, isEmpty_joinLines hlines, hgap]
        by_cases hnil : lines = [] <;> simp [hnil]
      rw [if_pos hkeep]
      exact Or.inl ⟨by rw [strip_append_space _ hspace, hblank], hout, hgap⟩
    · have hout' : ¬ (C.out.isEmpty ∨ C.gap = ['\n']) := by
        rw [hout, List.isEmpty_iff]
        exact not_or.mpr ⟨joinLines_append_ne_nil lines hink, hgap⟩
      rw [if_neg hout']
      refine Or.inr ⟨?_, ?_, ?_, ?_⟩
      · rwa [strip_append_space _ hspace]
      · rw [strip_append_space _ hspace]
        exact hout
      · rw [strip_append_space _ hspace, lstrip_append_of_ink hink, hline, List.append_assoc]
      · intro heq
        have hlast := congrArg List.getLast? heq
        simp only [List.getLast?_concat, List.getLast?_singleton, Option.some.injEq] at hlast
        exact hne hlast
  · have hread : C.read c = { out := C.out ++ C.gap ++ [c], gap := [] } := by
      rw [Cleaner.read, if_neg hc, if_neg hspace]
    have hstrip : strip (line ++ [c]) = lstrip line ++ [c] := strip_append_singleton line hspace
    have hlstrip : lstrip (line ++ [c]) = lstrip line ++ [c] := by
      by_cases hblank : strip line = []
      · have hnil := lstrip_eq_nil hblank
        have hall := List.dropWhile_eq_nil_iff.mp hnil
        rw [hnil]
        exact lstrip_append_cons hall hspace []
      · exact lstrip_append_of_ink hblank [c]
    rw [hread]
    refine Or.inr ⟨by simp [hstrip], ?_, ?_, by simp⟩
    · rw [hstrip]
      rcases h with ⟨hblank, hout, hgap⟩ | ⟨hink, hout, hline, -⟩
      · rw [hout, hgap, lstrip_eq_nil hblank, joinLines_append, List.nil_append]
      · rw [hline, hout, joinLines_append, joinLines_append]
        simp
    · rw [hlstrip, hstrip, List.append_nil]

theorem Behind.out (h : C.Behind lines line) : C.out = joinLines (lines ++ inkLines [line]) := by
  rcases h with ⟨hblank, hout, -⟩ | ⟨hink, hout, -⟩
  · rw [hout, inkLines_blank hblank, List.append_nil]
  · rw [hout, inkLines_ink hink]

theorem Behind.out_nil (h : C.Behind lines []) : C.out = joinLines lines := by
  rw [h.out, @inkLines_blank [] rfl, List.append_nil]

theorem inked_append (hlines : Inked lines) (line : Text) :
    Inked (lines ++ inkLines [line]) := by
  intro x hx
  rcases List.mem_append.mp hx with hx | hx
  · exact hlines x hx
  · obtain ⟨y, hy, rfl⟩ := List.mem_map.mp hx
    simpa using (List.mem_filter.mp hy).2

theorem Behind.run (h : C.Behind lines line) (hlines : Inked lines) (s : Text) :
    (C.run s).out = joinLines (lines ++ inkLines (splitLinesFrom line s)) := by
  induction line, s using splitLinesFrom.induct generalizing C lines with
  | case1 line hempty =>
    have hline : inkLines [line] = [] :=
      inkLines_blank (by simp [List.isEmpty_iff.mp hempty, strip, lstrip, rstrip])
    have hout := h.out
    rw [hline] at hout
    rw [splitLinesFrom, if_pos hempty]
    exact hout
  | case2 line hempty =>
    rw [splitLinesFrom, if_neg hempty]
    exact h.out
  | case3 line c =>
    rw [splitLinesFrom]
    by_cases hc : isLineBreak (Glyph.char c)
    · rw [if_pos hc]
      exact (h.lineBreak hlines hc).out_nil
    · rw [if_neg hc]
      exact (h.glyph hlines hc).out
  | case4 line c d s hcrlf ih =>
    -- the line break of two characters is an empty line to the cleaner
    obtain ⟨hcr, hlf⟩ := hcrlf
    have hc : isLineBreak c := by
      rw [show c = '\r' from hcr]
      rfl
    have hd : isLineBreak d := by
      rw [show d = '\n' from hlf]
      rfl
    have hinked := inked_append hlines line
    have htwo := (h.lineBreak hlines hc).lineBreak hinked hd
    rw [@inkLines_blank [] rfl, List.append_nil] at htwo
    have hrun := ih htwo hinked
    rw [splitLinesFrom, if_pos ⟨hcr, hlf⟩, inkLines_cons, ← List.append_assoc]
    exact hrun
  | case5 line c d s hcrlf hc ih =>
    have hrun := ih (h.lineBreak hlines hc) (inked_append hlines line)
    rw [splitLinesFrom, if_neg hcrlf, if_pos hc, inkLines_cons, ← List.append_assoc]
    exact hrun
  | case6 line c d s hcrlf hc ih =>
    have hrun := ih (h.glyph hlines hc) hlines
    rw [splitLinesFrom, if_neg hcrlf, if_neg hc]
    exact hrun

end Cleaner

/-- **The cleaner** computes the cleaned text. -/
theorem cleanSegment_eq (s : Text) : cleanSegment s = (({} : Cleaner).run s).out := by
  have hbehind : ({} : Cleaner).Behind [] [] := Or.inl ⟨rfl, rfl, rfl⟩
  exact (hbehind.run (fun line hline => absurd hline List.not_mem_nil) s).symm

/-! ### Cutting the cleaned text -/

namespace Cleaner

variable (C : Cleaner)

theorem run_append (s t : Text) : C.run (s ++ t) = (C.run s).run t := List.foldl_append

theorem read_ink {c : Char} (hc : ¬ isSpace c) :
    C.read c = { out := C.out ++ C.gap ++ [c], gap := [] } := by
  rw [read, if_neg fun h => hc (isSpace_of_isLineBreak h), if_neg hc]

/-- White space changes the gap only. -/
theorem read_space {c : Char} (hc : isSpace c) : (C.read c).out = C.out := by
  rw [read]
  split_ifs <;> rfl

theorem run_blanks {s : Text} (h : ∀ c ∈ s, isSpace c) : (C.run s).out = C.out := by
  induction s generalizing C with
  | nil => rfl
  | cons c s ih =>
    obtain ⟨hc, hs⟩ := List.forall_mem_cons.mp h
    exact (ih (C.read c) hs).trans (C.read_space hc)

theorem read_out_ne_nil {C : Cleaner} (h : C.out ≠ []) (c : Char) : (C.read c).out ≠ [] := by
  by_cases hc : isSpace c
  · rwa [C.read_space hc]
  · rw [C.read_ink hc]
    simp

/-- Behind a visible character the cleaner does not depend on the text before. -/
theorem run_out (pre : Text) {C : Cleaner} (h : C.out ≠ []) (s : Text) :
    Cleaner.run ⟨pre ++ C.out, C.gap⟩ s = ⟨pre ++ (C.run s).out, (C.run s).gap⟩ := by
  induction s generalizing C with
  | nil => rfl
  | cons c s ih =>
    have hread : Cleaner.read ⟨pre ++ C.out, C.gap⟩ c
        = ⟨pre ++ (C.read c).out, (C.read c).gap⟩ := by
      have hempty : C.out.isEmpty = false := by simp [h]
      have hempty' : (pre ++ C.out).isEmpty = false := by simp [h]
      simp only [read, hempty, hempty']
      split_ifs <;> simp
    show Cleaner.run (Cleaner.read _ c) s = _
    rw [hread]
    exact ih (read_out_ne_nil h c)

/-- Behind a place before a visible character the cleaner starts afresh. -/
theorem run_append_ink (s : Text) {c : Char} (hc : ¬ isSpace c) (t : Text) :
    ({} : Cleaner).run (s ++ c :: t)
      = ⟨cleanedSoFar s ++ (({} : Cleaner).run (c :: t)).out,
          (({} : Cleaner).run (c :: t)).gap⟩ := by
  have hfresh : ({} : Cleaner).run (c :: t) = Cleaner.run ⟨[c], []⟩ t :=
    congrArg (fun C => Cleaner.run C t) (read_ink {} hc)
  have hread : (({} : Cleaner).run s).run (c :: t) = Cleaner.run ⟨cleanedSoFar s ++ [c], []⟩ t :=
    congrArg (fun C => Cleaner.run C t) (read_ink _ hc)
  rw [run_append, hread, hfresh]
  exact @run_out (cleanedSoFar s) ⟨[c], []⟩ (by simp) t

end Cleaner

/-- **Cutting the cleaned text** before a visible character. -/
theorem cleanSegment_append (s : Text) {c : Char} (hc : ¬ isSpace c) (t : Text) :
    cleanSegment (s ++ c :: t) = cleanedSoFar s ++ cleanSegment (c :: t) := by
  rw [cleanSegment_eq, cleanSegment_eq, Cleaner.run_append_ink s hc]

theorem cleanedSoFar_append (s : Text) {c : Char} (hc : ¬ isSpace c) (t : Text) :
    cleanedSoFar (s ++ c :: t) = cleanedSoFar s ++ cleanedSoFar (c :: t) := by
  rw [cleanedSoFar, Cleaner.run_append_ink s hc, cleanedSoFar]
  exact List.append_assoc _ _ _

theorem cleanSegment_append_blanks (s : Text) {blanks : Text} (h : ∀ c ∈ blanks, isSpace c) :
    cleanSegment (s ++ blanks) = cleanSegment s := by
  rw [cleanSegment_eq, cleanSegment_eq, Cleaner.run_append, Cleaner.run_blanks _ h]

/-! ### The cleaned text and its gap -/

namespace Cleaner

/-- A gap within a line. -/
def IsInline (gap : Text) : Prop := ∀ c ∈ gap, isSpace c ∧ ¬ isLineBreak c

/-- What the cleaner has kept of a text. -/
structure Keeps (C : Cleaner) (s : Text) : Prop where
  ink : ∀ c ∈ C.out.getLast?, ¬ isSpace c
  start : C.out = [] → C.gap = []
  gap : IsInline C.gap ∨ C.gap = ['\n']
  last : C.gap = [] → C.out = [] ∨ C.out.getLast? = s.getLast?
  adjacent : ∀ x y, ¬ isSpace x → ¬ isSpace y → [x, y] <:+: C.out → [x, y] <:+: s

theorem Keeps.isSpace_gap {C : Cleaner} {s : Text} (h : C.Keeps s) : ∀ c ∈ C.gap, isSpace c := by
  intro c hc
  rcases h.gap with hinline | hbreak
  · exact (hinline c hc).1
  · rw [hbreak, List.mem_singleton] at hc
    rw [hc]
    rfl

/-- Two visible characters in a row do not reach into blanks. -/
theorem isInfix_of_append_blanks {x y : Char} (hy : ¬ isSpace y) {s blanks : Text}
    (hblanks : ∀ c ∈ blanks, isSpace c) (h : [x, y] <:+: s ++ blanks) : [x, y] <:+: s := by
  induction blanks using List.reverseRecOn with
  | nil => rwa [List.append_nil] at h
  | append_singleton blanks b ih =>
    rw [← List.append_assoc, List.infix_concat_iff] at h
    rcases h with hend | hadjacent
    · obtain ⟨t, ht⟩ := hend
      have hlast := congrArg List.getLast? ht
      simp only [List.getLast?_append, List.getLast?_cons_cons, List.getLast?_singleton,
        Option.some_or, Option.some.injEq] at hlast
      exact absurd (hblanks b (by simp)) (hlast ▸ hy)
    · exact ih (fun c hc => hblanks c (List.mem_append_left _ hc)) hadjacent

theorem Keeps.read {C : Cleaner} {s : Text} (h : C.Keeps s) (c : Char) :
    (C.read c).Keeps (s ++ [c]) := by
  have hbefore : ∀ x y, ¬ isSpace x → ¬ isSpace y → [x, y] <:+: C.out → [x, y] <:+: s ++ [c] :=
    fun x y hx hy hout => (h.adjacent x y hx hy hout).trans (List.prefix_append s [c]).isInfix
  by_cases hspace : isSpace c
  · rw [Cleaner.read]
    by_cases hbreak : isLineBreak c
    · rw [if_pos hbreak]
      by_cases hout : C.out = []
      · exact ⟨h.ink, fun _ => by simp [hout], Or.inl (by simp [hout, IsInline]),
          fun _ => Or.inl hout, hbefore⟩
      · exact ⟨h.ink, fun hnil => absurd hnil hout, Or.inr (by simp [hout]),
          fun hgap => by simp [hout] at hgap, hbefore⟩
    · rw [if_neg hbreak, if_pos hspace]
      by_cases hkeep : C.out.isEmpty ∨ C.gap = ['\n']
      · rw [if_pos hkeep]
        refine ⟨h.ink, h.start, h.gap, fun hgap => Or.inl ?_, hbefore⟩
        rcases hkeep with hempty | hgap'
        · exact List.isEmpty_iff.mp hempty
        · rw [hgap] at hgap'
          cases hgap'
      · rw [if_neg hkeep]
        obtain ⟨hempty, hgap⟩ := not_or.mp hkeep
        have hinline := h.gap.resolve_right hgap
        refine ⟨h.ink, fun hnil => absurd (List.isEmpty_iff.mpr hnil) hempty, Or.inl ?_,
          fun hnil => by simp at hnil, hbefore⟩
        intro d hd
        rcases List.mem_append.mp hd with hd | hd
        · exact hinline d hd
        · rw [List.mem_singleton.mp hd]
          exact ⟨hspace, hbreak⟩
  · rw [C.read_ink hspace]
    refine ⟨?_, fun hnil => by simp at hnil, Or.inl (by simp [IsInline]),
      fun _ => Or.inr (by simp), fun x y hx hy hout => ?_⟩
    · intro d hd
      rw [List.getLast?_concat, Option.mem_some_iff] at hd
      exact hd ▸ hspace
    · rw [List.infix_concat_iff] at hout
      rcases hout with hend | hadjacent
      · obtain ⟨t, ht⟩ := hend
        have hsplit : t ++ [x] = C.out ++ C.gap ∧ y = c := by
          have ht' : (t ++ [x]) ++ [y] = C.out ++ C.gap ++ [c] := by simpa using ht
          exact ⟨(List.append_inj' ht' rfl).1, by simpa using (List.append_inj' ht' rfl).2⟩
        obtain ⟨hbody, rfl⟩ := hsplit
        -- the gap is empty, as a visible character stands in front
        have hgap : C.gap = [] := by
          rcases List.eq_nil_or_concat C.gap with hnil | ⟨gap, b, hgap⟩
          · exact hnil
          · have hlast := congrArg List.getLast? hbody
            rw [hgap, List.concat_eq_append, ← List.append_assoc, List.getLast?_concat,
              List.getLast?_concat, Option.some.injEq] at hlast
            have hb := h.isSpace_gap b (by simp [hgap])
            exact absurd (hlast ▸ hb) hx
        rw [hgap, List.append_nil] at hbody
        have hlast : s.getLast? = some x := by
          rcases h.last hgap with hnil | hlast
          · simp [hnil] at hbody
          · rw [← hlast, ← hbody, List.getLast?_concat]
        obtain ⟨r, rfl⟩ := List.getLast?_eq_some_iff.mp hlast
        exact ⟨r, [], by simp⟩
      · have hout := isInfix_of_append_blanks hy h.isSpace_gap hadjacent
        exact hbefore x y hx hy hout

theorem keeps_run (s : Text) : (({} : Cleaner).run s).Keeps s := by
  induction s using List.reverseRecOn with
  | nil =>
    exact ⟨fun c hc => absurd hc (by simp [run]), fun _ => rfl,
      Or.inl fun c hc => absurd hc List.not_mem_nil, fun _ => Or.inl rfl, fun x y _ _ h => h⟩
  | append_singleton s c ih =>
    rw [run_append]
    exact ih.read c

/-- A line break stays the gap. -/
theorem gap_run_of_break {C : Cleaner} (hout : C.out ≠ []) (hgap : C.gap = ['\n']) {blanks : Text}
    (hblanks : ∀ c ∈ blanks, isSpace c) : (C.run blanks).gap = ['\n'] := by
  induction blanks generalizing C with
  | nil => exact hgap
  | cons c blanks ih =>
    obtain ⟨hc, hblanks⟩ := List.forall_mem_cons.mp hblanks
    have hread : (C.read c).gap = ['\n'] := by
      rw [read]
      by_cases hbreak : isLineBreak c
      · rw [if_pos hbreak]
        simp [hout]
      · rw [if_neg hbreak, if_pos hc, if_pos (Or.inr hgap)]
        exact hgap
    exact ih (read_out_ne_nil hout c) hread hblanks

/-- A gap within a line grows, or the line ends. -/
theorem gap_run_of_inline {C : Cleaner} (hout : C.out ≠ []) (hgap : IsInline C.gap) {blanks : Text}
    (hblanks : ∀ c ∈ blanks, isSpace c) :
    (C.run blanks).gap = ['\n'] ∨ ∃ more, IsInline more ∧ (C.run blanks).gap = C.gap ++ more := by
  induction blanks generalizing C with
  | nil => exact Or.inr ⟨[], fun c hc => absurd hc List.not_mem_nil, (List.append_nil _).symm⟩
  | cons c blanks ih =>
    obtain ⟨hc, hblanks⟩ := List.forall_mem_cons.mp hblanks
    have hout' := read_out_ne_nil hout c
    by_cases hbreak : isLineBreak c
    · have hread : (C.read c).gap = ['\n'] := by
        rw [read, if_pos hbreak]
        simp [hout]
      exact Or.inl (gap_run_of_break hout' hread hblanks)
    · have hne : C.gap ≠ ['\n'] := by
        intro heq
        exact (hgap '\n' (by simp [heq])).2 rfl
      have hread : (C.read c).gap = C.gap ++ [c] := by
        rw [read, if_neg hbreak, if_pos hc, if_neg (by simp [hout, hne])]
      have hinline : IsInline (C.read c).gap := by
        rw [hread]
        intro d hd
        rcases List.mem_append.mp hd with hd | hd
        · exact hgap d hd
        · rw [List.mem_singleton.mp hd]
          exact ⟨hc, hbreak⟩
      rcases ih hout' hinline hblanks with hend | ⟨more, hmore, hgrow⟩
      · exact Or.inl hend
      · refine Or.inr ⟨c :: more, List.forall_mem_cons.mpr ⟨⟨hc, hbreak⟩, hmore⟩, ?_⟩
        show ((C.read c).run blanks).gap = _
        rw [hgrow, hread, List.append_assoc, List.singleton_append]

/-- A text without line breaks is cleaned to one line. -/
theorem run_of_inline {s : Text} (h : ∀ c ∈ s, ¬ isLineBreak c) :
    (∀ c ∈ (({} : Cleaner).run s).out, c ≠ '\n') ∧ IsInline (({} : Cleaner).run s).gap := by
  induction s using List.reverseRecOn with
  | nil =>
    exact ⟨fun c hc => absurd hc List.not_mem_nil, fun c hc => absurd hc List.not_mem_nil⟩
  | append_singleton s c ih =>
    obtain ⟨hout, hgap⟩ := ih fun d hd => h d (List.mem_append_left _ hd)
    have hbreak : ¬ isLineBreak c := h c (by simp)
    rw [run_append]
    show (∀ d ∈ (Cleaner.read _ c).out, d ≠ '\n') ∧ IsInline (Cleaner.read _ c).gap
    by_cases hspace : isSpace c
    · rw [read_space _ hspace]
      refine ⟨hout, ?_⟩
      rw [read, if_neg hbreak, if_pos hspace]
      split_ifs
      · exact hgap
      · intro d hd
        rcases List.mem_append.mp hd with hd | hd
        · exact hgap d hd
        · rw [List.mem_singleton.mp hd]
          exact ⟨hspace, hbreak⟩
    · rw [read_ink _ hspace]
      refine ⟨fun d hd => ?_, fun d hd => absurd hd List.not_mem_nil⟩
      rw [List.append_assoc, List.mem_append, List.mem_append, List.mem_singleton] at hd
      rcases hd with hd | hd | rfl
      · exact hout d hd
      · rintro rfl
        exact (hgap _ hd).2 rfl
      · rintro rfl
        exact hbreak rfl

theorem out_prefix_run (C : Cleaner) (s : Text) : C.out <+: (C.run s).out := by
  induction s generalizing C with
  | nil => exact List.prefix_rfl
  | cons c s ih =>
    refine List.IsPrefix.trans ?_ (ih (C.read c))
    by_cases hc : isSpace c
    · rw [C.read_space hc]
    · rw [C.read_ink hc, List.append_assoc]
      exact List.prefix_append _ _

end Cleaner

theorem cleanedSoFar_eq (s : Text) :
    cleanedSoFar s = cleanSegment s ++ (({} : Cleaner).run s).gap := by
  rw [cleanSegment_eq]
  rfl

theorem cleanedSoFar_blanks {blanks : Text} (h : ∀ c ∈ blanks, isSpace c) :
    cleanedSoFar blanks = [] := by
  have hout : (({} : Cleaner).run blanks).out = [] := Cleaner.run_blanks _ h
  show (({} : Cleaner).run blanks).out ++ (({} : Cleaner).run blanks).gap = []
  rw [(Cleaner.keeps_run blanks).start hout, hout, List.append_nil]

/-- A cleaned text begins with the visible character that the text begins with. -/
theorem exists_cleanSegment_cons {c : Char} (hc : ¬ isSpace c) (s : Text) :
    ∃ t, cleanSegment (c :: s) = c :: t := by
  have hprefix : [c] <+: (({} : Cleaner).run (c :: s)).out := by
    have hread := Cleaner.out_prefix_run (({} : Cleaner).read c) s
    rw [Cleaner.read_ink _ hc] at hread
    rwa [Cleaner.run, List.foldl_cons, Cleaner.read_ink _ hc]
  obtain ⟨t, ht⟩ := hprefix
  exact ⟨t, (cleanSegment_eq _).trans ht.symm⟩

/-- Behind a visible character there is no gap. -/
theorem cleanedSoFar_concat (s : Text) {c : Char} (hc : ¬ isSpace c) :
    cleanedSoFar (s ++ [c]) = cleanSegment (s ++ [c]) ∧
      cleanSegment (s ++ [c]) = cleanedSoFar s ++ [c] := by
  have hrun : ({} : Cleaner).run (s ++ [c]) = ⟨cleanedSoFar s ++ [c], []⟩ := by
    rw [Cleaner.run_append]
    exact Cleaner.read_ink _ hc
  rw [cleanedSoFar_eq, cleanSegment_eq, hrun]
  exact ⟨List.append_nil _, rfl⟩

/-- **Cleaning brings no two visible characters together.** -/
theorem isInfix_of_cleanSegment {x y : Char} (hx : ¬ isSpace x) (hy : ¬ isSpace y) {s : Text}
    (h : [x, y] <:+: cleanSegment s) : [x, y] <:+: s :=
  (Cleaner.keeps_run s).adjacent x y hx hy (by rwa [← cleanSegment_eq])

/-- A text is blank, or it has a first visible character. -/
theorem blank_or_ink (s : Text) : (∀ c ∈ s, isSpace c) ∨
    ∃ blanks c t, s = blanks ++ c :: t ∧ (∀ b ∈ blanks, isSpace b) ∧ ¬ isSpace c := by
  induction s with
  | nil => exact Or.inl fun c hc => absurd hc List.not_mem_nil
  | cons c s ih =>
    by_cases hc : isSpace c
    · rcases ih with hblank | ⟨blanks, d, t, rfl, hblanks, hd⟩
      · exact Or.inl (List.forall_mem_cons.mpr ⟨hc, hblank⟩)
      · exact Or.inr ⟨c :: blanks, d, t, rfl, List.forall_mem_cons.mpr ⟨hc, hblanks⟩, hd⟩
    · exact Or.inr ⟨[], c, s, rfl, fun b hb => absurd hb List.not_mem_nil, hc⟩

end Csc512
