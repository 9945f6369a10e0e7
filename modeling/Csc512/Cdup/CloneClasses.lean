import Csc512.Cdup.CloneScan
import Mathlib.Data.Finset.Dedup

/-!
# Clone classes

The rest of the clone detector, and the command that combines its two modes. Matches with the same
content form a class, whose occurrences are statement ranges. In the Type II mode, occurrences of a
class that are also equal in the Type I normal form make up a class of Type I. The classes are
listed by the number of their occurrences; the maximal filter then drops a class whose occurrences
lie in occurrences that are kept already, from the longest class to the shortest, and the overlap
filter drops a class whose occurrences lie in one segment and overlap.

A Python set is the list of its elements in the order of their insertion. The order in which an
iteration sees them is a parameter.
-/

namespace Csc512

/-- The statements `startStmt` to `endStmt` of a segment. -/
structure Occurrence where
  segId : ℕ
  startStmt : ℕ
  endStmt : ℕ
deriving DecidableEq, Repr

namespace Occurrence

/-- The order of the triples `(seg_id, start_stmt_idx, end_stmt_idx)`. -/
def le (o p : Occurrence) : Prop :=
  o.segId < p.segId ∨ o.segId = p.segId ∧
    (o.startStmt < p.startStmt ∨ o.startStmt = p.startStmt ∧ o.endStmt ≤ p.endStmt)

instance : DecidableRel le := fun _ _ => inferInstanceAs (Decidable (_ ∨ _))

/-- The range `o` lies in the range `p`. -/
def within (o p : Occurrence) : Prop :=
  o.segId = p.segId ∧ p.startStmt ≤ o.startStmt ∧ o.endStmt ≤ p.endStmt

instance : DecidableRel within := fun _ _ => inferInstanceAs (Decidable (_ ∧ _))

/-- `ranges_overlap`, on the statement numbers alone. -/
def rangesOverlap (o p : Occurrence) : Prop :=
  o.startStmt ≤ p.endStmt ∧ p.startStmt ≤ o.endStmt

instance : DecidableRel rangesOverlap := fun _ _ => inferInstanceAs (Decidable (_ ∧ _))

end Occurrence

/-- The two types of clones that the detector tells apart. -/
inductive CloneType where
  | I | II
deriving DecidableEq, Repr

/-- A clone class of the output. -/
structure CloneClass where
  id : ℕ
  cloneType : CloneType
  length : ℕ
  statements : List Text
  occurrences : List Occurrence
  normalized : Option (List Text)
deriving DecidableEq, Repr

/-- `add` on a set. -/
def setAdd {α : Type*} [DecidableEq α] (s : List α) (x : α) : List α :=
  if x ∈ s then s else s ++ [x]

/-- The order in which an iteration visits a set, by the order of the insertions. -/
structure SetOrder (α : Type*) where
  visit : List α → List α
  perm : ∀ s, (visit s).Perm s

/-- The order of the insertions itself. -/
def SetOrder.inserted (α : Type*) : SetOrder α := ⟨id, fun s => List.Perm.refl s⟩

/-! ### From matches to classes -/

variable (flat : List (Option FlatEntry))

/-- The statement range of `length` flat positions. -/
def flatRangeToOccurrence (startFlat length : ℕ) : Option Occurrence := do
  let first ← flat[startFlat]?.join
  let last ← flat[startFlat + length - 1]?.join
  some ⟨first.segId, first.stmtIdx, last.stmtIdx⟩

/-- The normal forms at `length` flat positions. -/
def contentTuple (startFlat length : ℕ) : List Text :=
  ((flat.drop startFlat).take length).filterMap fun e => e.map FlatEntry.norm

/-- Add both ranges of a match to the class of its content. -/
def addMatch (classes : Dict (List Text) (List Occurrence)) (m : ℕ × ℕ × ℕ) :
    Option (Dict (List Text) (List Occurrence)) := do
  let (startA, startB, length) := m
  let occA ← flatRangeToOccurrence flat startA length
  let occB ← flatRangeToOccurrence flat startB length
  some (classes.upsert (contentTuple flat startA length) fun s =>
    setAdd (setAdd (s.getD []) occA) occB)

/-- The occurrences of every content. -/
def cloneClasses (matched : List (ℕ × ℕ × ℕ)) : Option (Dict (List Text) (List Occurrence)) :=
  matched.foldlM (addMatch flat) Dict.empty

/-- The Type I normal forms of the statements of a range. -/
def norm1Tuple (occ : Occurrence) : List Text :=
  (flat.filterMap id).filterMap fun entry =>
    if entry.segId = occ.segId ∧ occ.startStmt ≤ entry.stmtIdx ∧ entry.stmtIdx ≤ occ.endStmt then
      some entry.norm1
    else none

/-- The occurrences of a class, by their Type I normal form. -/
def norm1Groups (order : SetOrder Occurrence) (occurrences : List Occurrence) :
    Dict (List Text) (List Occurrence) :=
  (order.visit occurrences).foldl
    (fun groups occ => groups.upsert (norm1Tuple flat occ) fun s => setAdd (s.getD []) occ)
    Dict.empty

/-- Add the groups of one class to the Type I classes. -/
def addGroups (order : SetOrder Occurrence) (type1 : Dict (List Text) (List Occurrence))
    (occurrences : List Occurrence) : Dict (List Text) (List Occurrence) :=
  (norm1Groups flat order occurrences).entries.foldl
    (fun type1 g =>
      if 2 ≤ g.2.length then
        type1.upsert g.1 fun s => (order.visit g.2).foldl setAdd (s.getD [])
      else type1)
    type1

/-- The Type I classes inside the Type II classes. -/
def type1Classes (order : SetOrder Occurrence) (classes : Dict (List Text) (List Occurrence)) :
    Dict (List Text) (List Occurrence) :=
  classes.entries.foldl (fun type1 c => addGroups flat order type1 c.2) Dict.empty

/-! ### From classes to the output -/

/-- How often the placeholder occurs in a text. -/
def countPlaceholders : Text → ℕ
  | '{' :: '}' :: s => countPlaceholders s + 1
  | _ :: s => countPlaceholders s
  | [] => 0

/-- Replace the first placeholders of a statement by the block types of the first children, and
return the children that are left. -/
def fillBlocks (segHashes : Dict ℕ ℕ) : List ℕ → Text → Option (Text × List ℕ)
  | [], stmt => some (stmt, [])
  | c :: children, stmt =>
    if contains (lit "{}") stmt then do
      let t ← segHashes.get? c
      fillBlocks segHashes children (replaceFirst (lit "{}") (blockTag t) stmt)
    else some (stmt, c :: children)

/-- The same for a list of statements, from left to right. -/
def fillBlocksList (segHashes : Dict ℕ ℕ) : List Text → List ℕ → Option (List Text)
  | [], _ => some []
  | stmt :: stmts, children => do
    let (filled, left) ← fillBlocks segHashes children stmt
    let rest ← fillBlocksList segHashes stmts left
    some (filled :: rest)

/-- The statements of a range as they were written, with the block types filled in. -/
def hashedOriginalStmts (segments : List Segment) (segHashes : Dict ℕ ℕ)
    (segId startIdx endIdx : ℕ) : Option (List Text) := do
  let seg ← segById segments segId
  let raws := seg.stmts.map Statement.raw
  let before ← (List.range startIdx).mapM fun i => raws[i]?
  let childOffset := (before.map countPlaceholders).sum
  let stmts ← (List.range' startIdx (endIdx + 1 - startIdx)).mapM fun i => raws[i]?
  fillBlocksList segHashes stmts ((childrenOf segments segId).drop childOffset)

/-- The items of a dictionary of classes, the ones with the most occurrences first. -/
def byCount (items : List (List Text × List Occurrence)) : List (List Text × List Occurrence) :=
  items.insertionSort fun a b => b.2.length ≤ a.2.length

/-- The output record of a class. -/
def cloneClassOf (segments : List Segment) (segHashes : Dict ℕ ℕ) (cloneType : CloneType)
    (id : ℕ) (item : List Text × List Occurrence) : Option CloneClass := do
  let occurrences := item.2.insertionSort Occurrence.le
  let first ← occurrences.head?
  let statements ←
    hashedOriginalStmts segments segHashes first.segId first.startStmt first.endStmt
  some { id, cloneType, length := item.1.length, statements, occurrences
         normalized := if cloneType = .II then some item.1 else none }

/-- The output records of all classes: first the Type I classes that were found inside Type II
classes, all with the number 0, then the others, numbered from 1 on. -/
def cloneClassList (segments : List Segment) (segHashes : Dict ℕ ℕ) (type2Norm : Bool)
    (type1 classes : Dict (List Text) (List Occurrence)) : Option (List CloneClass) := do
  let inner ← (byCount type1.entries).mapM (cloneClassOf segments segHashes .I 0)
  let outer ← ((byCount classes.entries).zipIdx 1).mapM fun e =>
    cloneClassOf segments segHashes (if type2Norm then .II else .I) e.2 e.1
  some (inner ++ outer)

/-! ### The two filters -/

/-- Number the classes from 1 on. -/
def renumber (classes : List CloneClass) : List CloneClass :=
  (classes.zipIdx 1).map fun e => { e.1 with id := e.2 }

/-- Keep the classes with an occurrence that lies in no eligible one kept before. Only occurrences
of Type I classes are eligible to cover a class of Type I. -/
def keepUncovered : List Occurrence → List Occurrence → List CloneClass → List CloneClass
  | _, _, [] => []
  | coveredI, coveredII, clone :: clones =>
    let eligible := match clone.cloneType with
      | .I => coveredI
      | .II => coveredI ++ coveredII
    if ∀ o ∈ clone.occurrences, ∃ p ∈ eligible, o.within p then
      keepUncovered coveredI coveredII clones
    else match clone.cloneType with
      | .I => clone :: keepUncovered (coveredI ++ clone.occurrences) coveredII clones
      | .II => clone :: keepUncovered coveredI (coveredII ++ clone.occurrences) clones

/-- The maximal filter. -/
def maximalClasses (classes : List CloneClass) : List CloneClass :=
  keepUncovered [] [] (classes.insertionSort fun a b => b.length ≤ a.length)

/-- Do two occurrences at different places of the list overlap? -/
def hasOverlap : List Occurrence → Bool
  | [] => false
  | o :: occs => occs.any (fun p => o.rangesOverlap p) || hasOverlap occs

/-- The class has its occurrences in one segment, and two of them overlap. -/
def overlapping (clone : CloneClass) : Bool :=
  (clone.occurrences.map Occurrence.segId).dedup.length == 1 && hasOverlap clone.occurrences

/-! ### The detector and the command -/

variable (U : CharTable) (sha256 : Text → Text) (order : SetOrder Occurrence)

/-- The classes of a representation, before the filters. -/
def unfilteredClasses (segments : List Segment) (type2Norm : Bool) (minLength maxFreq : ℤ) :
    Option (List CloneClass) := do
  let T ← blockTypes U sha256 type2Norm segments
  let flat ← flatSegments U type2Norm T.segHashes segments segments
  let classes ← cloneClasses flat (completedClones minLength maxFreq flat)
  if type2Norm then
    cloneClassList segments T.segHashes type2Norm (type1Classes flat order classes)
      (classes.filter fun _ occurrences => 2 ≤ occurrences.length)
  else cloneClassList segments T.segHashes type2Norm Dict.empty classes

/-- The clone detector. -/
def detectClones (segments : List Segment) (type2Norm maximal : Bool) (minLength maxFreq : ℤ)
    (filterOverlaps : Bool) : Option (List CloneClass) := do
  let classes ← unfilteredClasses U sha256 order segments type2Norm minLength maxFreq
  let classes := if maximal then renumber (maximalClasses classes) else classes
  some (if filterOverlaps then renumber (classes.filter fun clone => ¬ overlapping clone)
    else classes)

/-- The set of the occurrences of a class. -/
def fingerprint (clone : CloneClass) : Finset Occurrence := clone.occurrences.toFinset

/-- What the command reports for the requested types: the classes of the types in increasing order,
without the classes of the Type II run that have the occurrences of a class of the Type I run. -/
def combineResults (types : List ℕ) (resultsByType : ℕ → List CloneClass) : List CloneClass :=
  let type1Fingerprints := if 1 ∈ types then (resultsByType 1).map fingerprint else []
  renumber ((types.insertionSort (· ≤ ·)).flatMap fun t =>
    (resultsByType t).filter fun clone =>
      ¬ (t = 2 ∧ 1 ∈ types ∧ fingerprint clone ∈ type1Fingerprints))

/-- The classes that the command reports for the types 1 and 2. -/
def cmdDetect (segments : List Segment) (maximal : Bool) (minLength maxFreq : ℤ)
    (filterOverlaps : Bool) : Option (List CloneClass) := do
  let type1 ← detectClones U sha256 order segments false maximal minLength maxFreq filterOverlaps
  let type2 ← detectClones U sha256 order segments true maximal minLength maxFreq filterOverlaps
  some (combineResults [1, 2] fun t => if t = 1 then type1 else type2)

end Csc512
