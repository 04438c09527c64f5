import Duallity.StateEncoding

/-! The fzf score recurrence (`fzf_support.rs`). A column holds, for each query character, the best score of an alignment of
    the query up to it with the candidate so far. -/

namespace Duallity

def i32Max : Int := 2147483647

def i32Min : Int := -2147483648

/-- The nearest `i32`. -/
def saturatingI32 (value : Int) : Int := max i32Min (min value i32Max)

def scoreMatch : Int := 16

def scoreGapStart : Int := -3

def scoreGapExtension : Int := -1

def bonusBoundary : Int := scoreMatch / 2

def bonusNonWord : Int := scoreMatch / 2

def bonusCamel123 : Int := bonusBoundary + scoreGapExtension

def bonusConsecutive : Int := -(scoreGapStart + scoreGapExtension)

def bonusFirstCharMultiplier : Int := 2

inductive FzfScheme where
  | default
  | path
  | history
deriving DecidableEq, Repr

structure FzfConfig where
  caseSensitive : Bool
  scheme : FzfScheme
  topK : Nat
  maxQueryChars : Nat
  maxCandidateChars : Nat
deriving DecidableEq, Repr

inductive FzfError where
  | queryTooLong (actual maximum : Nat)
  | candidateTooLong (actual maximum : Nat)
deriving DecidableEq, Repr

/-- The Unicode tables behind the methods of `char`; `toLowercase` is the first character of the mapping. -/
structure UnicodeTables where
  isLowercase : Char → Bool
  isUppercase : Char → Bool
  isNumeric : Char → Bool
  isAlphabetic : Char → Bool
  isWhitespace : Char → Bool
  toLowercase : Char → Char

inductive CharClass where
  | white
  | nonWord
  | delimiter
  | lower
  | upper
  | letter
  | number
deriving DecidableEq, Repr

structure Cell where
  score : Int
  consecutive : Nat
  firstBonus : Int
  inGap : Bool
  reachable : Bool
deriving DecidableEq, Repr

instance : Inhabited Cell := ⟨⟨0, 0, 0, false, false⟩⟩

structure FzfColumn where
  cells : List Cell
  previousClass : CharClass
  depth : Nat
  bestFullScore : Option Int
deriving DecidableEq, Repr

structure FzfCore where
  tables : UnicodeTables
  query : List Char
  config : FzfConfig
  maxBonus : Int

def comparableChar (tables : UnicodeTables) (character : Char) (caseSensitive : Bool) : Char :=
  if caseSensitive then character else if character.toNat < 128 then character.toLower else tables.toLowercase character

/-- `std::path::MAIN_SEPARATOR` on Unix. -/
def mainSeparator : Char := '/'

def FzfScheme.maxBonus : FzfScheme → Int
  | .default => bonusBoundary + 2
  | .path => bonusBoundary + 1
  | .history => bonusBoundary

/-- The score of a cell when the next character is skipped. -/
def gapScore (cell : Cell) : Option Int :=
  if cell.reachable then some (saturatingI32 (cell.score + if cell.inGap then scoreGapExtension else scoreGapStart)) else none

/-- The cell of the first query character. -/
def firstCell (positionBonus : Int) (matched : Bool) (previousFirst : Cell) : Cell :=
  if matched then
    { score := saturatingI32 (scoreMatch + saturatingI32 (positionBonus * bonusFirstCharMultiplier))
      consecutive := 1
      firstBonus := positionBonus
      inGap := false
      reachable := true }
  else
    match gapScore previousFirst with
    | some score => { score := max score 0, consecutive := 0, firstBonus := 0, inGap := true, reachable := true }
    | none => default

/-- What a match behind the diagonal cell gives: the length and the first bonus of the run, and the score. -/
def matchedCell (positionBonus : Int) (diagonal : Cell) : Nat × Int × Int :=
  let consecutive := diagonal.consecutive + 1
  let firstBonus := if diagonal.consecutive = 0 then positionBonus else diagonal.firstBonus
  let score := fun appliedBonus => saturatingI32 (saturatingI32 (diagonal.score + scoreMatch) + appliedBonus)
  if 1 < consecutive then
    if bonusBoundary ≤ positionBonus ∧ diagonal.firstBonus < positionBonus then (1, positionBonus, score positionBonus)
    else (consecutive, firstBonus, score (max (max positionBonus bonusConsecutive) diagonal.firstBonus))
  else (consecutive, firstBonus, score positionBonus)

/-- The better of a gap and a match. -/
def joinCell (gap : Option Int) (matched : Option (Nat × Int × Int)) : Cell :=
  if gap.isNone && matched.isNone then default
  else
    let matchValue := matched.elim (i32Min / 4) fun m => m.2.2
    let gapValue := gap.getD (i32Min / 4)
    { score := max (max matchValue gapValue) 0
      consecutive := if gapValue ≤ matchValue then matched.elim 0 fun m => m.1 else 0
      firstBonus := if gapValue ≤ matchValue then matched.elim 0 fun m => m.2.1 else 0
      inGap := decide (matchValue < gapValue)
      reachable := true }

/-- The cell of a later query character; `left` is its cell before, `diagonal` that of the character before it. -/
def laterCell (positionBonus : Int) (matched : Bool) (left diagonal : Cell) : Cell :=
  joinCell (gapScore left) (if matched && diagonal.reachable then some (matchedCell positionBonus diagonal) else none)

namespace FzfColumn

/-- The cell of a query character. -/
def cell (column : FzfColumn) (index : Nat) : Cell := (column.cells[index]?).getD default

end FzfColumn

namespace FzfCore

def new (tables : UnicodeTables) (query : List Char) (config : FzfConfig) : Except FzfError FzfCore :=
  let query := query.map fun character => comparableChar tables character config.caseSensitive
  if config.maxQueryChars < query.length then .error (.queryTooLong query.length config.maxQueryChars)
  else .ok ⟨tables, query, config, config.scheme.maxBonus⟩

variable (core : FzfCore)

def initialClass : CharClass :=
  match core.config.scheme with
  | .path => .delimiter
  | .default | .history => .white

def isDelimiter (character : Char) : Bool :=
  match core.config.scheme with
  | .path => character == '/' || character == mainSeparator
  | .default | .history => ['/', ',', ':', ';', '|'].contains character

def classify (character : Char) : CharClass :=
  if core.tables.isLowercase character then .lower
  else if core.tables.isUppercase character then .upper
  else if core.tables.isNumeric character then .number
  else if core.tables.isAlphabetic character then .letter
  else if core.tables.isWhitespace character || character == '\u0085' || character == '\u00a0' then .white
  else if core.isDelimiter character then .delimiter
  else .nonWord

def whiteBonus : Int :=
  match core.config.scheme with
  | .default => bonusBoundary + 2
  | .path | .history => bonusBoundary

def delimiterBonus : Int :=
  match core.config.scheme with
  | .default | .path => bonusBoundary + 1
  | .history => bonusBoundary

/-- The bonus of a character between words, or inside one. -/
def innerBonus (previous current : CharClass) : Int :=
  if (previous = .lower ∧ current = .upper) ∨ (previous ≠ .number ∧ current = .number) then bonusCamel123
  else
    match current with
    | .nonWord | .delimiter => bonusNonWord
    | .white => core.whiteBonus
    | .lower | .upper | .letter | .number => 0

def bonusFor (previous current : CharClass) : Int :=
  if current ≠ .white then
    match previous with
    | .white => core.whiteBonus
    | .delimiter => core.delimiterBonus
    | .nonWord => bonusBoundary
    | .lower | .upper | .letter | .number => core.innerBonus previous current
  else core.innerBonus previous current

def comparable (character : Char) : Char := comparableChar core.tables character core.config.caseSensitive

def initialColumn : FzfColumn where
  cells := core.query.map fun _ => default
  previousClass := core.initialClass
  depth := 0
  bestFullScore := if core.query = [] then some 0 else none

/-- The cell of one query character in the next column. -/
def nextCell (previous : FzfColumn) (candidate : Char) (index : Nat) : Cell :=
  let positionBonus := core.bonusFor previous.previousClass (core.classify candidate)
  let matched := core.query[index]? == some (core.comparable candidate)
  if index = 0 then firstCell positionBonus matched (previous.cell 0)
  else laterCell positionBonus matched (previous.cell index) (previous.cell (index - 1))

/-- The better of the best full score so far and that of the column. -/
def raiseBest (previous current : Option Int) : Option Int :=
  match previous, current with
  | some previous, some current => some (max previous current)
  | previous, current => previous.or current

/-- The score of the last query character, when it is reached. -/
def currentFullScore (cells : List Cell) : Option Int := (cells.getLast?.filter Cell.reachable).map Cell.score

def advance (previous : FzfColumn) (candidate : Char) : FzfColumn :=
  let cells := (List.range core.query.length).map (core.nextCell previous candidate)
  { cells
    previousClass := core.classify candidate
    depth := previous.depth + 1
    bestFullScore := raiseBest previous.bestFullScore (currentFullScore cells) }

/-- The loop of `score_chars`. -/
def scoreFrom (column : FzfColumn) : List Char → Except FzfError (Option Int)
  | [] => .ok column.bestFullScore
  | character :: candidate =>
    if core.config.maxCandidateChars ≤ column.depth then
      .error (.candidateTooLong (column.depth + 1) core.config.maxCandidateChars)
    else scoreFrom (core.advance column character) candidate

def scoreChars (candidate : List Char) : Except FzfError (Option Int) := core.scoreFrom core.initialColumn candidate

def maximumScore : Int :=
  match core.query.length with
  | 0 => 0
  | remaining + 1 =>
    saturatingI32 (saturatingI32 (scoreMatch + saturatingI32 (core.maxBonus * bonusFirstCharMultiplier)) +
      saturatingI32 (min (remaining : Int) i32Max * saturatingI32 (scoreMatch + core.maxBonus)))

/-- What a cell can still come to, when every other query character matches. -/
def optimistic (cell : Cell) (remaining : Nat) : Int :=
  saturatingI32 (cell.score + saturatingI32 (min (remaining : Int) i32Max * saturatingI32 (scoreMatch + core.maxBonus)))

/-- `bound.map_or(value, |current| current.max(value))`. -/
def raiseBound (bound : Option Int) (value : Int) : Option Int := some (bound.elim value fun current => max current value)

def upperBound (column : FzfColumn) : Option Int :=
  let available := core.config.maxCandidateChars - column.depth
  let bound := column.cells.zipIdx.foldl (fun bound (cell, index) =>
    if cell.reachable ∧ core.query.length - (index + 1) ≤ available then
      raiseBound bound (core.optimistic cell (core.query.length - (index + 1)))
    else bound) column.bestFullScore
  if core.query.length ≤ available then raiseBound bound core.maximumScore else bound

/-- The column after a candidate prefix. -/
def column (candidate : List Char) : FzfColumn := candidate.foldl core.advance core.initialColumn

end FzfCore
end Duallity
