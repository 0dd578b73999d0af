import RelayLogic.Diagram.Lexer
import Mathlib.Data.List.Basic

/-!
Tokens and lines. Every token takes a character at least, so the tokens of a text need no bound; and
no token and no gap goes on past the end of a line, so the tokens of a text are those of its lines.
-/

namespace RelayLogic.Diagram

def Splits (take : List Char → List Char × List Char) : Prop :=
  ∀ text, (take text).1 ++ (take text).2 = text

/-- Whether nothing is split off beyond the end of a line, whatever the next lines are. -/
def Stops (take : List Char → List Char × List Char) : Prop :=
  ∀ line behind, take (line ++ '\n' :: behind) = ((take line).1, (take line).2 ++ '\n' :: behind)

section

variable {accepts : Char → Bool} {first second tail : List Char → List Char × List Char}

theorem splits_takeOne (accepts : Char → Bool) : Splits (takeOne accepts) := by
  intro text
  cases text with
  | nil => rfl
  | cons char rest =>
      rw [takeOne]
      split <;> rfl

theorem Splits.takeMarked (splits : Splits tail) : Splits (takeMarked accepts tail) := by
  intro text
  cases text with
  | nil => rfl
  | cons char rest =>
      rw [Diagram.takeMarked]
      split
      · exact congrArg (char :: ·) (splits rest)
      · rfl

theorem Splits.takeBoth (one : Splits first) (other : Splits second) :
    Splits (takeBoth first second) := by
  intro text
  show ((first text).1 ++ (second (first text).2).1) ++ (second (first text).2).2 = text
  rw [List.append_assoc, other, one]

theorem splits_takeDigits : Splits takeDigits :=
  fun _ => List.takeWhile_append_dropWhile

theorem splits_takeUnit : Splits takeUnit := by
  intro text
  unfold takeUnit
  split
  · rfl
  · exact (splits_takeOne _).takeMarked _

theorem splits_takeNumber : Splits takeNumber :=
  (splits_takeOne _).takeBoth <| splits_takeDigits.takeBoth <|
    splits_takeDigits.takeMarked.takeBoth <|
      ((splits_takeOne _).takeBoth splits_takeDigits).takeMarked.takeBoth splits_takeUnit

theorem splits_takeName : Splits takeName := by
  intro text
  cases text with
  | nil => rfl
  | cons char rest =>
      rw [takeName]
      split
      · exact congrArg (char :: ·) List.takeWhile_append_dropWhile
      · rfl

theorem splits_takeGap (inside : Bool) : Splits (takeGap inside) := by
  intro text
  induction text generalizing inside with
  | nil => cases inside <;> rfl
  | cons char rest ih =>
      cases inside with
      | true =>
          rw [takeGap]
          split
          · rfl
          · exact congrArg (char :: ·) (ih true)
      | false =>
          rw [takeGap]
          split
          · exact congrArg (char :: ·) (ih _)
          · rfl

theorem stops_takeWhile {accepts : Char → Bool} (refused : accepts '\n' = false) :
    Stops fun text => (text.takeWhile accepts, text.dropWhile accepts) := by
  intro line behind
  induction line with
  | nil => simp [refused]
  | cons char line ih =>
      simp only [Prod.mk.injEq] at ih
      simp only [List.cons_append, List.takeWhile_cons, List.dropWhile_cons, Prod.mk.injEq]
      split
      · exact ⟨congrArg (char :: ·) ih.1, ih.2⟩
      · exact ⟨rfl, rfl⟩

theorem stops_takeOne (refused : accepts '\n' = false) : Stops (takeOne accepts) := by
  intro line behind
  cases line with
  | nil => simp [takeOne, refused]
  | cons char line =>
      simp only [List.cons_append, takeOne]
      split <;> rfl

theorem Stops.takeMarked (stops : Stops tail) (refused : accepts '\n' = false) :
    Stops (takeMarked accepts tail) := by
  intro line behind
  cases line with
  | nil => simp [Diagram.takeMarked, refused]
  | cons char line =>
      simp only [List.cons_append, Diagram.takeMarked]
      split
      · rw [stops]
      · rfl

theorem Stops.takeBoth (one : Stops first) (other : Stops second) :
    Stops (takeBoth first second) := by
  intro line behind
  simp only [Diagram.takeBoth, one line]
  rw [other]

theorem stops_takeDigits : Stops takeDigits :=
  stops_takeWhile rfl

theorem stops_takeUnit : Stops takeUnit := by
  have marked : Stops (takeMarked isScale (takeOne (· = 's'))) := (stops_takeOne rfl).takeMarked rfl
  intro line behind
  cases line with
  | nil => rfl
  | cons char line =>
      by_cases isSecond : char = 's'
      · subst isSecond
        rfl
      · rw [List.cons_append, takeUnit, takeUnit, ← List.cons_append, marked]
        all_goals simpa using isSecond

theorem stops_takeNumber : Stops takeNumber :=
  (stops_takeOne rfl).takeBoth <| stops_takeDigits.takeBoth <|
    (stops_takeDigits.takeMarked rfl).takeBoth <|
      (((stops_takeOne rfl).takeBoth stops_takeDigits).takeMarked rfl).takeBoth stops_takeUnit

theorem stops_takeName : Stops takeName := by
  have rest : Stops fun text => (text.takeWhile isNameRest, text.dropWhile isNameRest) :=
    stops_takeWhile (by decide)
  intro line behind
  cases line with
  | nil => rfl
  | cons char line =>
      have parts := rest line behind
      simp only [Prod.mk.injEq] at parts
      simp only [List.cons_append, takeName]
      split
      · rw [parts.1, parts.2]
      · rfl

theorem stops_takeGap (inside : Bool) : Stops (takeGap inside) := by
  intro line behind
  induction line generalizing inside with
  | nil => cases inside <;> rfl
  | cons char line ih =>
      cases inside with
      | true =>
          simp only [List.cons_append, takeGap]
          split
          · rfl
          · rw [ih]
      | false =>
          simp only [List.cons_append, takeGap]
          split
          · rw [ih]
          · rfl

end

theorem takeName_ne_nil {char : Char} (starts : isNameStart char) (rest : List Char) :
    (takeName (char :: rest)).1 ≠ [] := by
  simp [takeName, starts]

theorem takeNumber_ne_nil {char : Char} (starts : isSign char || char.isDigit) (rest : List Char) :
    (takeNumber (char :: rest)).1 ≠ [] := by
  by_cases signed : isSign char
  · simp [takeNumber, takeBoth, takeOne, signed]
  · have digit : char.isDigit := by simpa [signed] using starts
    simp [takeNumber, takeBoth, takeOne, takeDigits, signed, digit]

inductive Scanned : List Char → Scan → Prop
  | ends : Scanned [] .ends
  | newline (rest) : Scanned ('\n' :: rest) (.lexeme .newline ['\n'] rest)
  | colon (rest) : Scanned (':' :: rest) (.lexeme .colon [':'] rest)
  | bang (rest) : Scanned ('!' :: rest) (.lexeme .bang ['!'] rest)
  | equals (rest) : Scanned ('=' :: rest) (.lexeme .equals ['='] rest)
  | point (rest) : Scanned ('.' :: rest) (.fault .emptyDirective)
  | directive (rest) :
    Scanned ('.' :: rest) (.lexeme .directive ('.' :: (takeName rest).1) (takeName rest).2)
  | number {char} (rest) (starts : isSign char || char.isDigit) : Scanned (char :: rest)
    (.lexeme .number (takeNumber (char :: rest)).1 (takeNumber (char :: rest)).2)
  | identifier {char} (rest) (starts : isNameStart char) : Scanned (char :: rest)
    (.lexeme .identifier (takeName (char :: rest)).1 (takeName (char :: rest)).2)
  | fault (char rest) : Scanned (char :: rest) (.fault (.unexpectedCharacter char))

theorem isNameStart_of_isAlphabetic {char : Char}
    (letter : Text.isAlphabetic char || decide (char = '_')) : isNameStart char := by
  simp only [Bool.or_eq_true] at letter
  simp only [isNameStart, Bool.or_eq_true]
  exact letter.imp_left Text.isAlphanumeric_of_isAlphabetic

theorem scanned_scan (text : List Char) : Scanned text (scan text) := by
  cases text with
  | nil => exact .ends
  | cons char rest =>
      simp only [scan]
      split
      · exact .newline rest
      · exact .colon rest
      · exact .bang rest
      · exact .equals rest
      · split
        · exact .point rest
        · exact .directive rest
      · split
        next starts => exact .number rest starts
        next =>
          split
          next letter => exact .identifier rest (isNameStart_of_isAlphabetic letter)
          next => exact .fault char rest

theorem scan_lexeme {text lexeme after : List Char} {kind : TokenKind}
    (found : scan text = .lexeme kind lexeme after) : lexeme ≠ [] ∧ lexeme ++ after = text := by
  have scanned := scanned_scan text
  rw [found] at scanned
  cases scanned with
  | number rest starts => exact ⟨takeNumber_ne_nil starts rest, splits_takeNumber _⟩
  | identifier rest starts => exact ⟨takeName_ne_nil starts rest, splits_takeName _⟩
  | directive rest => exact ⟨List.cons_ne_nil _ _, congrArg ('.' :: ·) (splits_takeName rest)⟩
  | _ => exact ⟨List.cons_ne_nil _ _, rfl⟩

theorem scan_kind {text lexeme after : List Char} {kind : TokenKind}
    (found : scan text = .lexeme kind lexeme after) :
    kind ≠ .eof ∧ (kind = .newline → '\n' ∈ text) := by
  have scanned := scanned_scan text
  rw [found] at scanned
  cases scanned with
  | newline rest => exact ⟨by simp, fun _ => List.mem_cons_self⟩
  | _ => exact ⟨by simp, by simp⟩

def Scan.before (behind : List Char) : Scan → Scan
  | ends => .lexeme .newline ['\n'] behind
  | fault cause => .fault cause
  | lexeme kind text rest => .lexeme kind text (rest ++ '\n' :: behind)

theorem scan_before (line behind : List Char) :
    scan (line ++ '\n' :: behind) = (scan line).before behind := by
  cases line with
  | nil => rfl
  | cons char line =>
      have number := stops_takeNumber (char :: line) behind
      have name := stops_takeName (char :: line) behind
      rw [List.cons_append] at number name
      simp only [List.cons_append, scan]
      split
      any_goals rfl
      · rw [stops_takeName]
        dsimp only
        split <;> rfl
      · rw [number, name]
        split
        · rfl
        · split <;> rfl

def tokensAt (position : Position) (text : List Char) : Tokens :=
  tokensFrom (text.length + 1) position text

theorem length_lt_of_scan {text lexeme after : List Char} {kind : TokenKind}
    (found : scan (takeGap false text).2 = .lexeme kind lexeme after) :
    after.length < text.length := by
  obtain ⟨some, parts⟩ := scan_lexeme found
  have one := List.length_pos_iff.mpr some
  have gap := congrArg List.length (splits_takeGap false text)
  rw [← parts, List.length_append, List.length_append] at gap
  omega

theorem tokensFrom_eq {fuel : Nat} {text : List Char} (enough : text.length < fuel)
    (position : Position) : tokensFrom fuel position text = tokensAt position text := by
  have same : ∀ more, text.length < more →
      tokensFrom fuel position text = tokensFrom more position text := by
    induction fuel generalizing position text with
    | zero => omega
    | succ fuel ih =>
        intro more enoughMore
        cases more with
        | zero => omega
        | succ more =>
            rw [tokensFrom, tokensFrom]
            dsimp only
            cases scanned : scan (takeGap false text).2 with
            | ends => rfl
            | fault => rfl
            | lexeme kind lexeme after =>
                have shorter := length_lt_of_scan scanned
                exact congrArg _ (ih (by omega) _ more (by omega))
  exact same _ (Nat.lt_succ_self _)

theorem tokensAt_eq (position : Position) (text : List Char) :
    tokensAt position text =
      let start := position.advance (takeGap false text).1
      match scan (takeGap false text).2 with
      | .ends => .ends start
      | .fault fault => .fails start fault
      | .lexeme kind lexeme after =>
        .next ⟨kind, String.ofList lexeme, start⟩ (tokensAt (start.advance lexeme) after) := by
  rw [tokensAt, tokensFrom]
  dsimp only
  cases scanned : scan (takeGap false text).2 with
  | ends => rfl
  | fault => rfl
  | lexeme kind lexeme after =>
      exact congrArg _ (tokensFrom_eq (length_lt_of_scan scanned) _)

theorem tokenize_eq (text : String) : tokenize text = tokensAt .first text.toList :=
  rfl

theorem tokens_induct {property : List Char → Prop}
    (step : ∀ text, (∀ kind lexeme after,
      scan (takeGap false text).2 = .lexeme kind lexeme after → property after) → property text)
    (text : List Char) : property text := by
  induction length : text.length using Nat.strongRecOn generalizing text with
  | ind length ih =>
      refine step text fun kind lexeme after scanned => ?_
      have shorter := length_lt_of_scan scanned
      exact ih after.length (by omega) after rfl

def Position.down (lines : Nat) (position : Position) : Position :=
  { position with line := position.line + lines }

theorem Position.advance_down (lines : Nat) (position : Position) (text : List Char) :
    (position.down lines).advance text = (position.advance text).down lines := by
  induction text generalizing position with
  | nil => rfl
  | cons char text ih =>
      have one : (position.down lines).next char = (position.next char).down lines := by
        unfold Position.next Position.down
        split
        · simp only [Nat.add_right_comm]
        · rfl
      show ((position.down lines).next char).advance text = _
      rw [one, ih]
      rfl

theorem Position.line_advance {text : List Char} (oneLine : '\n' ∉ text) (position : Position) :
    (position.advance text).line = position.line := by
  induction text generalizing position with
  | nil => rfl
  | cons char text ih =>
      obtain ⟨notNewline, rest⟩ := not_or.mp (mt List.mem_cons.mpr oneLine)
      have one : (position.next char).line = position.line := by
        rw [Position.next, if_neg (Ne.symm notNewline)]
      exact (ih rest (position.next char)).trans one

def Token.down (lines : Nat) (token : Token) : Token :=
  { token with position := token.position.down lines }

section

variable {lines : Nat} {token seen : Token} (same : token.down lines = seen)

include same

theorem kind_of_down : seen.kind = token.kind := by
  rw [← same]
  rfl

theorem text_of_down : seen.text = token.text := by
  rw [← same]
  rfl

theorem line_of_down : seen.position.line = token.position.line + lines := by
  rw [← same]
  rfl

end

namespace Tokens

def down (lines : Nat) : Tokens → Tokens
  | ends position => .ends (position.down lines)
  | fails position fault => .fails (position.down lines) fault
  | next token rest => .next (token.down lines) (rest.down lines)

def followedBy (behind : Option Tokens) : Tokens → Tokens
  | ends position =>
    match behind with
    | some behind => .next ⟨.newline, "\n", position⟩ behind
    | none => .ends position
  | fails position fault => .fails position fault
  | next token rest => .next token (rest.followedBy behind)

def Inline : Tokens → Prop
  | next token rest => token.kind ≠ .newline ∧ token.kind ≠ .eof ∧ rest.Inline
  | _ => True

end Tokens

theorem tokensAt_down (lines : Nat) (position : Position) (text : List Char) :
    tokensAt (position.down lines) text = (tokensAt position text).down lines := by
  induction text using tokens_induct generalizing position with
  | step text ih =>
      rw [tokensAt_eq, tokensAt_eq]
      dsimp only
      rw [Position.advance_down]
      cases scanned : scan (takeGap false text).2 with
      | ends => rfl
      | fault => rfl
      | lexeme kind lexeme after =>
          dsimp only
          rw [Position.advance_down, ih kind lexeme after scanned]
          rfl

theorem newline_notMem_takeGap {line : List Char} (oneLine : '\n' ∉ line) :
    '\n' ∉ (takeGap false line).1 ∧ '\n' ∉ (takeGap false line).2 := by
  have parts := splits_takeGap false line
  exact ⟨fun member => oneLine (parts ▸ List.mem_append_left _ member),
    fun member => oneLine (parts ▸ List.mem_append_right _ member)⟩

theorem inline_tokensAt {line : List Char} (oneLine : '\n' ∉ line) (position : Position) :
    (tokensAt position line).Inline := by
  induction line using tokens_induct generalizing position with
  | step line ih =>
      obtain ⟨_, behindGap⟩ := newline_notMem_takeGap oneLine
      rw [tokensAt_eq]
      cases scanned : scan (takeGap false line).2 with
      | ends => trivial
      | fault => trivial
      | lexeme kind lexeme after =>
          obtain ⟨notEnd, newline⟩ := scan_kind scanned
          have parts := (scan_lexeme scanned).2
          refine ⟨fun same => behindGap (newline same), notEnd, ih kind lexeme after scanned ?_ _⟩
          exact fun member => behindGap (parts ▸ List.mem_append_right _ member)

/-- The tokens of the first line are those that it has alone; a newline parts them from the rest. -/
theorem tokensAt_append {line : List Char} (oneLine : '\n' ∉ line) (position : Position)
    (behind : List Char) : tokensAt position (line ++ '\n' :: behind) =
      (tokensAt position line).followedBy (some (tokensAt ⟨position.line + 1, 1⟩ behind)) := by
  induction line using tokens_induct generalizing position with
  | step line ih =>
      obtain ⟨inGap, behindGap⟩ := newline_notMem_takeGap oneLine
      rw [tokensAt_eq, tokensAt_eq position line, stops_takeGap]
      dsimp only
      rw [scan_before]
      cases scanned : scan (takeGap false line).2 with
      | ends =>
          have next : (position.advance (takeGap false line).1).advance ['\n'] =
              ⟨position.line + 1, 1⟩ := by
            show Position.next _ '\n' = _
            rw [Position.next, if_pos rfl, Position.line_advance inGap]
          dsimp only [Scan.before]
          rw [next]
          rfl
      | fault cause => rfl
      | lexeme kind lexeme after =>
          have parts := (scan_lexeme scanned).2
          have inLexeme : '\n' ∉ lexeme := fun member =>
            behindGap (parts ▸ List.mem_append_left _ member)
          have rest := ih kind lexeme after scanned
            (fun member => behindGap (parts ▸ List.mem_append_right _ member))
            ((position.advance (takeGap false line).1).advance lexeme)
          rw [Position.line_advance inLexeme, Position.line_advance inGap] at rest
          dsimp only [Scan.before]
          rw [rest]
          rfl

end RelayLogic.Diagram
