import RelayLogic.Proofs.Splitting
import Mathlib.Data.List.DropRight
import Mathlib.Logic.Function.Iterate

/-!
Texts told by their tokens. Gaps and tokens in turn make up all of a text that is read, every token
stands where it says, and reading comes to the end or to a fault before there are more tokens than
characters.
-/

namespace RelayLogic

def LexicalFault.char : LexicalFault → Char
  | .emptyDirective => '.'
  | .unexpectedCharacter char => char

namespace Diagram

/-- What may stand before the text `behind`: blanks, and a comment that goes on to the end of its
line. -/
inductive IsGap : List Char → List Char → Prop
  | none {behind} : IsGap [] behind
  | blank {char gap behind} (isSpace : isSpace char) (isGap : IsGap gap behind) :
    IsGap (char :: gap) behind
  | comment {mark body behind} (isMark : isCommentMark mark) (inLine : '\n' ∉ body)
    (lineEnds : behind = [] ∨ behind.head? = some '\n') : IsGap (mark :: body) behind

theorem takeGap_comment (text : List Char) : '\n' ∉ (takeGap true text).1 ∧
    ((takeGap true text).2 = [] ∨ (takeGap true text).2.head? = some '\n') := by
  induction text with
  | nil => simp [takeGap]
  | cons char rest ih =>
      rw [takeGap]
      split
      next newline => simp [newline]
      next other =>
        obtain ⟨inLine, lineEnds⟩ := ih
        exact ⟨List.not_mem_cons_of_ne_of_not_mem (Ne.symm other) inLine, lineEnds⟩

theorem isGap_takeGap (text : List Char) :
    IsGap (takeGap false text).1 (takeGap false text).2 := by
  induction text with
  | nil => exact .none
  | cons char rest ih =>
      rw [takeGap]
      split
      next skipped =>
        by_cases isMark : isCommentMark char
        · obtain ⟨inLine, lineEnds⟩ := takeGap_comment rest
          simp only [isMark]
          exact .comment isMark inLine lineEnds
        · have isBlank : isSpace char := by simpa [isMark] using skipped
          simp only [isMark]
          exact .blank isBlank ih
      next => exact .none

/-- The place behind a text: its newlines are counted, and the characters since the last of them. -/
def Position.behind (before : List Char) : Position :=
  ⟨before.count '\n' + 1, (before.rtakeWhile (· ≠ '\n')).length + 1⟩

theorem Position.next_behind (before : List Char) (char : Char) :
    (Position.behind before).next char = .behind (before ++ [char]) := by
  rw [Position.next, behind, behind, List.count_append, List.rtakeWhile_concat]
  by_cases newline : char = '\n'
  · simp [newline]
  · simp [newline]

theorem Position.advance_behind (before text : List Char) :
    (Position.behind before).advance text = .behind (before ++ text) := by
  induction text generalizing before with
  | nil => rw [List.append_nil]; rfl
  | cons char text ih =>
      have rest := ih (before ++ [char])
      rw [List.append_assoc, List.singleton_append, ← next_behind] at rest
      exact rest

example : Position.first.advance ['A', '\n', '#', '\n', 'O', 'R'] = ⟨3, 3⟩ := by decide

/--
What tokens tell of a text that stands behind what was read before. Each of them stands behind a gap
and makes a piece of the text its own; it, the end and a fault are where the gap before them ends.
-/
inductive Tells : List Char → List Char → Tokens → Prop
  | ends {before gap} (isGap : IsGap gap []) : Tells before gap (.ends (.behind (before ++ gap)))
  | fails {before gap fault rest} (isGap : IsGap gap (fault.char :: rest)) :
    Tells before (gap ++ fault.char :: rest) (.fails (.behind (before ++ gap)) fault)
  | next {before gap lexeme rest kind tokens} (isGap : IsGap gap (lexeme ++ rest))
    (someText : lexeme ≠ []) (tells : Tells (before ++ gap ++ lexeme) rest tokens) :
    Tells before (gap ++ (lexeme ++ rest))
      (.next ⟨kind, String.ofList lexeme, .behind (before ++ gap)⟩ tokens)

theorem scan_fault {text : List Char} {fault : LexicalFault} (found : scan text = .fault fault) :
    ∃ rest, text = fault.char :: rest := by
  have scanned := scanned_scan text
  rw [found] at scanned
  cases scanned with
  | point rest => exact ⟨rest, rfl⟩
  | fault char rest => exact ⟨rest, rfl⟩

theorem scan_ends {text : List Char} (found : scan text = .ends) : text = [] := by
  have scanned := scanned_scan text
  rw [found] at scanned
  cases scanned
  rfl

theorem tells_tokensAt (before text : List Char) :
    Tells before text (tokensAt (.behind before) text) := by
  induction text using tokens_induct generalizing before with
  | step text ih =>
      -- From token to token, what was read before grows by a gap and a lexeme.
      have isGap := isGap_takeGap text
      have parts := splits_takeGap false text
      rw [tokensAt_eq]
      simp only [Position.advance_behind]
      generalize (takeGap false text).1 = gap at isGap parts
      cases scanned : scan (takeGap false text).2 with
      | ends =>
          rw [scan_ends scanned] at isGap parts
          rw [← parts, List.append_nil]
          exact .ends isGap
      | fault fault =>
          obtain ⟨rest, left⟩ := scan_fault scanned
          rw [left] at isGap parts
          rw [← parts]
          exact .fails isGap
      | lexeme kind lexeme after =>
          obtain ⟨someText, left⟩ := scan_lexeme scanned
          have tells := ih kind lexeme after scanned (before ++ gap ++ lexeme)
          rw [← left] at isGap parts
          rw [← parts]
          exact .next isGap someText tells

theorem Tells.length_le {before text : List Char} {tokens : Tokens}
    (tells : Tells before text tokens) : tokens.length ≤ text.length := by
  induction tells with
  | ends => exact Nat.zero_le _
  | fails => exact Nat.zero_le _
  | next _ someText _ ih =>
      have one := List.length_pos_iff.mpr someText
      simp only [Tokens.length, List.length_append]
      omega

def Ended : Except Error Token → Prop
  | .ok token => token.kind = .eof
  | .error _ => True

theorem Tokens.ended_tail (tokens : Tokens) : Ended (tail^[tokens.length] tokens).head := by
  induction tokens with
  | ends => rfl
  | fails => trivial
  | next token rest ih => exact ih

/--
The tokens of a text tell all of it up to its end or its first fault, and no more of them come
before that than the text has characters.
-/
theorem tokenize_tells (text : String) : Tells [] text.toList (tokenize text) ∧
    ∃ earlier ≤ text.length, Ended (Tokens.tail^[earlier] (tokenize text)).head := by
  have tells : Tells [] text.toList (tokenize text) := tells_tokensAt [] text.toList
  have few := tells.length_le
  rw [String.length_toList] at few
  exact ⟨tells, (tokenize text).length, few, (tokenize text).ended_tail⟩

end Diagram

end RelayLogic
