import RelayLogic.Proofs.Declaring
import RelayLogic.Proofs.Heading
import Mathlib.Data.List.Forall2

/-!
A diagram line by line. Each line of a text is read as if it stood alone; the text is refused if
one of them is, and otherwise its diagram has what the lines' statements declare.
-/

namespace RelayLogic.Diagram

def Parse.content : Parse (Option Statement) := do
  let token ← current
  if atLineEnd token.kind then return none
  else
    let read ← statement
    let after ← current
    if atLineEnd after.kind then return some read
    else throw (.statement after.position.line (.trailingToken after.text))

/-- The statements of some lines, the first of which is a given number of lines down. -/
def statementsFrom (offset : Nat) (contents : List (Option Statement)) : List Statement :=
  (contents.zipIdx offset).filterMap fun (content, above) => content.map (Statement.down above)

def Draft.addContent (draft : Draft) : Option Statement → Draft
  | none => draft
  | some read => draft.add read

def Draft.addLines (draft : Draft) (offset : Nat) : List (Option Statement) → Draft
  | [] => draft
  | content :: rest =>
    (draft.addContent (content.map (Statement.down offset))).addLines (offset + 1) rest

/-- Whether a line, taken as a text of its own, is read as a statement or as nothing. -/
def Means (line : String) (content : Option Statement) : Prop :=
  (·.1) <$> Parse.content.run (tokenize line) = .ok content

def linesOf (text : String) : List String :=
  (text.toList.splitOn '\n').map String.ofList

namespace Parse

section

variable {offset : Nat} {line : Tokens}

theorem alike_content (inline : line.Inline) :
    Alike offset (Option.map (Statement.down offset)) content content line := by
  refine alike_current inline (fun own seen ownEnd seenEnd _ _ => ?_)
    fun token seen rest here same inside => ?_
  · rw [if_pos ownEnd, if_pos seenEnd]
    exact alike_pure inline _ rfl
  · have notEnd : ¬ atLineEnd token.kind := by simp [inside]
    rw [kind_of_down same, if_neg notEnd]
    refine (alike_statement inline).bind fun read left inline _ => ?_
    refine alike_current inline (fun own seen ownEnd seenEnd _ _ => ?_)
      fun after seen rest here same inside => ?_
    · rw [if_pos ownEnd, if_pos seenEnd]
      exact alike_pure inline _ rfl
    · have notEnd : ¬ atLineEnd after.kind := by simp [inside]
      rw [kind_of_down same, if_neg notEnd, if_neg notEnd]
      exact alike_throw _ _

theorem content_ok {tokens left : Tokens} {read : Option Statement}
    (done : content tokens = .ok (read, left)) :
    ∃ token, left.head = .ok token ∧ atLineEnd token.kind := by
  obtain ⟨token, head, rest⟩ := of_current_bind done
  by_cases isEnd : atLineEnd token.kind
  · rw [if_pos isEnd] at rest
    cases rest
    exact ⟨token, head, isEnd⟩
  · rw [if_neg isEnd] at rest
    obtain ⟨read, behind, _, checks⟩ := bind_eq_ok rest
    obtain ⟨after, headAfter, returns⟩ := of_current_bind checks
    by_cases isEnd : atLineEnd after.kind
    · rw [if_pos isEnd] at returns
      cases returns
      exact ⟨after, headAfter, isEnd⟩
    · rw [if_neg isEnd] at returns
      contradiction

end

def onward (fuel : Nat) (draft : Draft) : Parse Draft := do
  let token ← current
  if token.kind = .eof then return draft
  else
    advance
    lines fuel draft

theorem lines_ended (fuel : Nat) (draft : Draft) {tokens : Tokens} {token : Token}
    (head : tokens.head = .ok token) (isEnd : token.kind = .eof) :
    lines fuel draft tokens = .ok (draft, tokens) := by
  cases fuel with
  | zero => rfl
  | succ fuel =>
      rw [lines, bind_ok (current_of_head head), if_pos isEnd]
      rfl

theorem endOfLine_lines (fuel : Nat) (draft : Draft) (tokens : Tokens) :
    (endOfLine >>= fun _ => lines fuel draft) tokens =
      (current >>= fun after =>
        if atLineEnd after.kind then onward fuel draft
        else throw (.statement after.position.line (.trailingToken after.text))) tokens := by
  rw [endOfLine, bind_assoc]
  refine current_congr fun after head => ?_
  have found := current_of_head head
  by_cases isEof : after.kind = .eof
  · have isEnd : atLineEnd after.kind := by simp [atLineEnd, isEof]
    have notNewline : after.kind ≠ .newline := by simp [isEof]
    have noFault : ¬ (after.kind != .eof) = true := by simp [isEof]
    rw [if_neg notNewline, if_neg noFault, if_pos isEnd, pure_bind, onward, bind_ok found,
      if_pos isEof]
    exact lines_ended fuel _ head isEof
  · by_cases isNewline : after.kind = .newline
    · have isEnd : atLineEnd after.kind := by simp [atLineEnd, isNewline]
      rw [if_pos isNewline, if_pos isEnd, onward, bind_ok found, if_neg isEof]
    · have notEnd : ¬ atLineEnd after.kind := by simp [atLineEnd, isEof, isNewline]
      have fault : (after.kind != .eof) = true := by simp [isEof]
      rw [if_neg isNewline, if_pos fault, if_neg notEnd]
      rfl

theorem lines_eq (fuel : Nat) (draft : Draft) (tokens : Tokens) :
    lines (fuel + 1) draft tokens =
      (content >>= fun read => onward fuel (draft.addContent read)) tokens := by
  rw [lines, content, bind_assoc]
  refine current_congr fun token head => ?_
  have found := current_of_head head
  by_cases isEof : token.kind = .eof
  · have isEnd : atLineEnd token.kind := by simp [atLineEnd, isEof]
    rw [if_pos isEof, if_pos isEnd, pure_bind, onward, bind_ok found, if_pos isEof]
    rfl
  · by_cases isNewline : token.kind = .newline
    · have isEnd : atLineEnd token.kind := by simp [atLineEnd, isNewline]
      rw [if_neg isEof, if_pos isNewline, if_pos isEnd, pure_bind, onward, bind_ok found,
        if_neg isEof]
      rfl
    · have notEnd : ¬ atLineEnd token.kind := by simp [atLineEnd, isEof, isNewline]
      rw [if_neg isEof, if_neg isNewline, if_neg notEnd, bind_assoc]
      refine bind_congr fun read left _ => ?_
      rw [endOfLine_lines, bind_assoc]
      refine current_congr fun after _ => ?_
      split <;> rfl

theorem onward_newline {fuel : Nat} (round : 0 < fuel) (draft : Draft) {token : Token}
    (newline : token.kind = .newline) (behind : Tokens) :
    onward fuel draft (.next token behind) = lines fuel draft behind := by
  have notEof : token.kind ≠ .eof := by simp [newline]
  have found : current (.next token behind) = .ok (token, .next token behind) :=
    current_of_head rfl
  rw [onward, bind_ok found, if_neg notEof]
  cases head : behind.head with
  | ok next =>
      have moved : advance (.next token behind) = .ok ((), behind) := by
        rw [advance_eq]
        show behind.head.map _ = _
        rw [head]
        rfl
      rw [bind_ok moved]
  | error error =>
      obtain ⟨fuel, rfl⟩ := Nat.exists_eq_succ_of_ne_zero (by omega : fuel ≠ 0)
      have stuck : advance (.next token behind) = .error error := by
        rw [advance_eq]
        show behind.head.map _ = _
        rw [head]
        rfl
      have stuckHere : current behind = .error error := by
        rw [current_eq, head]
        rfl
      rw [bind_error stuck, lines, bind_error stuckHere]

section

variable {line left : Tokens} {read : Option Statement} (inline : line.Inline)
variable (fuel offset : Nat) (draft : Draft)

include inline

/-- A line that can be read alone is read in the text. -/
theorem content_placed (done : content line = .ok (read, left)) (behind : Option Tokens) :
    ∃ position, content (line.placed offset behind) = .ok (read.map (Statement.down offset),
      (Tokens.ends position).placed offset behind) := by
  have alike : Alike offset _ content content line := alike_content inline
  obtain ⟨leftInline, within⟩ := alike.succeeds _ _ done
  obtain ⟨token, head, isEnd⟩ := content_ok done
  cases left with
  | ends position => exact ⟨position, within behind⟩
  | fails position fault => cases head
  | next first rest =>
      obtain ⟨notNewline, notEof, _⟩ := leftInline
      cases head
      simp [atLineEnd, notNewline, notEof] at isEnd

theorem lines_last (done : content line = .ok (read, left)) :
    ∃ rest, lines (fuel + 1) draft (line.placed offset none) =
      .ok (draft.addContent (read.map (Statement.down offset)), rest) := by
  obtain ⟨position, placed⟩ := content_placed inline offset done none
  refine ⟨.ends (position.down offset), ?_⟩
  rw [lines_eq, bind_ok placed]
  rfl

theorem lines_next (done : content line = .ok (read, left)) (round : 0 < fuel) (behind : Tokens) :
    lines (fuel + 1) draft (line.placed offset (some behind)) =
      lines fuel (draft.addContent (read.map (Statement.down offset))) behind := by
  obtain ⟨position, placed⟩ := content_placed inline offset done (some behind)
  rw [lines_eq, bind_ok placed]
  exact onward_newline round _ rfl behind

theorem fault?_of_content (done : content line = .ok (read, left)) : line.fault? = none := by
  by_contra faulty
  obtain ⟨position, alone⟩ := content_placed inline 0 done none
  obtain ⟨other, within⟩ := content_placed inline 0 done (some (.ends .first))
  rw [Tokens.placed_of_fault 0 _ none faulty, alone] at within
  injection within with same
  injection same with _ rest
  contradiction

theorem content_of_lines {behind : Option Tokens} {result : Draft × Tokens}
    (done : lines (fuel + 1) draft (line.placed offset behind) = .ok result) :
    ∃ own, content line = .ok own := by
  rw [lines_eq] at done
  obtain ⟨_, _, within, _⟩ := bind_eq_ok done
  exact (alike_content inline).only behind _ within

end

end Parse

theorem lines_induct {property : List Char → Prop}
    (last : ∀ line, '\n' ∉ line → property line)
    (more : ∀ line behind, '\n' ∉ line → property behind → property (line ++ '\n' :: behind))
    (text : List Char) : property text := by
  induction length : text.length using Nat.strongRecOn generalizing text with
  | ind length ih =>
      by_cases newline : '\n' ∈ text
      · obtain ⟨line, behind, rfl, oneLine⟩ := List.eq_append_cons_of_mem newline
        rw [List.length_append, List.length_cons] at length
        exact more line behind oneLine (ih behind.length (by omega) behind rfl)
      · exact last text newline

theorem linesOf_of_notMem {line : List Char} (oneLine : '\n' ∉ line) :
    linesOf (String.ofList line) = [String.ofList line] := by
  rw [linesOf, String.toList_ofList, List.splitOn_eq_singleton oneLine]
  rfl

theorem linesOf_append {line : List Char} (oneLine : '\n' ∉ line) (behind : List Char) :
    linesOf (String.ofList (line ++ '\n' :: behind)) =
      String.ofList line :: linesOf (String.ofList behind) := by
  rw [linesOf, linesOf, String.toList_ofList, String.toList_ofList,
    List.splitOn_append_cons_self_of_not_mem oneLine]
  rfl

theorem means_iff {line : List Char} {read : Option Statement} :
    Means (String.ofList line) read ↔
      ∃ left, Parse.content (tokensAt .first line) = .ok (read, left) := by
  rw [Means, tokenize_eq, String.toList_ofList]
  show (·.1) <$> Parse.content (tokensAt .first line) = _ ↔ _
  cases Parse.content (tokensAt .first line) with
  | error error => exact ⟨nofun, nofun⟩
  | ok pair =>
      constructor
      · intro same
        cases same
        exact ⟨_, rfl⟩
      · rintro ⟨left, same⟩
        cases same
        rfl

theorem tokensAt_line (offset : Nat) (line : List Char) :
    tokensAt ⟨offset + 1, 1⟩ line = (tokensAt .first line).down offset := by
  rw [← tokensAt_down]
  show _ = tokensAt ⟨1 + offset, 1⟩ line
  rw [Nat.add_comm]

theorem means_of_content {line : List Char}
    (done : ∃ own, Parse.content (tokensAt .first line) = .ok own) :
    ∃ read, Means (String.ofList line) read :=
  let ⟨own, found⟩ := done
  ⟨own.1, means_iff.mpr ⟨own.2, found⟩⟩

theorem tokensAt_lines {line : List Char} (oneLine : '\n' ∉ line) (offset : Nat)
    (behind : List Char) : tokensAt ⟨offset + 1, 1⟩ (line ++ '\n' :: behind) =
      (tokensAt .first line).placed offset (some (tokensAt ⟨offset + 1 + 1, 1⟩ behind)) := by
  rw [tokensAt_append oneLine, tokensAt_line offset line]
  rfl

theorem lines_reads (text : List Char) (offset fuel : Nat) (draft : Draft)
    (enough : (tokensAt ⟨offset + 1, 1⟩ text).length < fuel) :
    (∀ reads, List.Forall₂ Means (linesOf (String.ofList text)) reads →
      ∃ left, Parse.lines fuel draft (tokensAt ⟨offset + 1, 1⟩ text) =
        .ok (draft.addLines offset reads, left)) ∧
    ∀ result, Parse.lines fuel draft (tokensAt ⟨offset + 1, 1⟩ text) = .ok result →
      ∃ reads, List.Forall₂ Means (linesOf (String.ofList text)) reads := by
  induction text using lines_induct generalizing offset fuel draft with
  | last line oneLine =>
      obtain ⟨fuel, rfl⟩ := Nat.exists_eq_succ_of_ne_zero (by omega : fuel ≠ 0)
      have inline := inline_tokensAt oneLine .first
      have tokens : tokensAt ⟨offset + 1, 1⟩ line = (tokensAt .first line).placed offset none := by
        rw [tokensAt_line, Tokens.placed, Tokens.followedBy_none]
      rw [linesOf_of_notMem oneLine, tokens]
      constructor
      · intro reads means
        obtain ⟨read, rest, first, none, rfl⟩ := List.forall₂_cons_left_iff.mp means
        obtain rfl := List.forall₂_nil_left_iff.mp none
        obtain ⟨left, done⟩ := means_iff.mp first
        exact Parse.lines_last inline fuel offset draft done
      · intro result done
        have own := Parse.content_of_lines inline fuel offset draft done
        obtain ⟨read, means⟩ := means_of_content own
        exact ⟨[read], .cons means .nil⟩
  | more line behind oneLine ih =>
      obtain ⟨fuel, rfl⟩ := Nat.exists_eq_succ_of_ne_zero (by omega : fuel ≠ 0)
      have inline := inline_tokensAt oneLine .first
      rw [tokensAt_lines oneLine] at enough ⊢
      rw [linesOf_append oneLine]
      have short : ∀ {read left}, Parse.content (tokensAt .first line) = .ok (read, left) →
          (tokensAt ⟨offset + 1 + 1, 1⟩ behind).length < fuel := by
        intro read left done
        rw [Tokens.length_placed _ _ (Parse.fault?_of_content inline done)] at enough
        omega
      constructor
      · intro reads means
        obtain ⟨read, rest, first, others, rfl⟩ := List.forall₂_cons_left_iff.mp means
        obtain ⟨left, done⟩ := means_iff.mp first
        rw [Parse.lines_next inline fuel offset draft done (by have := short done; omega)]
        exact (ih _ fuel _ (short done)).1 rest others
      · intro result done
        obtain ⟨⟨read, left⟩, own⟩ := Parse.content_of_lines inline fuel offset draft done
        rw [Parse.lines_next inline fuel offset draft own (by have := short own; omega)] at done
        obtain ⟨rest, others⟩ := (ih _ fuel _ (short own)).2 result done
        exact ⟨read :: rest, .cons (means_iff.mpr ⟨left, own⟩) others⟩

theorem parse_eq (text : String) :
    parse text = Parse.lines ((tokenize text).length + 1) .empty (tokenize text) >>=
      fun result => .ok result.1.diagram :=
  rfl

theorem parse_of_means {text : String} {reads : List (Option Statement)}
    (means : List.Forall₂ Means (linesOf text) reads) :
    parse text = .ok (Draft.empty.addLines 0 reads).diagram := by
  obtain ⟨all, _⟩ := lines_reads text.toList 0 _ .empty (Nat.lt_succ_self _)
  rw [String.ofList_toList] at all
  obtain ⟨left, done⟩ := all reads means
  replace done : Parse.lines ((tokenize text).length + 1) .empty (tokenize text) =
    .ok (Draft.empty.addLines 0 reads, left) := done
  rw [parse_eq, done]
  rfl

theorem exists_means_of_parse {text : String} {diagram : Diagram}
    (done : parse text = .ok diagram) : ∃ reads, List.Forall₂ Means (linesOf text) reads := by
  obtain ⟨_, only⟩ := lines_reads text.toList 0 _ .empty (Nat.lt_succ_self _)
  rw [String.ofList_toList] at only
  cases found : Parse.lines ((tokenize text).length + 1) .empty (tokenize text) with
  | error error =>
      rw [parse_eq, found] at done
      contradiction
  | ok result => exact only result found

theorem parse_eq_ok_iff (text : String) (diagram : Diagram) :
    parse text = .ok diagram ↔ ∃ reads, List.Forall₂ Means (linesOf text) reads ∧
      diagram = (Draft.empty.addLines 0 reads).diagram := by
  constructor
  · intro done
    obtain ⟨reads, means⟩ := exists_means_of_parse done
    rw [parse_of_means means] at done
    cases done
    exact ⟨reads, means, rfl⟩
  · rintro ⟨reads, means, rfl⟩
    exact parse_of_means means

theorem exists_of_mem_linesOf {text line : String} (member : line ∈ linesOf text) :
    ∃ chars : List Char, '\n' ∉ chars ∧ line = String.ofList chars := by
  have all : ∀ text : List Char, ∀ line ∈ linesOf (String.ofList text),
      ∃ chars : List Char, '\n' ∉ chars ∧ line = String.ofList chars := by
    intro text
    induction text using lines_induct with
    | last chars oneLine =>
        rw [linesOf_of_notMem oneLine]
        intro other same
        exact ⟨chars, oneLine, List.mem_singleton.mp same⟩
    | more chars behind oneLine ih =>
        rw [linesOf_append oneLine]
        intro other member
        obtain rfl | member := List.mem_cons.mp member
        · exact ⟨chars, oneLine, rfl⟩
        · exact ih other member
  exact all text.toList line (by rwa [String.ofList_toList])

theorem linesOf_line {text line : String} (member : line ∈ linesOf text) :
    linesOf line = [line] := by
  obtain ⟨chars, oneLine, rfl⟩ := exists_of_mem_linesOf member
  exact linesOf_of_notMem oneLine

theorem parse_line_iff {text line : String} (member : line ∈ linesOf text) :
    (∃ diagram, parse line = .ok diagram) ↔ ∃ content, Means line content := by
  constructor
  · rintro ⟨diagram, done⟩
    obtain ⟨contents, means⟩ := exists_means_of_parse done
    rw [linesOf_line member] at means
    obtain ⟨content, _, first, _⟩ := List.forall₂_cons_left_iff.mp means
    exact ⟨content, first⟩
  · rintro ⟨content, means⟩
    have alone : List.Forall₂ Means (linesOf line) [content] := by
      rw [linesOf_line member]
      exact .cons means .nil
    exact ⟨_, parse_of_means alone⟩

theorem exists_means_iff (lines : List String) :
    (∃ contents, List.Forall₂ Means lines contents) ↔
      ∀ line ∈ lines, ∃ content, Means line content := by
  induction lines with
  | nil => exact ⟨fun _ _ => nofun, fun _ => ⟨[], .nil⟩⟩
  | cons line rest ih =>
      rw [List.forall_mem_cons, ← ih]
      constructor
      · rintro ⟨contents, means⟩
        obtain ⟨content, others, first, rest, _⟩ := List.forall₂_cons_left_iff.mp means
        exact ⟨⟨content, first⟩, others, rest⟩
      · rintro ⟨⟨content, first⟩, others, rest⟩
        exact ⟨content :: others, .cons first rest⟩

theorem addLines_eq (draft : Draft) (offset : Nat) (contents : List (Option Statement)) :
    draft.addLines offset contents = (statementsFrom offset contents).foldl Draft.add draft := by
  induction contents generalizing draft offset with
  | nil => rfl
  | cons content rest ih =>
      rw [Draft.addLines, ih]
      cases content <;> rfl

theorem parse_eq_ok_iff_declares (text : String) (diagram : Diagram) :
    parse text = .ok diagram ↔ ∃ contents, List.Forall₂ Means (linesOf text) contents ∧
      Declares (statementsFrom 0 contents) diagram := by
  rw [parse_eq_ok_iff]
  refine exists_congr fun contents => and_congr_right fun _ => ?_
  obtain ⟨declares, _⟩ := declares_foldl (statementsFrom 0 contents)
  rw [addLines_eq]
  exact ⟨fun same => same ▸ declares, fun declared => declared.unique declares⟩

theorem headedBy_of_means {line : List Char} (oneLine : '\n' ∉ line) {content : Option Statement}
    (means : Means (String.ofList line) content) :
    HeadedBy (tokenize (String.ofList line)) content := by
  obtain ⟨left, done⟩ := means_iff.mp means
  rw [tokenize_eq, String.toList_ofList]
  have inline := inline_tokensAt oneLine .first
  generalize tokensAt .first line = tokens at done inline
  obtain ⟨token, head, rest⟩ := Parse.of_current_bind done
  by_cases isEnd : Parse.atLineEnd token.kind
  · rw [if_pos isEnd] at rest
    cases rest
    cases left with
    | ends position => exact ⟨position, rfl⟩
    | fails => cases head
    | next first behind =>
        obtain ⟨notNewline, notEof, _⟩ := inline
        cases head
        simp [Parse.atLineEnd, notNewline, notEof] at isEnd
  · rw [if_neg isEnd] at rest
    obtain ⟨read, behind, stated, checks⟩ := Parse.bind_eq_ok rest
    obtain ⟨after, _, returns⟩ := Parse.of_current_bind checks
    by_cases ended : Parse.atLineEnd after.kind
    · rw [if_pos ended] at returns
      cases returns
      exact Parse.statement_headed stated
    · rw [if_neg ended] at returns
      contradiction

/-- A text is a diagram just if each of its lines is one, and it then has what the lines' statements
declare, each as it is read by itself, with their numbers counted on. -/
theorem parse_lines (text : String) :
    ((∃ diagram, parse text = .ok diagram) ↔
      ∀ line ∈ linesOf text, ∃ diagram, parse line = .ok diagram) ∧
    (∀ diagram, parse text = .ok diagram ↔
      ∃ contents, List.Forall₂ Means (linesOf text) contents ∧
        Declares (statementsFrom 0 contents) diagram) ∧
    ∀ line ∈ linesOf text, ∀ content, Means line content → HeadedBy (tokenize line) content := by
  refine ⟨?_, parse_eq_ok_iff_declares text, ?_⟩
  · calc (∃ diagram, parse text = .ok diagram)
        ↔ ∃ contents, List.Forall₂ Means (linesOf text) contents := by
          exact ⟨fun ⟨_, done⟩ => exists_means_of_parse done,
            fun ⟨_, means⟩ => ⟨_, parse_of_means means⟩⟩
      _ ↔ ∀ line ∈ linesOf text, ∃ content, Means line content := exists_means_iff _
      _ ↔ ∀ line ∈ linesOf text, ∃ diagram, parse line = .ok diagram :=
          forall₂_congr fun line member => (parse_line_iff member).symm
  · intro line member content means
    obtain ⟨chars, oneLine, rfl⟩ := exists_of_mem_linesOf member
    exact headedBy_of_means oneLine means

def plant : String :=
  ".solution Plant\nPIN J1\n.project Line\n.context Aux ; spare\n\nWIRE J1 J2\n.tag Start true"

theorem parse_plant : ∃ diagram contents, parse plant = .ok diagram ∧
    List.Forall₂ Means (linesOf plant) contents ∧ Declares (statementsFrom 0 contents) diagram ∧
    diagram.solution = some "Plant" ∧ diagram.tags = [⟨"Start", .true, [], 7⟩] ∧
    (diagram.contexts.map fun context => (context.project, context.name, context.line)) =
      [("Main", "Main", 2), ("Line", "Aux", 4)] ∧
    (diagram.contexts.map fun context => (context.blocks.map (·.name), context.wires.map (·.line))) =
      [(["J1"], []), ([], [6])] := by
  have heads : (parse plant).toOption.map (fun diagram => (diagram.solution, diagram.tags,
      diagram.contexts.map fun context => (context.project, context.name, context.line))) =
      some (some "Plant", [⟨"Start", .true, [], 7⟩], [("Main", "Main", 2), ("Line", "Aux", 4)]) := by
    decide +kernel
  have inside : (parse plant).toOption.map (fun diagram => diagram.contexts.map fun context =>
      (context.blocks.map (·.name), context.wires.map (·.line))) =
      some [(["J1"], []), ([], [6])] := by
    decide +kernel
  cases done : parse plant with
  | error error => simp [done, Except.toOption] at heads
  | ok diagram =>
      rw [done] at heads inside
      obtain ⟨solution, tags, contexts⟩ : _ ∧ _ ∧ _ := by simpa [Except.toOption] using heads
      obtain ⟨contents, means, declares⟩ := ((parse_lines plant).2.1 diagram).mp done
      exact ⟨diagram, contents, rfl, means, declares, solution, tags, contexts,
        Option.some.inj inside⟩

end RelayLogic.Diagram
