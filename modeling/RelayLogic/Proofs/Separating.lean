import RelayLogic.Diagram.Parser
import RelayLogic.Proofs.Splitting

/-!
Lines of a diagram's text, each of which means by itself what it means among the others. A reader of
one statement never goes on past the end of the line, whatever stands there, so what it makes of a
line does not depend on the lines before and behind it.
-/

namespace RelayLogic.Diagram

def TagDecl.down (lines : Nat) (decl : TagDecl) : TagDecl :=
  { decl with line := decl.line + lines }

def BlockDecl.down (lines : Nat) (decl : BlockDecl) : BlockDecl :=
  { decl with line := decl.line + lines }

def WireDecl.down (lines : Nat) (decl : WireDecl) : WireDecl :=
  { decl with line := decl.line + lines }

def Statement.down (lines : Nat) : Statement → Statement
  | solution name => .solution name
  | project name => .project name
  | context name line => .context name (line + lines)
  | tag decl => .tag (decl.down lines)
  | block decl => .block (decl.down lines)
  | wire decl => .wire (decl.down lines)

namespace Tokens

/-- The tokens of a line some lines further down, with those of the next lines behind them. -/
def placed (offset : Nat) (behind : Option Tokens) (line : Tokens) : Tokens :=
  (line.down offset).followedBy behind

theorem length_le_placed (offset : Nat) (behind : Option Tokens) (line : Tokens) :
    line.length ≤ (line.placed offset behind).length := by
  induction line with
  | ends => exact Nat.zero_le _
  | fails => exact Nat.zero_le _
  | next token rest ih => exact Nat.succ_le_succ ih

theorem followedBy_none (tokens : Tokens) : tokens.followedBy none = tokens := by
  induction tokens with
  | next token rest ih => exact congrArg _ ih
  | _ => rfl

theorem length_placed {line : Tokens} (offset : Nat) (behind : Tokens)
    (faultless : line.fault? = none) :
    (line.placed offset (some behind)).length = line.length + behind.length + 1 := by
  induction line with
  | ends position => exact congrArg (· + 1) (Nat.zero_add _).symm
  | fails position fault => contradiction
  | next token rest ih =>
      show (rest.placed offset (some behind)).length + 1 = rest.length + 1 + behind.length + 1
      rw [ih faultless]
      omega

theorem placed_of_fault {line : Tokens} (offset : Nat) (behind other : Option Tokens)
    (faulty : line.fault? ≠ none) : line.placed offset behind = line.placed offset other := by
  induction line with
  | ends position => contradiction
  | fails position fault => rfl
  | next token rest ih => exact congrArg _ (ih faulty)

theorem length_tail_le (tokens : Tokens) : tokens.tail.length ≤ tokens.length := by
  cases tokens with
  | next token rest => exact Nat.le_succ _
  | _ => exact Nat.le_refl _

theorem length_tail_lt {tokens : Tokens} {token : Token} (head : tokens.head = .ok token)
    (notEnd : ¬ Parse.atLineEnd token.kind) : tokens.tail.length < tokens.length := by
  cases tokens with
  | ends position =>
      cases head
      exact absurd rfl notEnd
  | fails position fault => contradiction
  | next token rest => exact Nat.lt_succ_self _

end Tokens

namespace Parse

theorem bind_congr {first : Parse α} {one other : α → Parse β} {tokens : Tokens}
    (same : ∀ answer left, first tokens = .ok (answer, left) →
      one answer left = other answer left) :
    (first >>= one) tokens = (first >>= other) tokens := by
  show first tokens >>= _ = first tokens >>= _
  cases result : first tokens with
  | error error => rfl
  | ok pair => exact same pair.1 pair.2 result

theorem bind_ok {first : Parse α} {next : α → Parse β} {tokens left : Tokens} {answer : α}
    (done : first tokens = .ok (answer, left)) : (first >>= next) tokens = next answer left := by
  show first tokens >>= _ = _
  rw [done]
  rfl

theorem bind_error {first : Parse α} {tokens : Tokens} {error : Error}
    (failed : first tokens = .error error) (next : α → Parse β) :
    (first >>= next) tokens = .error error := by
  show first tokens >>= _ = _
  rw [failed]
  rfl

theorem bind_eq_ok {first : Parse α} {next : α → Parse β} {tokens : Tokens} {result : β × Tokens}
    (done : (first >>= next) tokens = .ok result) :
    ∃ answer left, first tokens = .ok (answer, left) ∧ next answer left = .ok result := by
  cases found : first tokens with
  | error error =>
      rw [bind_error found] at done
      contradiction
  | ok pair =>
      obtain ⟨answer, left⟩ := pair
      rw [bind_ok found] at done
      exact ⟨answer, left, rfl, done⟩

theorem current_eq (tokens : Tokens) : current tokens = tokens.head.map (·, tokens) := by
  show (tokens.head >>= fun token => pure (token, tokens)) = _
  cases tokens.head <;> rfl

theorem advance_eq (tokens : Tokens) :
    advance tokens = tokens.tail.head.map fun _ => ((), tokens.tail) := by
  show (current tokens.tail >>= fun pair => pure ((), pair.2)) = _
  rw [current_eq]
  cases tokens.tail.head <;> rfl

theorem current_ok {tokens left : Tokens} {token : Token}
    (done : current tokens = .ok (token, left)) : tokens.head = .ok token ∧ left = tokens := by
  rw [current_eq] at done
  cases head : tokens.head with
  | error error =>
      rw [head] at done
      contradiction
  | ok found =>
      rw [head] at done
      cases done
      exact ⟨rfl, rfl⟩

theorem current_of_head {tokens : Tokens} {token : Token} (head : tokens.head = .ok token) :
    current tokens = .ok (token, tokens) := by
  rw [current_eq, head]
  rfl

theorem advance_ok {tokens left : Tokens} {answer : Unit}
    (done : advance tokens = .ok (answer, left)) : left = tokens.tail := by
  rw [advance_eq] at done
  cases head : tokens.tail.head with
  | error error =>
      rw [head] at done
      contradiction
  | ok found =>
      rw [head] at done
      cases done
      rfl

theorem of_current_bind {next : Token → Parse α} {tokens : Tokens} {result : α × Tokens}
    (done : (current >>= next) tokens = .ok result) :
    ∃ token, tokens.head = .ok token ∧ next token tokens = .ok result := by
  obtain ⟨token, left, found, onward⟩ := bind_eq_ok done
  obtain ⟨head, rfl⟩ := current_ok found
  exact ⟨token, head, onward⟩

theorem of_advance_bind {next : Unit → Parse α} {tokens : Tokens} {result : α × Tokens}
    (done : (advance >>= next) tokens = .ok result) : next () tokens.tail = .ok result := by
  obtain ⟨_, left, moved, onward⟩ := bind_eq_ok done
  obtain rfl := advance_ok moved
  exact onward

theorem current_congr {one other : Token → Parse α} {tokens : Tokens}
    (same : ∀ token, tokens.head = .ok token → one token tokens = other token tokens) :
    (current >>= one) tokens = (current >>= other) tokens := by
  refine bind_congr fun token left done => ?_
  obtain ⟨head, rfl⟩ := current_ok done
  exact same token head

theorem advance_congr {one other : Unit → Parse α} {tokens : Tokens}
    (same : one () tokens.tail = other () tokens.tail) :
    (advance >>= one) tokens = (advance >>= other) tokens := by
  refine bind_congr fun _ left done => ?_
  obtain rfl := advance_ok done
  exact same

def Refuses (reader : Parse α) : Prop :=
  ∀ tokens result, reader tokens ≠ .ok result

theorem refuses_throw (error : Error) : Refuses (throw error : Parse α) :=
  fun _ _ => nofun

theorem Refuses.bind {first : Parse α} (refuses : Refuses first) (next : α → Parse β) :
    Refuses (first >>= next) := by
  intro tokens result done
  obtain ⟨_, _, firstDone, _⟩ := bind_eq_ok done
  exact refuses _ _ firstDone

theorem refuses_bind {next : α → Parse β} (refuses : ∀ answer, Refuses (next answer))
    (first : Parse α) : Refuses (first >>= next) := by
  intro tokens result done
  obtain ⟨_, _, _, nextDone⟩ := bind_eq_ok done
  exact refuses _ _ _ nextDone

/-- Whether reading a line by itself and reading it in a text, some lines further down, succeed
alike and with the same result, up to the lines' numbers. -/
structure Alike (offset : Nat) (view : α → β) (alone : Parse α) (within : Parse β)
    (line : Tokens) : Prop where
  succeeds : ∀ answer left, alone line = .ok (answer, left) → left.Inline ∧
    ∀ behind, within (line.placed offset behind) = .ok (view answer, left.placed offset behind)
  only : ∀ behind result, within (line.placed offset behind) = .ok result →
    ∃ own, alone line = .ok own

section

variable {offset : Nat} {line : Tokens}

theorem alike_pure (inline : line.Inline) {view : α → β} (answer : α) {seen : β}
    (same : view answer = seen) : Alike offset view (pure answer) (pure seen) line where
  succeeds _ _ done := by
    cases done
    subst same
    exact ⟨inline, fun _ => rfl⟩
  only _ _ _ := ⟨_, rfl⟩

theorem alike_of_refuses {alone : Parse α} {within : Parse β} {view : α → β}
    (one : Refuses alone) (other : Refuses within) : Alike offset view alone within line where
  succeeds _ _ done := absurd done (one _ _)
  only _ _ done := absurd done (other _ _)

theorem alike_throw {view : α → β} (one other : Error) :
    Alike offset view (throw one) (throw other) line :=
  alike_of_refuses (refuses_throw one) (refuses_throw other)

theorem alike_value {view : α → β} (read : Option Tri) {next : Tri → Parse α}
    {next' : Tri → Parse β}
    (alike : ∀ value, Alike offset view (next value) (next' value) line) (one other : Error) :
    Alike offset view
      (match read with
        | some value => next value
        | none => throw one)
      (match read with
        | some value => next' value
        | none => throw other) line := by
  cases read with
  | none => exact alike_throw one other
  | some value => exact alike value

theorem Alike.bind {first : Parse α} {first' : Parse γ} {next : α → Parse β} {next' : γ → Parse δ}
    {view : α → γ} {later : β → δ} (alike : Alike offset view first first' line)
    (onward : ∀ answer left, left.Inline → first line = .ok (answer, left) →
      Alike offset later (next answer) (next' (view answer)) left) :
    Alike offset later (first >>= next) (first' >>= next') line where
  succeeds answer left done := by
    obtain ⟨middle, between, firstDone, rest⟩ := bind_eq_ok done
    obtain ⟨inline, within⟩ := alike.succeeds middle between firstDone
    obtain ⟨leftInline, withinLater⟩ := (onward middle between inline firstDone).succeeds _ _ rest
    exact ⟨leftInline, fun behind => by rw [bind_ok (within behind), withinLater]⟩
  only behind result done := by
    obtain ⟨_, _, firstDone, rest⟩ := bind_eq_ok done
    obtain ⟨⟨middle, between⟩, own⟩ := alike.only behind _ firstDone
    obtain ⟨inline, within⟩ := alike.succeeds middle between own
    rw [within behind] at firstDone
    cases firstDone
    obtain ⟨last, ownLast⟩ := (onward middle between inline own).only behind _ rest
    exact ⟨last, by rw [bind_ok own, ownLast]⟩

theorem alike_here {next : Token → Parse α} {next' : Token → Parse β} {view : α → β}
    {token : Token} {rest : Tokens} (here : line = .next token rest)
    (onward : ∀ seen, token.down offset = seen → Alike offset view (next token) (next' seen) line) :
    Alike offset view (current >>= next) (current >>= next') line := by
  subst here
  exact ⟨(onward _ rfl).succeeds, (onward _ rfl).only⟩

theorem alike_current {next : Token → Parse α} {next' : Token → Parse β} {view : α → β}
    (inline : line.Inline)
    (atEnd : ∀ own seen, atLineEnd own.kind → atLineEnd seen.kind → own.text ∈ ["", "\n"] →
      seen.text ∈ ["", "\n"] → Alike offset view (next own) (next' seen) line)
    (inside : ∀ token seen rest, line = .next token rest → token.down offset = seen →
      atLineEnd token.kind = false → Alike offset view (next token) (next' seen) line) :
    Alike offset view (current >>= next) (current >>= next') line := by
  cases line with
  | fails position fault =>
      constructor
      · intro _ _ done
        obtain ⟨_, _, failed, _⟩ := bind_eq_ok done
        rw [current_eq] at failed
        contradiction
      · intro behind _ done
        obtain ⟨_, _, failed, _⟩ := bind_eq_ok done
        rw [current_eq] at failed
        contradiction
  | next token rest =>
      have kinds : atLineEnd token.kind = false := by
        obtain ⟨notNewline, notEnd, _⟩ := inline
        simp [atLineEnd, notNewline, notEnd]
      exact alike_here rfl fun seen same => inside token seen rest rfl same kinds
  | ends position =>
      have own : (current >>= next) (.ends position) =
          next ⟨.eof, "", position⟩ (.ends position) := rfl
      have seen : ∀ behind, ∃ token, atLineEnd token.kind ∧ token.text ∈ ["", "\n"] ∧
          (current >>= next') (Tokens.placed offset behind (.ends position)) =
            next' token (Tokens.placed offset behind (.ends position)) := by
        intro behind
        cases behind with
        | none => exact ⟨⟨.eof, "", position.down offset⟩, rfl, by simp, rfl⟩
        | some behind => exact ⟨⟨.newline, "\n", position.down offset⟩, rfl, by simp, rfl⟩
      constructor
      · intro answer left done
        rw [own] at done
        have alike := fun token kind text =>
          (atEnd ⟨.eof, "", position⟩ token rfl kind (by simp) text).succeeds answer left done
        refine ⟨(alike ⟨.eof, "", position⟩ rfl (by simp)).1, fun behind => ?_⟩
        obtain ⟨token, kind, text, same⟩ := seen behind
        rw [same]
        exact (alike token kind text).2 behind
      · intro behind result done
        obtain ⟨token, kind, text, same⟩ := seen behind
        rw [same] at done
        rw [own]
        exact (atEnd ⟨.eof, "", position⟩ token rfl kind (by simp) text).only behind result done

theorem alike_advance {token : Token} {rest : Tokens} (inline : line.Inline)
    (here : line = .next token rest) : Alike offset id advance advance line := by
  subst here
  obtain ⟨_, _, restInline⟩ := inline
  have own : advance (.next token rest) = rest.head.map fun _ => ((), rest) := advance_eq _
  have seen : ∀ behind, advance (Tokens.placed offset behind (.next token rest)) =
      (rest.placed offset behind).head.map fun _ => ((), rest.placed offset behind) :=
    fun behind => advance_eq _
  constructor
  · intro answer left done
    have last : left = rest := advance_ok done
    rw [own] at done
    rw [last]
    refine ⟨restInline, fun behind => ?_⟩
    rw [seen]
    cases rest with
    | ends position => cases behind <;> rfl
    | fails position fault => contradiction
    | next token rest => rfl
  · intro behind result done
    rw [seen] at done
    rw [own]
    cases rest with
    | ends position => exact ⟨_, rfl⟩
    | fails position fault => contradiction
    | next token rest => exact ⟨_, rfl⟩

theorem alike_measured {body : Nat → Parse α} {body' : Nat → Parse β} {view : α → β}
    (alike : ∀ fuel, Alike offset view (body fuel) (body' fuel) line)
    (enough : ∀ fuel, line.length < fuel → body fuel line = body (line.length + 1) line) :
    Alike offset view (get >>= fun tokens => body (tokens.length + 1))
      (get >>= fun tokens => body' (tokens.length + 1)) line := by
  have same : ∀ behind, body (line.length + 1) line =
      body ((line.placed offset behind).length + 1) line := by
    intro behind
    have le := line.length_le_placed offset behind
    exact (enough _ (by omega)).symm
  constructor
  · intro answer left done
    replace done : body (line.length + 1) line = .ok (answer, left) := done
    refine ⟨((alike _).succeeds answer left done).1, fun behind => ?_⟩
    rw [same behind] at done
    exact ((alike _).succeeds answer left done).2 behind
  · intro behind result done
    obtain ⟨own, ownDone⟩ := (alike _).only behind result done
    rw [← same behind] at ownDone
    exact ⟨own, ownDone⟩

theorem ne_of_atLineEnd {kind other : TokenKind} (isEnd : atLineEnd kind)
    (notEnd : atLineEnd other = false) : kind ≠ other := by
  rintro rfl
  rw [notEnd] at isEnd
  contradiction

theorem isWord_of_atLineEnd {kind : TokenKind} (isEnd : atLineEnd kind) : isWord kind = false := by
  cases kind with
  | newline => rfl
  | eof => rfl
  | _ => contradiction

theorem alike_expect (inline : line.Inline) {kind : TokenKind} (notEnd : atLineEnd kind = false) :
    Alike offset (Token.down offset) (expect kind) (expect kind) line := by
  refine alike_current inline (fun own seen ownEnd seenEnd _ _ => ?_)
    fun token seen rest here same _ => ?_
  · rw [if_neg (ne_of_atLineEnd ownEnd notEnd), if_neg (ne_of_atLineEnd seenEnd notEnd)]
    exact alike_throw _ _
  · rw [kind_of_down same]
    split
    · exact (alike_advance inline here).bind fun _ _ inline _ => alike_pure inline _ same
    · exact alike_throw _ _

theorem alike_tagArguments (inline : line.Inline) (number other fuel : Nat) (initial : Tri)
    (properties : List (String × String)) :
    Alike offset id (tagArguments number fuel initial properties)
      (tagArguments other fuel initial properties) line := by
  induction fuel generalizing line initial properties with
  | zero => exact alike_pure inline _ rfl
  | succ fuel ih =>
      rw [tagArguments, tagArguments]
      refine alike_current inline (fun own seen ownEnd seenEnd _ _ => ?_)
        fun word seen rest here same inside => ?_
      · rw [if_pos ownEnd, if_pos seenEnd]
        exact alike_pure inline _ rfl
      · have notEnd : ¬ atLineEnd word.kind := by simp [inside]
        rw [kind_of_down same, text_of_down same, if_neg notEnd, if_neg notEnd]
        by_cases wordlike : isWord word.kind
        · simp only [wordlike, Bool.not_true, Bool.false_eq_true, if_false]
          refine (alike_advance inline here).bind fun _ left inline _ => ?_
          have named := alike_value (Tri.ofName? word.text)
            (fun value => ih inline value properties)
            (.statement number (.invalidInitial word.text))
            (.statement other (.invalidInitial word.text))
          refine alike_current inline (fun own seen ownEnd seenEnd _ _ => ?_)
            fun mark seen rest here same _ => ?_
          · rw [if_neg (ne_of_atLineEnd ownEnd rfl), if_neg (ne_of_atLineEnd seenEnd rfl)]
            exact named
          · rw [kind_of_down same]
            by_cases equals : mark.kind = .equals
            · rw [if_pos equals, if_pos equals]
              refine (alike_advance inline here).bind fun _ left inline _ => ?_
              refine alike_current inline (fun own seen ownEnd seenEnd _ _ => ?_)
                fun value seen rest here same _ => ?_
              · simp only [isWord_of_atLineEnd ownEnd, isWord_of_atLineEnd seenEnd, Bool.not_false,
                  if_true]
                exact alike_of_refuses ((refuses_throw _).bind _) ((refuses_throw _).bind _)
              · rw [kind_of_down same, text_of_down same]
                by_cases wordlike : isWord value.kind
                · simp only [wordlike, Bool.not_true, Bool.false_eq_true, if_false]
                  exact (alike_advance inline here).bind fun _ _ inline _ => ih inline _ _
                · simp only [wordlike, Bool.not_false, if_true]
                  exact alike_of_refuses ((refuses_throw _).bind _) ((refuses_throw _).bind _)
            · rw [if_neg equals, if_neg equals]
              exact named
        · simp only [wordlike, Bool.not_false, if_true]
          exact alike_of_refuses ((refuses_throw _).bind _) ((refuses_throw _).bind _)

theorem tagArguments_eq {fuel more : Nat} {tokens : Tokens} (enough : tokens.length < fuel)
    (enoughMore : tokens.length < more) (number : Nat) (initial : Tri)
    (properties : List (String × String)) :
    tagArguments number fuel initial properties tokens =
      tagArguments number more initial properties tokens := by
  induction fuel generalizing more tokens initial properties with
  | zero => omega
  | succ fuel ih =>
      cases more with
      | zero => omega
      | succ more =>
          rw [tagArguments, tagArguments]
          refine current_congr fun word head => ?_
          by_cases isEnd : atLineEnd word.kind
          · rw [if_pos isEnd, if_pos isEnd]
          · have shorter := Tokens.length_tail_lt head isEnd
            rw [if_neg isEnd, if_neg isEnd]
            by_cases wordlike : isWord word.kind
            · simp only [wordlike, Bool.not_true, Bool.false_eq_true, if_false]
              refine advance_congr (current_congr fun mark _ => ?_)
              by_cases equals : mark.kind = .equals
              · rw [if_pos equals, if_pos equals]
                refine advance_congr (current_congr fun value _ => ?_)
                have short := tokens.tail.length_tail_le
                have shortest := tokens.tail.tail.length_tail_le
                by_cases wordlike : isWord value.kind
                · simp only [wordlike, Bool.not_true, Bool.false_eq_true, if_false]
                  exact advance_congr (ih (by omega) (by omega) _ _)
                · simp only [wordlike, Bool.not_false, if_true]
                  rfl
              · rw [if_neg equals, if_neg equals]
                cases Tri.ofName? word.text with
                | none => rfl
                | some value => exact ih (by omega) (by omega) _ _
            · simp only [wordlike, Bool.not_false, if_true]
              rfl

theorem alike_tag (inline : line.Inline) (number : Nat) :
    Alike offset (TagDecl.down offset) (tag number) (tag (number + offset)) line := by
  refine (alike_expect inline rfl).bind fun name left inline _ => ?_
  have arguments : Alike offset id
      (get >>= fun tokens => tagArguments number (tokens.length + 1) .unknown [])
      (get >>= fun tokens => tagArguments (number + offset) (tokens.length + 1) .unknown []) left :=
    alike_measured (fun fuel => alike_tagArguments inline _ _ fuel _ _)
      fun fuel enough => tagArguments_eq enough (Nat.lt_succ_self _) _ _ _
  let decl (number : Nat) (pair : Tri × List (String × String)) : Parse TagDecl :=
    pure ⟨name.text, pair.1, pair.2, number⟩
  have declared : ∀ pair (rest : Tokens), rest.Inline → Alike offset (TagDecl.down offset)
      (decl number pair) (decl (number + offset) (id pair)) rest :=
    fun pair _ inline => alike_pure inline _ rfl
  exact arguments.bind fun pair rest inline _ => declared pair rest inline

theorem readQuantity?_lineEnd {text : String} (empty : text ∈ ["", "\n"]) :
    readQuantity? text = none := by
  obtain rfl | rfl : text = "" ∨ text = "\n" := by simpa using empty
  · rfl
  · rfl

theorem quantity_ok {number : Nat} {text : String} {tokens left : Tokens} {value : Float}
    (done : quantity number text tokens = .ok (value, left)) :
    readQuantity? text = some value ∧ left = tokens := by
  unfold quantity at done
  cases found : readQuantity? text with
  | none =>
      rw [found] at done
      contradiction
  | some value =>
      rw [found] at done
      cases done
      exact ⟨rfl, rfl⟩

theorem of_quantity_bind {number : Nat} {text : String} {next : Float → Parse α} {tokens : Tokens}
    {result : α × Tokens} (done : (quantity number text >>= next) tokens = .ok result) :
    ∃ value, readQuantity? text = some value ∧ next value tokens = .ok result := by
  obtain ⟨value, left, found, onward⟩ := bind_eq_ok done
  obtain ⟨reads, rfl⟩ := quantity_ok found
  exact ⟨value, reads, onward⟩

theorem alike_quantity (inline : line.Inline) (number other : Nat) (text : String) :
    Alike offset id (quantity number text) (quantity other text) line := by
  unfold quantity
  cases readQuantity? text with
  | none => exact alike_throw _ _
  | some value => exact alike_pure inline value rfl

theorem refuses_quantity {text : String} (empty : text ∈ ["", "\n"]) (number : Nat) :
    Refuses (quantity number text) := by
  unfold quantity
  rw [readQuantity?_lineEnd empty]
  exact refuses_throw _

def plainArgument (fuel : Nat) (block : BlockDecl) (word : Token) : Parse BlockDecl :=
  if word.kind = .identifier && block.tag.isNone then
    blockArguments fuel { block with tag := some word.text }
  else if word.kind = .number && block.value.isNone then do
    let value ← quantity block.line word.text
    blockArguments fuel { block with value := some value }
  else throw (.invalidBlock block.name block.line (.unexpectedArgument word.text))

theorem alike_plainArgument (inline : line.Inline) (word : Token) (block : BlockDecl) {fuel : Nat}
    (onward : ∀ {line : Tokens}, line.Inline → ∀ block : BlockDecl,
      Alike offset (BlockDecl.down offset) (blockArguments fuel block)
        (blockArguments fuel (block.down offset)) line) :
    Alike offset (BlockDecl.down offset) (plainArgument fuel block word)
      (plainArgument fuel (block.down offset) word) line := by
  have sameTag : (block.down offset).tag = block.tag := rfl
  have sameValue : (block.down offset).value = block.value := rfl
  rw [plainArgument, plainArgument, sameTag, sameValue]
  by_cases asTag : (word.kind = .identifier && block.tag.isNone) = true
  · rw [if_pos asTag, if_pos asTag]
    exact onward inline _
  · rw [if_neg asTag, if_neg asTag]
    by_cases asValue : (word.kind = .number && block.value.isNone) = true
    · rw [if_pos asValue, if_pos asValue]
      exact (alike_quantity inline _ _ _).bind fun value _ inline _ => onward inline _
    · rw [if_neg asValue, if_neg asValue]
      exact alike_throw _ _

theorem alike_blockArguments (inline : line.Inline) (fuel : Nat) (block : BlockDecl) :
    Alike offset (BlockDecl.down offset) (blockArguments fuel block)
      (blockArguments fuel (block.down offset)) line := by
  induction fuel generalizing line block with
  | zero => exact alike_pure inline _ rfl
  | succ fuel ih =>
      rw [blockArguments, blockArguments]
      refine alike_current inline (fun own seen ownEnd seenEnd _ _ => ?_)
        fun word seen rest here same inside => ?_
      · rw [if_pos ownEnd, if_pos seenEnd]
        exact alike_pure inline _ rfl
      · have notEnd : ¬ atLineEnd word.kind := by simp [inside]
        rw [kind_of_down same, text_of_down same, if_neg notEnd, if_neg notEnd]
        refine (alike_advance inline here).bind fun _ left inline _ => ?_
        have plain := alike_plainArgument inline word block fun inline block => ih inline block
        refine alike_current inline (fun own seen ownEnd seenEnd _ _ => ?_)
          fun mark seen rest here same _ => ?_
        · have ownOther : own.kind ≠ .equals := ne_of_atLineEnd ownEnd rfl
          have seenOther : seen.kind ≠ .equals := ne_of_atLineEnd seenEnd rfl
          simp only [ownOther, seenOther, decide_false, Bool.and_false, Bool.false_eq_true,
            if_false]
          exact plain
        · rw [kind_of_down same]
          by_cases keyed : (word.kind = .identifier && mark.kind = .equals) = true
          · rw [if_pos keyed, if_pos keyed]
            refine (alike_advance inline here).bind fun _ left inline _ => ?_
            refine alike_current inline (fun own seen _ _ ownText seenText => ?_)
              fun text seen rest here same _ => ?_
            · -- A reader that goes on past the end of the line here has no number to read.
              exact alike_of_refuses
                (refuses_bind (fun _ => (refuses_quantity ownText _).bind _) _)
                (refuses_bind (fun _ => (refuses_quantity seenText _).bind _) _)
            · rw [text_of_down same]
              refine (alike_advance inline here).bind fun _ left inline _ => ?_
              exact (alike_quantity inline _ _ _).bind fun value _ inline _ => ih inline _
          · rw [if_neg keyed, if_neg keyed]
            exact plain

theorem blockArguments_eq {fuel more : Nat} {tokens : Tokens} (enough : tokens.length < fuel)
    (enoughMore : tokens.length < more) (block : BlockDecl) :
    blockArguments fuel block tokens = blockArguments more block tokens := by
  induction fuel generalizing more tokens block with
  | zero => omega
  | succ fuel ih =>
      cases more with
      | zero => omega
      | succ more =>
          rw [blockArguments, blockArguments]
          refine current_congr fun word head => ?_
          by_cases isEnd : atLineEnd word.kind
          · rw [if_pos isEnd, if_pos isEnd]
          · have shorter := Tokens.length_tail_lt head isEnd
            have short := tokens.tail.length_tail_le
            have shortest := tokens.tail.tail.length_tail_le
            rw [if_neg isEnd, if_neg isEnd]
            refine advance_congr (current_congr fun mark _ => ?_)
            split
            · refine advance_congr (current_congr fun text _ => advance_congr ?_)
              refine bind_congr fun value left done => ?_
              obtain ⟨_, rfl⟩ := quantity_ok done
              exact ih (by omega) (by omega) _
            · split
              · exact ih (by omega) (by omega) _
              · split
                · refine bind_congr fun value left done => ?_
                  obtain ⟨_, rfl⟩ := quantity_ok done
                  exact ih (by omega) (by omega) _
                · rfl

theorem alike_block (inline : line.Inline) {token : Token} {rest : Tokens}
    (here : line = .next token rest) : Alike offset (BlockDecl.down offset) block block line := by
  refine alike_here here fun seen same => ?_
  refine (alike_advance inline here).bind fun _ left inline _ => ?_
  refine (alike_expect inline rfl).bind fun name left inline _ => ?_
  rw [text_of_down same, line_of_down same]
  exact alike_measured (fun fuel => alike_blockArguments inline fuel _)
    fun fuel enough => blockArguments_eq enough (Nat.lt_succ_self _) _

def pointBehind (inverted : Bool) : Parse PointRef := do
  let block ← expect .identifier
  if (← current).kind = .colon then
    advance
    let name ← current
    if isWord name.kind then
      advance
      return ⟨block.text, some name.text, inverted⟩
    else throw (.statement name.position.line .missingPoint)
  else return ⟨block.text, none, inverted⟩

theorem alike_pointBehind (inline : line.Inline) (inverted : Bool) :
    Alike offset id (pointBehind inverted) (pointBehind inverted) line := by
  refine (alike_expect inline rfl).bind fun block left inline _ => ?_
  refine alike_current inline (fun own seen ownEnd seenEnd _ _ => ?_)
    fun mark seen rest here same _ => ?_
  · rw [if_neg (ne_of_atLineEnd ownEnd rfl), if_neg (ne_of_atLineEnd seenEnd rfl)]
    exact alike_pure inline _ rfl
  · rw [kind_of_down same]
    split
    · refine (alike_advance inline here).bind fun _ left inline _ => ?_
      refine alike_current inline (fun own seen ownEnd seenEnd _ _ => ?_)
        fun name seen rest here same _ => ?_
      · simp only [isWord_of_atLineEnd ownEnd, isWord_of_atLineEnd seenEnd, Bool.false_eq_true,
          if_false]
        exact alike_throw _ _
      · rw [kind_of_down same, text_of_down same]
        split
        · exact (alike_advance inline here).bind fun _ _ inline _ => alike_pure inline _ rfl
        · exact alike_throw _ _
    · exact alike_pure inline _ rfl

theorem alike_point (inline : line.Inline) : Alike offset id point point line := by
  refine alike_current inline (fun own seen ownEnd seenEnd _ _ => ?_)
    fun mark seen rest here same _ => ?_
  · have ownOther : own.kind ≠ .bang := ne_of_atLineEnd ownEnd rfl
    have seenOther : seen.kind ≠ .bang := ne_of_atLineEnd seenEnd rfl
    simp only [ownOther, seenOther, if_false, decide_false]
    exact alike_pointBehind inline false
  · dsimp only
    rw [kind_of_down same]
    by_cases bang : mark.kind = .bang
    · simp only [bang, if_true, decide_true]
      exact (alike_advance inline here).bind fun _ left inline _ => alike_pointBehind inline true
    · simp only [bang, if_false, decide_false]
      exact alike_pointBehind inline false

theorem alike_wire (inline : line.Inline) {token : Token} {rest : Tokens}
    (here : line = .next token rest) : Alike offset (WireDecl.down offset) wire wire line := by
  refine alike_here here fun seen same => ?_
  rw [line_of_down same]
  refine (alike_advance inline here).bind fun _ left inline _ => ?_
  refine (alike_point inline).bind fun start left inline _ => ?_
  exact (alike_point inline).bind fun stop left inline _ => alike_pure inline _ rfl

theorem alike_directive (inline : line.Inline) {token : Token} {rest : Tokens}
    (here : line = .next token rest) :
    Alike offset (Statement.down offset) directive directive line := by
  refine alike_here here fun seen same => ?_
  rw [text_of_down same, line_of_down same]
  refine (alike_advance inline here).bind fun _ left inline _ => ?_
  split
  · exact (alike_expect inline rfl).bind fun name _ inline _ => alike_pure inline _ rfl
  · exact (alike_expect inline rfl).bind fun name _ inline _ => alike_pure inline _ rfl
  · exact (alike_expect inline rfl).bind fun name _ inline _ => alike_pure inline _ rfl
  · exact (alike_tag inline _).bind fun decl _ inline _ => alike_pure inline _ rfl
  · exact alike_throw _ _

theorem alike_statement (inline : line.Inline) :
    Alike offset (Statement.down offset) statement statement line := by
  refine alike_current inline (fun own seen ownEnd seenEnd _ _ => ?_)
    fun token seen rest here same _ => ?_
  · rw [if_neg (ne_of_atLineEnd ownEnd rfl), if_neg (ne_of_atLineEnd seenEnd rfl),
      if_neg (ne_of_atLineEnd ownEnd rfl), if_neg (ne_of_atLineEnd seenEnd rfl)]
    exact alike_throw _ _
  · rw [kind_of_down same, text_of_down same]
    split
    · exact alike_directive inline here
    · split
      · split
        · exact (alike_wire inline here).bind fun decl _ inline _ => alike_pure inline _ rfl
        · exact (alike_block inline here).bind fun decl _ inline _ => alike_pure inline _ rfl
      · exact alike_throw _ _

end

end Parse

end RelayLogic.Diagram
