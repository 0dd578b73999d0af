import RelayLogic.Proofs.Separating

/-!
What a line's first tokens say of its statement. A directive's word, or the word for wires, tells
of which kind it is, and the name behind it whose it is; all other names in front start a block.
-/

namespace RelayLogic.Diagram

def Directs (word : String) (first second : Token) (name : String) : Prop :=
  first.kind = .directive ∧ Text.lowercase first.text = word ∧
    second.kind = .identifier ∧ second.text = name

/-- Whether a statement is what a line's first two tokens say. -/
def Statement.HeadedBy (first second : Token) : Statement → Prop
  | solution name => Directs ".solution" first second name
  | project name => Directs ".project" first second name
  | context name line => Directs ".context" first second name ∧ line = first.position.line
  | tag decl => Directs ".tag" first second decl.name ∧ decl.line = first.position.line
  | block decl =>
    first.kind = .identifier ∧ first.text.map Char.toLower ≠ "wire" ∧ first.text = decl.kind ∧
      second.kind = .identifier ∧ second.text = decl.name ∧ decl.line = first.position.line
  | wire decl =>
    first.kind = .identifier ∧ first.text.map Char.toLower = "wire" ∧
      decl.line = first.position.line

/-- Whether the first tokens of a line say what it means. One that means nothing has none. -/
def HeadedBy (tokens : Tokens) : Option Statement → Prop
  | none => ∃ position, tokens = .ends position
  | some read => ∃ first second rest,
      tokens = .next first (.next second rest) ∧ read.HeadedBy first second

namespace Parse

variable {tokens left : Tokens} {first second : Token} {read : Statement}

theorem next_of_head (head : tokens.head = .ok first) (inside : first.kind ≠ .eof) :
    tokens = .next first tokens.tail := by
  cases tokens with
  | ends position => exact absurd (congrArg Token.kind (Except.ok.inj head)).symm inside
  | fails position fault => cases head
  | next token rest => exact congrArg (Tokens.next · rest) (Except.ok.inj head)

theorem of_expect_bind {kind : TokenKind} {next : Token → Parse α} {result : α × Tokens}
    (done : (expect kind >>= next) tokens = .ok result) :
    ∃ token, tokens.head = .ok token ∧ token.kind = kind ∧
      next token tokens.tail = .ok result := by
  obtain ⟨answer, left, expected, onward⟩ := bind_eq_ok done
  obtain ⟨token, head, rest⟩ := of_current_bind expected
  by_cases same : token.kind = kind
  · rw [if_pos same] at rest
    have returned := of_advance_bind rest
    cases returned
    exact ⟨_, head, same, onward⟩
  · rw [if_neg same] at rest
    contradiction

theorem headed_of_heads (head : tokens.head = .ok first) (inside : first.kind ≠ .eof)
    (behind : tokens.tail.head = .ok second) (more : second.kind ≠ .eof)
    (headed : read.HeadedBy first second) : HeadedBy tokens (some read) :=
  ⟨first, second, tokens.tail.tail,
    (next_of_head head inside).trans (congrArg _ (next_of_head behind more)), headed⟩

theorem tag_headed {line : Nat} {decl : TagDecl} (done : tag line tokens = .ok (decl, left)) :
    ∃ token, tokens.head = .ok token ∧ token.kind = .identifier ∧ token.text = decl.name ∧
      decl.line = line := by
  obtain ⟨token, head, kind, rest⟩ := of_expect_bind done
  obtain ⟨_, _, _, rest⟩ := bind_eq_ok rest
  obtain ⟨_, _, _, rest⟩ := bind_eq_ok rest
  cases rest
  exact ⟨token, head, kind, rfl, rfl⟩

theorem named_headed {word : String} (make : String → Statement) (head : tokens.head = .ok first)
    (kind : first.kind = .directive) (text : Text.lowercase first.text = word)
    (headed : ∀ second name, Directs word first second name → (make name).HeadedBy first second)
    (done : (do return make (← expect .identifier).text : Parse Statement) tokens.tail =
      .ok (read, left)) : HeadedBy tokens (some read) := by
  obtain ⟨second, behind, isName, rest⟩ := of_expect_bind done
  cases rest
  exact headed_of_heads head (by simp [kind]) behind (by simp [isName])
    (headed second _ ⟨kind, text, isName, rfl⟩)

theorem directive_headed (head : tokens.head = .ok first) (kind : first.kind = .directive)
    (done : directive tokens = .ok (read, left)) : HeadedBy tokens (some read) := by
  obtain ⟨token, same, rest⟩ := of_current_bind done
  obtain rfl : first = token := Except.ok.inj (head.symm.trans same)
  replace rest := of_advance_bind rest
  generalize spelled : Text.lowercase first.text = word at rest
  split at rest
  next => exact named_headed .solution head kind spelled (fun _ _ => id) rest
  next => exact named_headed .project head kind spelled (fun _ _ => id) rest
  next =>
    exact named_headed (.context · first.position.line) head kind spelled
      (fun _ _ directs => ⟨directs, rfl⟩) rest
  next =>
    obtain ⟨decl, _, read, rest⟩ := bind_eq_ok rest
    cases rest
    obtain ⟨second, behind, isName, named, line⟩ := tag_headed read
    exact headed_of_heads head (by simp [kind]) behind (by simp [isName])
      ⟨⟨kind, spelled, isName, named⟩, line⟩
  next => contradiction

theorem blockArguments_keeps {fuel : Nat} {block decl : BlockDecl}
    (done : blockArguments fuel block tokens = .ok (decl, left)) :
    decl.kind = block.kind ∧ decl.name = block.name ∧ decl.line = block.line ∧
      ∀ value, block.value = some value → decl.value = some value := by
  induction fuel generalizing block tokens with
  | zero =>
      cases done
      exact ⟨rfl, rfl, rfl, fun _ given => given⟩
  | succ fuel ih =>
      rw [blockArguments] at done
      obtain ⟨word, _, done⟩ := of_current_bind done
      split at done
      · cases done
        exact ⟨rfl, rfl, rfl, fun _ given => given⟩
      · obtain ⟨mark, _, done⟩ := of_current_bind (of_advance_bind done)
        split at done
        · obtain ⟨text, _, done⟩ := of_current_bind (of_advance_bind done)
          obtain ⟨value, _, done⟩ := of_quantity_bind (of_advance_bind done)
          have kept := ih done
          exact kept
        · split at done
          · have kept := ih done
            exact kept
          · split at done
            next free =>
              obtain ⟨value, _, done⟩ := of_quantity_bind done
              obtain ⟨kind, name, line, _⟩ := ih done
              refine ⟨kind, name, line, fun other given => ?_⟩
              simp [given] at free
            · contradiction

theorem block_headed {decl : BlockDecl} (head : tokens.head = .ok first)
    (kind : first.kind = .identifier) (notWire : first.text.map Char.toLower ≠ "wire")
    (done : block tokens = .ok (decl, left)) : HeadedBy tokens (some (.block decl)) := by
  obtain ⟨token, same, rest⟩ := of_current_bind done
  obtain rfl : first = token := Except.ok.inj (head.symm.trans same)
  obtain ⟨second, behind, isName, rest⟩ := of_expect_bind (of_advance_bind rest)
  obtain ⟨_, _, _, rest⟩ := bind_eq_ok rest
  obtain ⟨sameKind, sameName, sameLine, _⟩ := blockArguments_keeps rest
  exact headed_of_heads head (by simp [kind]) behind (by simp [isName])
    ⟨kind, notWire, sameKind.symm, isName, sameName.symm, sameLine⟩

theorem point_head {decl : PointRef} (done : point tokens = .ok (decl, left)) :
    ∃ token, tokens.head = .ok token ∧ token.kind ≠ .eof := by
  obtain ⟨token, head, rest⟩ := of_current_bind done
  refine ⟨token, head, fun isEof => ?_⟩
  simp only [isEof, reduceCtorEq, decide_false, if_false] at rest
  obtain ⟨name, same, isName, _⟩ := of_expect_bind rest
  obtain rfl : token = name := Except.ok.inj (head.symm.trans same)
  simp [isEof] at isName

theorem wire_headed {decl : WireDecl} (head : tokens.head = .ok first)
    (kind : first.kind = .identifier) (isWire : first.text.map Char.toLower = "wire")
    (done : wire tokens = .ok (decl, left)) : HeadedBy tokens (some (.wire decl)) := by
  obtain ⟨token, same, rest⟩ := of_current_bind done
  obtain rfl : first = token := Except.ok.inj (head.symm.trans same)
  obtain ⟨start, _, started, rest⟩ := bind_eq_ok (of_advance_bind rest)
  obtain ⟨stop, _, _, rest⟩ := bind_eq_ok rest
  cases rest
  obtain ⟨second, behind, more⟩ := point_head started
  exact headed_of_heads head (by simp [kind]) behind more ⟨kind, isWire, rfl⟩

theorem statement_headed (done : statement tokens = .ok (read, left)) :
    HeadedBy tokens (some read) := by
  obtain ⟨first, head, rest⟩ := of_current_bind done
  split at rest
  next isDirective => exact directive_headed head isDirective rest
  next =>
    split at rest
    next kind =>
      split at rest
      next isWire =>
        obtain ⟨decl, _, read, rest⟩ := bind_eq_ok rest
        cases rest
        exact wire_headed head kind isWire read
      next notWire =>
        obtain ⟨decl, _, read, rest⟩ := bind_eq_ok rest
        cases rest
        exact block_headed head kind notWire read
    next => contradiction

end Parse

end RelayLogic.Diagram
