import RelayLogic.Proofs.Depicting
import RelayLogic.Proofs.Folding
import RelayLogic.Proofs.Scanning

/-!
The delay of a timer as its line writes it. The number at the front of the word is the delay, and
whatever is left of the word is read as further arguments of the block.
-/

namespace RelayLogic

def Kind.delay? : Kind → Option Seconds
  | timer _ delay => some delay
  | _ => none

namespace Circuit

def delays (circuit : Circuit) : List Seconds :=
  circuit.elements.toList.filterMap (·.kind.delay?)

theorem filterMap_modify {view : α → Option β} {change : α → α}
    (kept : ∀ item, view (change item) = view item) (items : List α) (index : Nat) :
    (items.modify index change).filterMap view = items.filterMap view := by
  induction items generalizing index with
  | nil => cases index <;> rfl
  | cons item items ih =>
      cases index with
      | zero => simp only [List.modify_zero_cons, List.filterMap_cons, kept]
      | succ index => simp only [List.modify_succ_cons, List.filterMap_cons, ih]

theorem delays_update (circuit : Circuit) (id : ElementId) {change : Element → Element}
    (kept : ∀ element, (change element).kind = element.kind) :
    (circuit.update id change).delays = circuit.delays := by
  rw [delays, update, Array.toList_modify]
  exact filterMap_modify (fun element => by rw [kept]) _ _

theorem delays_ascribed (circuit : Circuit) (id : ElementId) (block : BlockRef) :
    (circuit.ascribed id block).delays = circuit.delays :=
  circuit.delays_update id fun _ => rfl

theorem delays_plant (circuit : Circuit) (owner : ElementId) (pins : List (String × Pin))
    (name : String) (kind : Kind) :
    (circuit.plant owner pins name kind).delays = circuit.delays ++ kind.delay?.toList := by
  have plain : ∀ view : String × Pin → Element, (∀ pair, (view pair).kind.delay? = none) →
      (pins.map view).filterMap (·.kind.delay?) = [] := by
    intro view isPin
    rw [List.filterMap_map]
    exact List.filterMap_eq_nil_iff.mpr fun pair _ => isPin pair
  have earlier : (circuit.update owner (·.adding (circuit.size + pins.length))).delays =
      circuit.delays := circuit.delays_update owner fun _ => rfl
  rw [delays] at earlier
  simp only [delays, plant, Array.toList_append, List.filterMap_append, earlier]
  rw [plain _ fun _ => rfl, List.append_nil]
  cases kind <;> rfl

end Circuit

namespace Diagram

def timerLine (kind name : String) (keyed : Bool) (word : String) : String :=
  kind ++ " " ++ name ++ " " ++ (if keyed then "delay=" else "") ++ word

/-- Whether a word starts with a digit or a sign and goes on with letters, digits, points and
signs. -/
def IsNumberWord (word : String) : Prop :=
  (∃ first rest, word.toList = first :: rest ∧ (isSign first || first.isDigit)) ∧
    word.toList.all fun char => Text.isAlphanumeric char || decide (char = '.') || isSign char

theorem tokensAt_lexeme {text lexeme after : List Char} {kind : TokenKind}
    (found : scan (takeGap false text).2 = .lexeme kind lexeme after) (position : Position) :
    ∃ start next, tokensAt position text =
      .next ⟨kind, String.ofList lexeme, start⟩ (tokensAt next after) := by
  rw [tokensAt_eq]
  dsimp only
  rw [found]
  exact ⟨_, _, rfl⟩

theorem tokens_name {name behind : List Char} (isName : IsName name)
    (stop : ∀ char ∈ behind.head?, isNameRest char = false) (position : Position) :
    ∃ start next, tokensAt position (name ++ behind) =
      .next ⟨.identifier, String.ofList name, start⟩ (tokensAt next behind) := by
  refine tokensAt_lexeme ?_ position
  rw [takeGap_name isName, scan_name isName stop]

theorem tokensAt_space (position : Position) (text : List Char) :
    tokensAt position (' ' :: text) = tokensAt (position.next ' ') text := by
  rw [tokensAt_eq, tokensAt_eq]
  rfl

theorem tokens_number {first : Char} (starts : isSign first || first.isDigit) (rest : List Char)
    (position : Position) : ∃ start next, tokensAt position (first :: rest) =
      .next ⟨.number, String.ofList (takeNumber (first :: rest)).1, start⟩
        (tokensAt next (takeNumber (first :: rest)).2) := by
  refine tokensAt_lexeme ?_ position
  have stays : (isSpace first || isCommentMark first) = false := by
    by_contra gap
    have cases : first ∈ [' ', '\t', '\r', '#', ';'] := by
      simpa [isSpace, isCommentMark, or_assoc] using (Bool.not_eq_false _).mp gap
    have others : [' ', '\t', '\r', '#', ';'].all fun other => !(isSign other || other.isDigit) := by
      decide
    have other := List.all_eq_true.mp others first cases
    rw [starts] at other
    contradiction
  rw [takeGap_none stays, scan_number starts]

/-- Whether some tokens give a number as a block's argument, by the key `delay` or without one, and
what is behind it. -/
inductive Gives (number : String) (behind : Tokens) : Bool → Tokens → Prop
  | plain (place) : Gives number behind false (.next ⟨.number, number, place⟩ behind)
  | keyed (place mark later) : Gives number behind true (.next ⟨.identifier, "delay", place⟩
      (.next ⟨.equals, "=", mark⟩ (.next ⟨.number, number, later⟩ behind)))

theorem tokens_argument {first : Char} (starts : isSign first || first.isDigit) (rest : List Char)
    (keyed : Bool) (position : Position) : ∃ next, Gives
      (String.ofList (takeNumber (first :: rest)).1) (tokensAt next (takeNumber (first :: rest)).2)
        keyed (tokensAt position ((if keyed then "delay=" else "").toList ++ first :: rest)) := by
  cases keyed with
  | false =>
      obtain ⟨place, next, tokens⟩ := tokens_number starts rest position
      refine ⟨next, ?_⟩
      rw [show (if false then "delay=" else "").toList ++ first :: rest = first :: rest from rfl,
        tokens]
      exact .plain place
  | true =>
      have isName : IsName "delay".toList := ⟨'d', _, rfl, by decide, by decide⟩
      have stop : ∀ char ∈ ('=' :: first :: rest).head?, isNameRest char = false := by
        rintro char head
        cases head
        decide
      obtain ⟨place, next, key⟩ := tokens_name isName stop position
      have equals : scan (takeGap false ('=' :: first :: rest)).2 =
          .lexeme .equals ['='] (first :: rest) := by
        rw [takeGap_none (by decide)]
        rfl
      obtain ⟨mark, next, sign⟩ := tokensAt_lexeme equals next
      obtain ⟨later, next, number⟩ := tokens_number starts rest next
      refine ⟨next, ?_⟩
      rw [show (if true then "delay=" else "").toList ++ first :: rest =
        "delay".toList ++ '=' :: first :: rest from rfl, key, sign, number]
      exact .keyed place mark later

theorem tokens_timerLine {kind name word : String} (isKind : IsName kind.toList)
    (isName : IsName name.toList) (isWord : IsNumberWord word) (keyed : Bool) :
    ∃ place later next arguments, Gives (String.ofList (takeNumber word.toList).1)
        (tokensAt next (takeNumber word.toList).2) keyed arguments ∧
      tokenize (timerLine kind name keyed word) =
        .next ⟨.identifier, kind, place⟩ (.next ⟨.identifier, name, later⟩ arguments) := by
  obtain ⟨⟨first, rest, shape, starts⟩, _⟩ := isWord
  have stop : ∀ text : List Char, ∀ char ∈ (' ' :: text).head?, isNameRest char = false := by
    rintro text char head
    cases head
    decide
  have text : (timerLine kind name keyed word).toList = kind.toList ++ ' ' :: (name.toList ++
      ' ' :: ((if keyed then "delay=" else "").toList ++ first :: rest)) := by
    simp [timerLine, shape]
  obtain ⟨place, next, one⟩ := tokens_name isKind (stop (name.toList ++
      ' ' :: ((if keyed then "delay=" else "").toList ++ first :: rest))) .first
  obtain ⟨later, next, two⟩ := tokens_name isName
    (stop ((if keyed then "delay=" else "").toList ++ first :: rest)) (next.next ' ')
  obtain ⟨last, gives⟩ := tokens_argument starts rest keyed (next.next ' ')
  rw [← shape] at gives
  refine ⟨place, later, last, _, gives, ?_⟩
  rw [tokenize_eq, text, one, tokensAt_space, two, tokensAt_space, String.ofList_toList,
    String.ofList_toList, shape]

theorem toUpper_cases (char : Char) :
    (97 ≤ char.toNat ∧ char.toNat ≤ 122) ∨ char.toUpper = char := by
  by_cases small : 97 ≤ char.toNat ∧ char.toNat ≤ 122
  · exact Or.inl small
  · exact Or.inr (dif_neg small)

theorem isAlphabetic_of_small {char : Char} (small : 97 ≤ char.toNat ∧ char.toNat ≤ 122) :
    Text.isAlphabetic char := by
  have ranges : Text.alphabeticRanges =
      (0x41, 0x5A) :: (0x61, 0x7A) :: Text.alphabeticRanges.drop 2 := rfl
  rw [Text.isAlphabetic, ranges, Text.Ranges.contains, Text.Ranges.contains]
  simp
  omega

theorem isAlphabetic_of_toUpper {char : Char} (capital : Text.isAlphabetic char.toUpper) :
    Text.isAlphabetic char := by
  obtain small | same := toUpper_cases char
  · exact isAlphabetic_of_small small
  · rwa [same] at capital

theorem isNameRest_of_isAlphabetic {char : Char} (letter : Text.isAlphabetic char) :
    isNameRest char := by
  simp [isNameRest, isNameStart, Text.isAlphanumeric, letter]

def timerWords : List String := ["TIMER-ON", "TIMER-OFF", "TIMER-PULSE"]

section

variable {kind : String} {timer : TimerKind}
  (isTimer : BlockKind.ofName? kind = some (.timer timer))

include isTimer

theorem ofName?_timer : kind.map Char.toUpper ∈ timerWords := by
  rw [BlockKind.ofName?] at isTimer
  split at isTimer <;> simp_all [timerWords]

theorem isName_of_timer : IsName kind.toList := by
  have words : ∀ word ∈ timerWords, word.toList.head? = some 'T' ∧
      word.toList.all fun char => Text.isAlphabetic char || char = '-' := by decide
  obtain ⟨head, all⟩ := words _ (ofName?_timer isTimer)
  rw [String.toList_map] at head all
  cases shape : kind.toList with
  | nil => simp [shape] at head
  | cons first rest =>
      have capital : first.toUpper = 'T' := by simpa [shape] using head
      have letter : Text.isAlphabetic first :=
        isAlphabetic_of_toUpper (by rw [capital]; decide)
      refine ⟨first, rest, rfl, by rw [letter]; rfl, List.all_eq_true.mpr fun char member => ?_⟩
      have listed : char ∈ kind.toList := by
        rw [shape]
        exact List.mem_cons_of_mem first member
      obtain small | same := toUpper_cases char
      · exact isNameRest_of_isAlphabetic (isAlphabetic_of_small small)
      · have part := List.all_eq_true.mp all _ (List.mem_map_of_mem listed)
        rw [same, Bool.or_eq_true, decide_eq_true_eq] at part
        obtain letter | rfl := part
        · exact isNameRest_of_isAlphabetic letter
        · decide

theorem timer_ne_wire : kind.map Char.toLower ≠ "wire" := by
  have words : ∀ word ∈ timerWords, word.length ≠ "wire".length := by decide
  have long := words _ (ofName?_timer isTimer)
  rw [String.length_map] at long
  intro same
  rw [← same, String.length_map] at long
  exact long rfl

end

namespace Parse

theorem blockArguments_ends (fuel : Nat) (block : BlockDecl) (position : Position) :
    blockArguments fuel block (.ends position) = .ok (block, .ends position) := by
  cases fuel <;> rfl

end Parse

def BlockDecl.given (block : BlockDecl) (keyed : Bool) (number : Float) : BlockDecl :=
  if keyed then { block with parameters := putKey "delay" number block.parameters }
  else { block with value := some number }

theorem Gives.read {number : String} {behind arguments : Tokens} {keyed : Bool}
    (gives : Gives number behind keyed arguments) {fuel : Nat} {block : BlockDecl}
    {result : BlockDecl × Tokens} (free : block.value = none)
    (done : Parse.blockArguments (fuel + 1) block arguments = .ok result) :
    ∃ value, readQuantity? number = some value ∧
      Parse.blockArguments fuel (block.given keyed value) behind = .ok result := by
  rw [Parse.blockArguments] at done
  obtain ⟨word, head, done⟩ := Parse.of_current_bind done
  cases gives with
  | plain place =>
      cases head
      rw [if_neg (show ¬Parse.atLineEnd .number by decide)] at done
      obtain ⟨mark, _, done⟩ := Parse.of_current_bind (Parse.of_advance_bind done)
      rw [if_neg (by simp), if_neg (by simp), if_pos (by simp [free])] at done
      exact Parse.of_quantity_bind done
  | keyed place mark later =>
      cases head
      rw [if_neg (show ¬Parse.atLineEnd .identifier by decide)] at done
      obtain ⟨_, head, done⟩ := Parse.of_current_bind (Parse.of_advance_bind done)
      cases head
      rw [if_pos (by simp)] at done
      obtain ⟨_, head, done⟩ := Parse.of_current_bind (Parse.of_advance_bind done)
      cases head
      obtain ⟨value, reads, done⟩ := Parse.of_quantity_bind (Parse.of_advance_bind done)
      have key : Text.lowercase "delay" = "delay" := by decide +kernel
      dsimp only at done
      rw [key] at done
      exact ⟨value, reads, done⟩

theorem content_block {kind name : String} {place later : Position} {arguments left : Tokens}
    {read : Option Statement} (notWire : kind.map Char.toLower ≠ "wire")
    (done : Parse.content (.next ⟨.identifier, kind, place⟩
      (.next ⟨.identifier, name, later⟩ arguments)) = .ok (read, left)) :
    ∃ decl left, read = some (.block decl) ∧ Parse.blockArguments (arguments.length + 1)
      ⟨kind, name, none, none, [], place.line⟩ arguments = .ok (decl, left) := by
  obtain ⟨_, head, done⟩ := Parse.of_current_bind done
  cases head
  rw [if_neg (show ¬Parse.atLineEnd .identifier by decide)] at done
  obtain ⟨statement, left, first, done⟩ := Parse.bind_eq_ok done
  obtain ⟨after, _, done⟩ := Parse.of_current_bind done
  split at done
  · cases done
    obtain ⟨_, head, first⟩ := Parse.of_current_bind first
    cases head
    rw [if_neg (by simp), if_pos rfl, if_neg notWire] at first
    obtain ⟨decl, rest, block, first⟩ := Parse.bind_eq_ok first
    cases first
    obtain ⟨_, head, block⟩ := Parse.of_current_bind block
    cases head
    obtain ⟨token, rest, expected, block⟩ := Parse.bind_eq_ok (Parse.of_advance_bind block)
    obtain ⟨_, head, expected⟩ := Parse.of_current_bind expected
    cases head
    rw [if_pos rfl] at expected
    have named := Parse.of_advance_bind expected
    cases named
    exact ⟨decl, _, rfl, block⟩
  · contradiction

def lone (block : BlockDecl) : Diagram :=
  ⟨none, [], [⟨defaultName, defaultName, [block], [], block.line⟩]⟩

def opened : Circuit :=
  ⟨#[⟨defaultSolution, .solution, none, [1], none, none⟩,
    ⟨defaultName, .project, some 0, [2], none, none⟩,
    ⟨defaultName, .context, some 1, [], none, none⟩]⟩

def timed (block : BlockDecl) (timer : TimerKind) (delay : Float) : Circuit :=
  (opened.plant 2 block.points block.name (.timer timer (.ofFloat delay))).ascribed
    (opened.size + block.points.length) ⟨block.name, block.line⟩

section

variable {block : BlockDecl} {timer : TimerKind} {delay : Float}
  (isTimer : BlockKind.ofName? block.kind = some (.timer timer)) (given : block.delay? = some delay)

include isTimer given

theorem addBlocks_timed : addBlocks 2 [] [block] [] opened =
    .ok [(block.name, opened.size + block.points.length)] (timed block timer delay) := by
  have added := Build.addLogic_ok (show opened.get? 2 = _ from rfl) rfl (fun _ => nofun)
    (show (Kind.timer timer (.ofFloat delay)).isLogic from rfl) block.name
  have placed : addBlock 2 [] block opened = .ok (opened.size + block.points.length)
      (opened.plant 2 block.points block.name (.timer timer (.ofFloat delay))) := by
    rw [addBlock, isTimer]
    dsimp only
    rw [given]
    exact added
  rw [addBlocks, List.lookup_nil]
  simp only [Option.isSome_none, Bool.false_eq_true, if_false]
  rw [Build.bind_ok placed,
    Build.bind_ok (Build.setBlock_ok (Circuit.get?_plant_new _ _ _ _ _) _)]
  rfl

theorem delays_of_toCircuit {circuit : Circuit} (done : (lone block).toCircuit = .ok circuit) :
    circuit.delays = [.ofFloat delay] := by
  obtain ⟨⟨answer, built⟩, _⟩ := toCircuit_ok_iff.mp done
  have finished : (addBlocks 2 [] [block] [] >>= fun names =>
      ([] : List WireDecl).forM (addWire 2 names) >>= fun _ =>
        addContexts [] [] [(defaultName, 1)]) opened = .ok answer circuit := built
  rw [Build.bind_ok (addBlocks_timed isTimer given)] at finished
  cases finished
  show (timed block timer delay).delays = _
  rw [timed, Circuit.delays_ascribed, Circuit.delays_plant]
  rfl

end

def circuitOf? (text : String) : Option Circuit :=
  (parse text >>= toCircuit).toOption

theorem circuitOf?_eq_some {text : String} {circuit : Circuit}
    (made : circuitOf? text = some circuit) :
    ∃ diagram, parse text = .ok diagram ∧ diagram.toCircuit = .ok circuit := by
  rw [circuitOf?] at made
  cases done : parse text >>= toCircuit with
  | error error =>
      rw [done] at made
      contradiction
  | ok other =>
      rw [done] at made
      cases made
      exact Check.bind_ok_iff.mp done

section

variable {kind name word : String} {timer : TimerKind} {keyed : Bool} {diagram : Diagram}
  (isTimer : BlockKind.ofName? kind = some (.timer timer)) (isName : IsName name.toList)
  (isWord : IsNumberWord word)

theorem newline_notMem_of_isName {name : List Char} (isName : IsName name) : '\n' ∉ name := by
  obtain ⟨first, rest, rfl, letter, all⟩ := isName
  intro member
  obtain rfl | member := List.mem_cons.mp member
  · exact absurd (le_of_letter letter) (by decide)
  · exact absurd (List.all_eq_true.mp all _ member) (by decide)

include isWord in
theorem newline_notMem_of_isWord : '\n' ∉ word.toList :=
  fun member => absurd (List.all_eq_true.mp isWord.2 _ member) (by decide)

include isWord in
theorem isBlank_of_isWord : ∀ char ∈ word.toList, Text.isBlank char = false := by
  intro char member
  have part := List.all_eq_true.mp isWord.2 char member
  rw [Bool.or_eq_true, Bool.or_eq_true] at part
  obtain (letter | point) | sign := part
  · exact isBlank_of_isAlphanumeric letter
  · obtain rfl := of_decide_eq_true point
    decide
  · obtain rfl | rfl : char = '+' ∨ char = '-' := by simpa [isSign, or_comm] using sign
    all_goals decide

include isTimer isName isWord

theorem linesOf_timerLine :
    linesOf (timerLine kind name keyed word) = [timerLine kind name keyed word] := by
  have key : '\n' ∉ (if keyed then "delay=" else "").toList := by cases keyed <;> decide
  have oneLine : '\n' ∉ (timerLine kind name keyed word).toList := by
    simp only [timerLine, String.toList_append, List.mem_append, not_or]
    exact ⟨⟨⟨⟨⟨newline_notMem_of_isName (isName_of_timer isTimer), by decide⟩,
      newline_notMem_of_isName isName⟩, by decide⟩, key⟩, newline_notMem_of_isWord isWord⟩
  have alone := linesOf_of_notMem oneLine
  rwa [String.ofList_toList] at alone

theorem parse_timerLine (parsed : parse (timerLine kind name keyed word) = .ok diagram) :
    ∃ decl left value line fuel next, diagram = lone decl ∧
      readQuantity? (String.ofList (takeNumber word.toList).1) = some value ∧
      Parse.blockArguments fuel ((⟨kind, name, none, none, [], line⟩ : BlockDecl).given keyed value)
        (tokensAt next (takeNumber word.toList).2) = .ok (decl, left) := by
  obtain ⟨reads, means, rfl⟩ := (parse_eq_ok_iff _ _).mp parsed
  rw [linesOf_timerLine isTimer isName isWord] at means
  obtain ⟨read, _, first, none, rfl⟩ := List.forall₂_cons_left_iff.mp means
  obtain rfl := List.forall₂_nil_left_iff.mp none
  rw [← String.ofList_toList (s := timerLine kind name keyed word)] at first
  obtain ⟨left, done⟩ := means_iff.mp first
  obtain ⟨place, later, next, arguments, gives, tokens⟩ :=
    tokens_timerLine (isName_of_timer isTimer) isName isWord keyed
  rw [← tokenize_eq, tokens] at done
  obtain ⟨decl, left, rfl, block⟩ := content_block (timer_ne_wire isTimer) done
  obtain ⟨value, reads, rest⟩ := gives.read rfl block
  exact ⟨decl, left, value, place.line, _, next, rfl, reads, rest⟩

/-- A word that is scanned to its end stands for a number, which is the delay. A word that is not
stands for none: without a key the delay is the number at its front all the same, and the rest is
taken for other arguments. -/
theorem delay_timerLine {circuit : Circuit}
    (parsed : parse (timerLine kind name keyed word) = .ok diagram)
    (translated : diagram.toCircuit = .ok circuit) :
    ∃ value, readQuantity? (String.ofList (takeNumber word.toList).1) = some value ∧
      (keyed = false ∨ (takeNumber word.toList).2 = [] → circuit.delays = [.ofFloat value]) ∧
      readQuantity? word = if (takeNumber word.toList).2 = [] then some value else none := by
  obtain ⟨decl, left, value, line, fuel, next, rfl, scanned, rest⟩ :=
    parse_timerLine isTimer isName isWord parsed
  obtain ⟨sameKind, -, -, given⟩ := Parse.blockArguments_keeps rest
  have declared : BlockKind.ofName? decl.kind = some (.timer timer) := by
    rw [sameKind]
    cases keyed <;> exact isTimer
  refine ⟨value, scanned, ?_, ?_⟩
  · rintro (plain | whole)
    · subst plain
      refine delays_of_toCircuit declared ?_ translated
      rw [BlockDecl.delay?, given value rfl]
      rfl
    · rw [whole, show tokensAt next [] = .ends next from rfl, Parse.blockArguments_ends] at rest
      cases rest
      refine delays_of_toCircuit declared ?_ translated
      cases keyed <;> rfl
  · split
    next whole =>
      have parts := splits_takeNumber word.toList
      rw [whole, List.append_nil] at parts
      rwa [parts, String.ofList_toList] at scanned
    next more =>
      by_contra reads
      refine more (takeNumber_of_readQuantity? (isBlank_of_isWord isWord) ?_ ?_)
      · rw [String.ofList_toList]
        exact Option.isSome_iff_ne_none.mpr reads
      · rw [scanned]
        rfl

end

theorem half_whole : ∃ diagram circuit,
    parse (timerLine "TIMER-ON" "T1" true "500ms") = .ok diagram ∧
    diagram.toCircuit = .ok circuit ∧
    ∃ value, readQuantity? "500ms" = some value ∧ circuit.delays = [.ofFloat value] := by
  have isTimer : BlockKind.ofName? "TIMER-ON" = some (.timer .on) := by decide +kernel
  have isName : IsName "T1".toList := ⟨'T', ['1'], rfl, by decide, by decide⟩
  have isWord : IsNumberWord "500ms" := ⟨⟨'5', "00ms".toList, rfl, by decide⟩, by decide⟩
  have accepted : (circuitOf? (timerLine "TIMER-ON" "T1" true "500ms")).isSome := by
    decide +kernel
  obtain ⟨circuit, made⟩ := Option.isSome_iff_exists.mp accepted
  obtain ⟨diagram, parsed, translated⟩ := circuitOf?_eq_some made
  obtain ⟨value, _, delays, reads⟩ := delay_timerLine isTimer isName isWord parsed translated
  have whole : (takeNumber "500ms".toList).2 = [] := by decide
  rw [if_pos whole] at reads
  exact ⟨diagram, circuit, parsed, translated, value, reads, delays (Or.inr whole)⟩

/-- Five minutes are taken for five milliseconds, though their word stands for no number. -/
theorem minutes_split : ∃ diagram circuit, BlockKind.ofName? "TIMER-ON" = some (.timer .on) ∧
    IsName "T1".toList ∧ IsNumberWord "5min" ∧
    parse (timerLine "TIMER-ON" "T1" false "5min") = .ok diagram ∧
    diagram.toCircuit = .ok circuit ∧ circuit.delays = [⟨0x3ba3d70a⟩] ∧
    readQuantity? "5min" = none := by
  have isTimer : BlockKind.ofName? "TIMER-ON" = some (.timer .on) := by decide +kernel
  have isName : IsName "T1".toList := ⟨'T', ['1'], rfl, by decide, by decide⟩
  have isWord : IsNumberWord "5min" := ⟨⟨'5', "min".toList, rfl, by decide⟩, by decide⟩
  have accepted : (circuitOf? (timerLine "TIMER-ON" "T1" false "5min")).map Circuit.delays =
      some [⟨0x3ba3d70a⟩] := by
    decide +kernel
  obtain ⟨circuit, made, delays⟩ := Option.map_eq_some_iff.mp accepted
  obtain ⟨diagram, parsed, translated⟩ := circuitOf?_eq_some made
  exact ⟨diagram, circuit, isTimer, isName, isWord, parsed, translated, delays, by decide +kernel⟩

end Diagram

end RelayLogic
