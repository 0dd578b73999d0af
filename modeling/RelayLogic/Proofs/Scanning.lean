import RelayLogic.Diagram.Quantity
import RelayLogic.Proofs.Splitting

/-!
Numbers and how far they are scanned. What reads as a quantity is scanned to its end, unless it is
an infinity or a NaN with a sign, of which the sign is scanned alone.
-/

namespace RelayLogic.Diagram

section

variable {accepts : Char → Bool} {first second tail : List Char → List Char × List Char}
  {taken more rest : List Char}

theorem takeWhile_none (stop : ∀ char ∈ rest.head?, accepts char = false) :
    (rest.takeWhile accepts, rest.dropWhile accepts) = ([], rest) := by
  cases rest with
  | nil => rfl
  | cons char rest => simp [stop char rfl]

theorem takeWhile_append (all : ∀ char ∈ taken, accepts char)
    (stop : ∀ char ∈ rest.head?, accepts char = false) :
    ((taken ++ rest).takeWhile accepts, (taken ++ rest).dropWhile accepts) = (taken, rest) := by
  obtain ⟨one, other⟩ := Prod.mk.inj (takeWhile_none stop)
  rw [List.takeWhile_append_of_pos all, List.dropWhile_append_of_pos all, one, other,
    List.append_nil]

theorem takeOne_none (stop : ∀ char ∈ rest.head?, accepts char = false) :
    takeOne accepts rest = ([], rest) := by
  cases rest with
  | nil => rfl
  | cons char rest => simp [takeOne, stop char rfl]

theorem takeMarked_none (stop : ∀ char ∈ rest.head?, accepts char = false) :
    takeMarked accepts tail rest = ([], rest) := by
  cases rest with
  | nil => rfl
  | cons char rest => simp [takeMarked, stop char rfl]

theorem takeMarked_some {mark : Char} (marks : accepts mark)
    (onward : tail (taken ++ rest) = (taken, rest)) :
    takeMarked accepts tail (mark :: (taken ++ rest)) = (mark :: taken, rest) := by
  simp [takeMarked, marks, onward]

theorem takeBoth_eq {text middle : List Char} (one : first text = (taken, middle))
    (other : second middle = (more, rest)) :
    takeBoth first second text = (taken ++ more, rest) := by
  simp only [takeBoth, one, other]

end

def units : List (List Char) :=
  [[], ['s'], ['u'], ['m'], ['k'], ['u', 's'], ['m', 's'], ['k', 's']]

def SignPart (text : List Char) : Prop :=
  text ∈ [[], ['-'], ['+']]

def AllDigits (text : List Char) : Prop :=
  ∀ char ∈ text, char.isDigit

def FractionPart (text : List Char) : Prop :=
  text = [] ∨ ∃ digits, AllDigits digits ∧ text = '.' :: digits

def ExponentPart (text : List Char) : Prop :=
  text = [] ∨ ∃ mark sign digits, isExponentMark mark ∧ SignPart sign ∧ AllDigits digits ∧
    digits ≠ [] ∧ text = mark :: (sign ++ digits)

def Starts (marks : List Char) (text : List Char) : Prop :=
  ∀ char ∈ text.head?, char ∈ marks

theorem Starts.append {marks front back : List Char} (one : Starts marks front)
    (other : Starts marks back) : Starts marks (front ++ back) := by
  cases front with
  | nil => exact other
  | cons char front => exact one

theorem Starts.mono {marks more text : List Char} (starts : Starts marks text)
    (subset : marks.all more.contains) : Starts more text :=
  fun char head => List.contains_iff_mem.mp (List.all_eq_true.mp subset char (starts char head))

theorem Starts.stop {marks text : List Char} {accepts : Char → Bool} (starts : Starts marks text)
    (refused : marks.all (!accepts ·)) : ∀ char ∈ text.head?, accepts char = false := by
  intro char head
  simpa using List.all_eq_true.mp refused char (starts char head)

def unitMarks : List Char := ['u', 'm', 'k', 's']

def exponentMarks : List Char := 'e' :: 'E' :: unitMarks

def fractionMarks : List Char := '.' :: exponentMarks

theorem starts_unit : ∀ unit ∈ units, Starts unitMarks unit := by
  simp [units, Starts, unitMarks]

theorem starts_exponent {exponent unit : List Char} (isExponent : ExponentPart exponent)
    (isUnit : unit ∈ units) : Starts exponentMarks (exponent ++ unit) := by
  have later : Starts exponentMarks unit := (starts_unit unit isUnit).mono (by decide)
  obtain rfl | ⟨mark, sign, digits, marks, _, _, _, rfl⟩ := isExponent
  · exact later
  · refine Starts.append (fun char head => ?_) later
    obtain rfl : mark = char := by simpa using head
    have either : mark = 'e' ∨ mark = 'E' := by simpa [isExponentMark] using marks
    obtain rfl | rfl := either <;> decide

theorem starts_fraction {fraction exponent unit : List Char} (isFraction : FractionPart fraction)
    (isExponent : ExponentPart exponent) (isUnit : unit ∈ units) :
    Starts fractionMarks (fraction ++ (exponent ++ unit)) := by
  have later : Starts fractionMarks (exponent ++ unit) :=
    (starts_exponent isExponent isUnit).mono (by decide)
  obtain rfl | ⟨digits, _, rfl⟩ := isFraction
  · exact later
  · refine Starts.append (fun char head => ?_) later
    obtain rfl : '.' = char := by simpa using head
    decide

theorem isSign_of_isDigit {char : Char} (digit : char.isDigit) : isSign char = false := by
  by_contra sign
  have either : char = '-' ∨ char = '+' := by simpa only [isSign, Bool.or_eq_true,
    decide_eq_true_eq, Bool.not_eq_false] using sign
  obtain rfl | rfl := either <;> contradiction

theorem takeOne_sign {sign rest : List Char} (isSignPart : SignPart sign)
    (stop : ∀ char ∈ rest.head?, isSign char = false) :
    takeOne isSign (sign ++ rest) = (sign, rest) := by
  have cases : sign = [] ∨ sign = ['-'] ∨ sign = ['+'] := by simpa [SignPart] using isSignPart
  obtain rfl | rfl | rfl := cases
  · exact takeOne_none stop
  · rfl
  · rfl

theorem takeUnit_unit : ∀ unit ∈ units, takeUnit unit = (unit, []) := by
  decide

theorem takeExponent {exponent unit : List Char} (isExponent : ExponentPart exponent)
    (isUnit : unit ∈ units) :
    takeMarked isExponentMark (takeBoth (takeOne isSign) takeDigits) (exponent ++ unit) =
      (exponent, unit) := by
  have starts := starts_unit unit isUnit
  obtain rfl | ⟨mark, sign, digits, marks, isSignPart, all, some, rfl⟩ := isExponent
  · exact takeMarked_none (starts.stop (by decide))
  · have noSign : ∀ char ∈ (digits ++ unit).head?, isSign char = false := by
      cases digits with
      | nil => contradiction
      | cons char digits =>
          intro first head
          obtain rfl : char = first := by simpa using head
          exact isSign_of_isDigit (all char List.mem_cons_self)
    refine takeMarked_some marks ?_
    rw [List.append_assoc]
    exact takeBoth_eq (takeOne_sign isSignPart noSign)
      (takeWhile_append all (starts.stop (by decide)))

theorem takeFraction {fraction rest : List Char} (isFraction : FractionPart fraction)
    (starts : Starts exponentMarks rest) :
    takeMarked (· = '.') takeDigits (fraction ++ rest) = (fraction, rest) := by
  obtain rfl | ⟨digits, all, rfl⟩ := isFraction
  · exact takeMarked_none (starts.stop (by decide))
  · exact takeMarked_some (by simp) (takeWhile_append all (starts.stop (by decide)))

/-- A number is scanned to its end. -/
theorem takeNumber_parts {sign whole fraction exponent unit : List Char}
    (isSignPart : SignPart sign) (all : AllDigits whole) (isFraction : FractionPart fraction)
    (isExponent : ExponentPart exponent) (isUnit : unit ∈ units) :
    takeNumber (sign ++ (whole ++ (fraction ++ (exponent ++ unit)))) =
      (sign ++ (whole ++ (fraction ++ (exponent ++ unit))), []) := by
  have exponentStarts := starts_exponent isExponent isUnit
  have fractionStarts := starts_fraction isFraction isExponent isUnit
  have noSign : ∀ char ∈ (whole ++ (fraction ++ (exponent ++ unit))).head?,
      isSign char = false := by
    cases whole with
    | nil => exact fractionStarts.stop (by decide)
    | cons digit whole =>
        intro first head
        obtain rfl : digit = first := by simpa using head
        exact isSign_of_isDigit (all digit List.mem_cons_self)
  refine takeBoth_eq (takeOne_sign isSignPart noSign) ?_
  refine takeBoth_eq (takeWhile_append all (fractionStarts.stop (by decide))) ?_
  refine takeBoth_eq (takeFraction isFraction exponentStarts) ?_
  exact takeBoth_eq (takeExponent isExponent isUnit) (takeUnit_unit unit isUnit)

theorem takeSign_cases (text : List Char) :
    ∃ sign, SignPart sign ∧ text = sign ++ (Decimal.takeSign text).2 := by
  rw [Decimal.takeSign.eq_def]
  split
  · exact ⟨['-'], by simp [SignPart], rfl⟩
  · exact ⟨['+'], by simp [SignPart], rfl⟩
  · exact ⟨[], by simp [SignPart], rfl⟩

theorem readExponent?_part {text : List Char} (read : (Decimal.readExponent? text).isSome) :
    ExponentPart text := by
  cases text with
  | nil => exact Or.inl rfl
  | cons mark rest =>
      rw [Decimal.readExponent?] at read
      obtain ⟨sign, isSignPart, parts⟩ := takeSign_cases rest
      split at read
      next marks =>
        dsimp only at read
        split at read
        · contradiction
        next digits =>
          simp only [Bool.or_eq_true, not_or, List.isEmpty_iff, Bool.not_eq_true',
            Bool.not_eq_false] at digits
          exact Or.inr ⟨mark, sign, _, marks, isSignPart, List.all_eq_true.mp digits.2, digits.1,
            congrArg (mark :: ·) parts⟩
      next => contradiction

theorem isSome_of_bind {value : Option α} {next : α → Option β} (some : (value >>= next).isSome) :
    value.isSome := by
  cases value with
  | none => contradiction
  | some value => rfl

theorem readMagnitude?_parts {text : List Char} (read : (Decimal.readMagnitude? text).isSome) :
    ∃ whole fraction exponent, AllDigits whole ∧ FractionPart fraction ∧ ExponentPart exponent ∧
      text = whole ++ (fraction ++ exponent) := by
  have all (text : List Char) : AllDigits (text.takeWhile Char.isDigit) :=
    List.all_eq_true.mp List.all_takeWhile
  have parts (text : List Char) := text.takeWhile_append_dropWhile (p := Char.isDigit)
  rw [Decimal.readMagnitude?] at read
  split at read
  next digits behind cut =>
    have isExponent : ExponentPart behind := by
      split at read
      · contradiction
      · exact readExponent?_part (isSome_of_bind read)
    split at cut
    next tail point =>
      cases cut
      exact ⟨_, '.' :: tail.takeWhile Char.isDigit, _, all text, Or.inr ⟨_, all tail, rfl⟩,
        isExponent, by rw [List.cons_append, parts, ← point, parts]⟩
    next =>
      cases cut
      exact ⟨_, [], _, all text, Or.inl rfl, isExponent, (parts text).symm⟩

def Worded (text : List Char) : Prop :=
  ∃ char rest, text = char :: rest ∧ (char.toLower = 'i' ∨ char.toLower = 'n')

theorem read?_parts {text : List Char} (read : (Decimal.read? text).isSome) :
    ∃ sign rest, SignPart sign ∧ text = sign ++ rest ∧
      ((Decimal.readMagnitude? rest).isSome ∨ Worded rest) := by
  obtain ⟨sign, isSignPart, parts⟩ := takeSign_cases text
  refine ⟨sign, _, isSignPart, parts, ?_⟩
  rw [Decimal.read?] at read
  dsimp only at read
  rw [Option.isSome_map] at read
  have lettered : ∀ name : String, name.toList.head? ∈ [some 'i', some 'n'] →
      String.ofList ((Decimal.takeSign text).2.map Char.toLower) = name →
        Worded (Decimal.takeSign text).2 := by
    rintro name letter rfl
    rw [String.toList_ofList] at letter
    cases shape : (Decimal.takeSign text).2 with
    | nil => simp [shape] at letter
    | cons char rest => exact ⟨char, rest, rfl, by simpa [shape] using letter⟩
  split at read
  next name => exact Or.inr (lettered "inf" (by decide) name)
  next name => exact Or.inr (lettered "infinity" (by decide) name)
  next name => exact Or.inr (lettered "nan" (by decide) name)
  next => exact Or.inl read

theorem trim_of_plain {text : List Char} (plain : ∀ char ∈ text, Text.isBlank char = false) :
    Text.trim text = text := by
  have kept : ∀ text : List Char, (∀ char ∈ text, Text.isBlank char = false) →
      text.dropWhile Text.isBlank = text := by
    intro text plain
    cases text with
    | nil => rfl
    | cons char rest => simp [plain char List.mem_cons_self]
  rw [Text.trim, kept text plain, kept _ fun char member => plain char (List.mem_reverse.mp member),
    List.reverse_reverse]

theorem dropSeconds_cases (text : List Char) :
    ∃ seconds, (seconds = [] ∨ seconds = ['s']) ∧ text = dropSeconds text ++ seconds := by
  rw [dropSeconds]
  split
  next last =>
    have some : text ≠ [] := by
      rintro rfl
      contradiction
    refine ⟨['s'], Or.inr rfl, ?_⟩
    have letter := List.getLast?_eq_some_getLast some
    rw [last] at letter
    rw [Option.some.inj letter, List.dropLast_append_getLast some]
  next => exact ⟨[], Or.inl rfl, (List.append_nil text).symm⟩

theorem scaleFactor?_cases {scale : Char} {factor : Float}
    (scales : scaleFactor? scale = some factor) :
    scale = 'u' ∨ scale = 'm' ∨ scale = 'k' := by
  unfold scaleFactor? at scales
  split at scales
  · exact Or.inl rfl
  · exact Or.inr (Or.inl rfl)
  · exact Or.inr (Or.inr rfl)
  · contradiction

theorem readQuantity?_parts {word : List Char} (plain : ∀ char ∈ word, Text.isBlank char = false)
    (read : (readQuantity? (String.ofList word)).isSome) :
    ∃ bare unit, unit ∈ units ∧ word = bare ++ unit ∧ (Decimal.read? bare).isSome := by
  rw [readQuantity?, String.toList_ofList, trim_of_plain plain] at read
  obtain ⟨seconds, isSeconds, parts⟩ := dropSeconds_cases word
  split at read
  next factor found =>
    obtain ⟨scale, last, scales⟩ := Option.bind_eq_some_iff.mp found
    obtain ⟨front, shape⟩ := List.getLast?_eq_some_iff.mp last
    rw [shape, List.dropLast_concat, Option.isSome_map] at read
    refine ⟨front, scale :: seconds, ?_, ?_, read⟩
    · obtain rfl | rfl | rfl := scaleFactor?_cases scales <;>
        obtain rfl | rfl := isSeconds <;> decide
    · rw [parts, shape, List.append_assoc]
      rfl
  next =>
    refine ⟨dropSeconds word, seconds, ?_, parts, read⟩
    obtain rfl | rfl := isSeconds <;> decide

theorem toLower_of_isDigit {char : Char} (digit : char.isDigit) : char.toLower = char := by
  have bounds := Char.isDigit_iff_toNat.mp digit
  refine dif_neg ?_
  rintro ⟨low, _⟩
  have above : 65 ≤ char.toNat := low
  have below : char.toNat ≤ 57 := bounds.2
  omega

theorem takeNumber_worded {sign rest : List Char} (isSignPart : SignPart sign)
    (worded : Worded rest) : takeNumber (sign ++ rest) = (sign, rest) := by
  obtain ⟨char, rest, rfl, letter⟩ := worded
  have apart : ∀ other : Char, other.toLower ≠ 'i' ∧ other.toLower ≠ 'n' → char ≠ other := by
    rintro other ⟨notI, notN⟩ rfl
    exact letter.elim notI notN
  have notDigit : char.isDigit = false := by
    by_contra digit
    rw [toLower_of_isDigit (by simpa using digit)] at letter
    obtain rfl | rfl := letter <;> exact absurd digit (by decide)
  have noSign : isSign char = false := by
    simp [isSign, apart '-' (by decide), apart '+' (by decide)]
  have noPoint : char ≠ '.' := apart '.' (by decide)
  have noExponent : isExponentMark char = false := by
    simp [isExponentMark, apart 'e' (by decide), apart 'E' (by decide)]
  have noUnit : takeUnit (char :: rest) = ([], char :: rest) := by
    have notSecond : char ≠ 's' := apart 's' (by decide)
    simp [takeUnit, takeMarked, isScale, apart 'u' (by decide), apart 'm' (by decide),
      apart 'k' (by decide), notSecond]
  have parts : takeNumber (sign ++ char :: rest) =
      (sign ++ ([] ++ ([] ++ ([] ++ []))), char :: rest) := by
    refine takeBoth_eq (takeOne_sign isSignPart (by simpa using noSign)) ?_
    refine takeBoth_eq (takeWhile_none (by simpa using notDigit)) ?_
    refine takeBoth_eq (takeMarked_none (by simpa using noPoint)) ?_
    exact takeBoth_eq (takeMarked_none (by simpa using noExponent)) noUnit
  simpa using parts

theorem readQuantity?_sign {sign : List Char} (isSignPart : SignPart sign) :
    readQuantity? (String.ofList sign) = none := by
  have cases : sign = [] ∨ sign = ['-'] ∨ sign = ['+'] := by simpa [SignPart] using isSignPart
  obtain rfl | rfl | rfl := cases <;> rfl

/-- What reads as a quantity is scanned to its end if what is scanned of it reads as one. -/
theorem takeNumber_of_readQuantity? {word : List Char}
    (plain : ∀ char ∈ word, Text.isBlank char = false)
    (read : (readQuantity? (String.ofList word)).isSome)
    (readScanned : (readQuantity? (String.ofList (takeNumber word).1)).isSome) :
    (takeNumber word).2 = [] := by
  obtain ⟨bare, unit, isUnit, rfl, readBare⟩ := readQuantity?_parts plain read
  obtain ⟨sign, rest, isSignPart, rfl, magnitude | worded⟩ := read?_parts readBare
  · obtain ⟨whole, fraction, exponent, all, isFraction, isExponent, rfl⟩ :=
      readMagnitude?_parts magnitude
    rw [List.append_assoc, List.append_assoc, List.append_assoc,
      takeNumber_parts isSignPart all isFraction isExponent isUnit]
  · have onward : Worded (rest ++ unit) := by
      obtain ⟨char, rest, rfl, letter⟩ := worded
      exact ⟨char, rest ++ unit, rfl, letter⟩
    rw [List.append_assoc, takeNumber_worded isSignPart onward,
      readQuantity?_sign isSignPart] at readScanned
    contradiction

def IsName (text : List Char) : Prop :=
  ∃ first rest, text = first :: rest ∧ (Text.isAlphabetic first || decide (first = '_')) ∧
    rest.all isNameRest

theorem le_of_letter {char : Char} (letter : Text.isAlphabetic char || decide (char = '_')) :
    65 ≤ char.toNat := by
  by_contra low
  have notLetter : Text.isAlphabetic char = false :=
    if_pos (show char.toNat < 0x41 by omega)
  have notMark : char ≠ '_' := by
    rintro rfl
    exact low (by decide)
  simp [notLetter, notMark] at letter

theorem ne_of_letter {char other : Char}
    (letter : Text.isAlphabetic char || decide (char = '_')) (low : other.toNat < 65) :
    char ≠ other := by
  rintro rfl
  have bound := le_of_letter letter
  omega

theorem scan_name {name behind : List Char} (isName : IsName name)
    (stop : ∀ char ∈ behind.head?, isNameRest char = false) :
    scan (name ++ behind) = .lexeme .identifier name behind := by
  obtain ⟨first, rest, rfl, letter, all⟩ := isName
  have bound := le_of_letter letter
  have taken : takeName (first :: (rest ++ behind)) = (first :: rest, behind) := by
    obtain ⟨one, other⟩ := Prod.mk.inj (takeWhile_append (List.all_eq_true.mp all) stop)
    rw [takeName, if_pos (isNameStart_of_isAlphabetic letter), one, other]
  have notNumber : (isSign first || first.isDigit) = false := by
    have notDigit : first.isDigit = false := by
      by_contra digit
      have below : first.toNat ≤ 57 := (Char.isDigit_iff_toNat.mp (by simpa using digit)).2
      omega
    have notMinus := ne_of_letter letter (show '-'.toNat < 65 by decide)
    have notPlus := ne_of_letter letter (show '+'.toNat < 65 by decide)
    simp [isSign, notDigit, notMinus, notPlus]
  simp only [List.cons_append, scan]
  split
  iterate 5 exact absurd bound (by decide)
  rw [notNumber, letter, taken]
  rfl

theorem takeGap_none {first : Char} (stays : (isSpace first || isCommentMark first) = false)
    (rest : List Char) : takeGap false (first :: rest) = ([], first :: rest) := by
  rw [takeGap, stays]
  rfl

theorem takeGap_name {name : List Char} (isName : IsName name) (behind : List Char) :
    takeGap false (name ++ behind) = ([], name ++ behind) := by
  obtain ⟨first, rest, rfl, letter, _⟩ := isName
  have stays : ∀ other ∈ [' ', '\t', '\r', '#', ';'], first ≠ other := by
    have low : [' ', '\t', '\r', '#', ';'].all (·.toNat < 65) := by decide
    intro other member
    exact ne_of_letter letter (of_decide_eq_true (List.all_eq_true.mp low other member))
  refine takeGap_none ?_ _
  simpa [isSpace, isCommentMark, and_assoc] using stays

theorem scan_number {first : Char} (starts : isSign first || first.isDigit) (rest : List Char) :
    scan (first :: rest) =
      .lexeme .number (takeNumber (first :: rest)).1 (takeNumber (first :: rest)).2 := by
  simp only [scan]
  split
  iterate 5 exact absurd starts (by decide)
  rw [if_pos starts]

theorem exists_range {ranges : Text.Ranges} {code : Nat} (contains : ranges.contains code) :
    ∃ range ∈ ranges, range.1 ≤ code ∧ code ≤ range.2 := by
  induction ranges with
  | nil => contradiction
  | cons range ranges ih =>
      obtain ⟨low, high⟩ := range
      rw [Text.Ranges.contains] at contains
      split at contains
      · contradiction
      next above =>
        rcases Bool.or_eq_true_iff.mp contains with within | later
        · exact ⟨(low, high), List.mem_cons_self, by simpa using above, by simpa using within⟩
        · obtain ⟨range, member, within⟩ := ih later
          exact ⟨range, List.mem_cons_of_mem _ member, within⟩

theorem isBlank_of_isAlphanumeric {char : Char} (word : Text.isAlphanumeric char) :
    Text.isBlank char = false := by
  have apart : ((Text.alphabeticRanges ++ Text.numericRanges).all fun one =>
      Text.blankRanges.all fun other => Nat.blt one.2 other.1 || Nat.blt other.2 one.1) := by
    decide +kernel
  by_contra blank
  have contained : Text.blankRanges.contains char.toNat := (Bool.not_eq_false _).mp blank
  obtain ⟨other, isBlank, otherLow, otherHigh⟩ := exists_range contained
  have listed : ∃ range ∈ Text.alphabeticRanges ++ Text.numericRanges,
      range.1 ≤ char.toNat ∧ char.toNat ≤ range.2 := by
    rcases Bool.or_eq_true_iff.mp word with alphabetic | numeric
    · obtain ⟨range, member, within⟩ := exists_range alphabetic
      exact ⟨range, List.mem_append_left _ member, within⟩
    · obtain ⟨range, member, within⟩ := exists_range numeric
      exact ⟨range, List.mem_append_right _ member, within⟩
  obtain ⟨one, member, oneLow, oneHigh⟩ := listed
  have disjoint := List.all_eq_true.mp (List.all_eq_true.mp apart one member) other isBlank
  rw [Bool.or_eq_true, Nat.blt_eq, Nat.blt_eq] at disjoint
  omega

end RelayLogic.Diagram
