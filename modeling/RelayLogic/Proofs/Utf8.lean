import RelayLogic.Text.Utf8
import Mathlib.Tactic.IntervalCases

/-!
Text comes back from the bytes that encode it. Each character is read from its own bytes alone,
whatever follows them.
-/

namespace RelayLogic.Text

def decoded (char : Nat) (rest : Except Utf8Error (List Char)) : Except Utf8Error (List Char) := do
  let chars ← rest
  return Char.ofNat char :: chars

theorem toNat_ofNat {number : Nat} (small : number < 256) : (UInt8.ofNat number).toNat = number := by
  simp only [UInt8.toNat_ofNat']
  omega

theorem decode_inner {char : PartialChar} {offset low : Nat} {rest : List UInt8}
    (above : char.low.toNat ≤ low + 0x80) (below : low + 0x80 ≤ char.high.toNat)
    (small : low < 64) (more : 2 ≤ char.owed) :
    decodeUtf8From offset (some char) (UInt8.ofNat (low + 0x80) :: rest) =
      decodeUtf8From (offset + 1) (some ⟨char.start, char.taken + 1, char.owed - 1, 0x80, 0xBF,
        char.code * 64 + low⟩) rest := by
  have number := toNat_ofNat (show low + 0x80 < 256 by omega)
  have admitted : (char.low ≤ UInt8.ofNat (low + 0x80) &&
      UInt8.ofNat (low + 0x80) ≤ char.high) = true := by
    simp only [UInt8.le_iff_toNat_le, number, above, below, decide_true, Bool.and_self]
  have owed : char.owed - 1 ≠ 0 := by omega
  simp only [decodeUtf8From, admitted, ↓reduceIte, PartialChar.extend, owed, number,
    Nat.add_sub_cancel]

theorem decode_last {char : PartialChar} {offset low : Nat} {rest : List UInt8}
    (above : char.low.toNat ≤ low + 0x80) (below : low + 0x80 ≤ char.high.toNat)
    (small : low < 64) (last : char.owed = 1) :
    decodeUtf8From offset (some char) (UInt8.ofNat (low + 0x80) :: rest) =
      decoded (char.code * 64 + low) (decodeUtf8From (offset + 1) none rest) := by
  have number := toNat_ofNat (show low + 0x80 < 256 by omega)
  have admitted : (char.low ≤ UInt8.ofNat (low + 0x80) &&
      UInt8.ofNat (low + 0x80) ≤ char.high) = true := by
    simp only [UInt8.le_iff_toNat_le, number, above, below, decide_true, Bool.and_self]
  simp only [decodeUtf8From, admitted, ↓reduceIte, PartialChar.extend, last, number,
    Nat.add_sub_cancel, decoded]

theorem decode_lead {offset lead : Nat} {char : PartialChar} {rest : List UInt8}
    (above : 0x80 ≤ lead) (small : lead < 256)
    (starts : PartialChar.ofLead? offset (UInt8.ofNat lead) = some char) :
    decodeUtf8From offset none (UInt8.ofNat lead :: rest) =
      decodeUtf8From (offset + 1) (some char) rest := by
  have notAscii : ¬UInt8.ofNat lead < 0x80 := by
    rw [UInt8.lt_iff_toNat_lt, toNat_ofNat small]
    exact Nat.not_lt.mpr above
  simp only [decodeUtf8From, notAscii, ↓reduceIte, starts]

theorem ofLead_two {start high : Nat} (above : 2 ≤ high) (small : high < 32) :
    PartialChar.ofLead? start (UInt8.ofNat (high + 0xC0)) =
      some ⟨start, 1, 1, 0x80, 0xBF, high⟩ := by
  have number := toNat_ofNat (show high + 0xC0 < 256 by omega)
  have first : (0xC2 ≤ UInt8.ofNat (high + 0xC0) && UInt8.ofNat (high + 0xC0) ≤ 0xDF) = true := by
    simp only [UInt8.le_iff_toNat_le, number, Bool.and_eq_true, decide_eq_true_eq]
    exact ⟨by simpa using above, show high + 0xC0 ≤ 0xDF by omega⟩
  simp only [PartialChar.ofLead?, first, ↓reduceIte, number, Nat.add_sub_cancel]

theorem ofLead_three (start : Nat) {high : Nat} (small : high < 16) :
    ∃ low most : UInt8, PartialChar.ofLead? start (UInt8.ofNat (high + 0xE0)) =
        some ⟨start, 1, 2, low, most, high⟩ ∧
      (low.toNat = if high = 0 then 0xA0 else 0x80) ∧
      (most.toNat = if high = 0xD then 0x9F else 0xBF) := by
  interval_cases high <;> exact ⟨_, _, rfl, rfl, rfl⟩

theorem ofLead_four (start : Nat) {high : Nat} (small : high < 5) :
    ∃ low most : UInt8, PartialChar.ofLead? start (UInt8.ofNat (high + 0xF0)) =
        some ⟨start, 1, 3, low, most, high⟩ ∧
      (low.toNat = if high = 0 then 0x90 else 0x80) ∧
      (most.toNat = if high = 4 then 0x8F else 0xBF) := by
  interval_cases high <;> exact ⟨_, _, rfl, rfl, rfl⟩

theorem decode_char (offset : Nat) (char : Char) (rest : List UInt8) :
    decodeUtf8From offset none (String.utf8EncodeChar char ++ rest) =
      decoded char.toNat (decodeUtf8From (offset + (String.utf8EncodeChar char).length) none
        rest) := by
  have valid : char.toNat < 0xD800 ∨ 0xDFFF < char.toNat ∧ char.toNat < 0x110000 := char.valid
  have same : char.val.toNat = char.toNat := rfl
  simp only [String.utf8EncodeChar, same]
  generalize char.toNat = code at valid
  split
  case isTrue one =>
    have number := toNat_ofNat (show code < 256 by omega)
    have ascii : UInt8.ofNat code < 0x80 := by
      rw [UInt8.lt_iff_toNat_lt, number]
      exact Nat.lt_succ_of_le one
    simp only [List.singleton_append, decodeUtf8From, ascii, ↓reduceIte, number, decoded]
    rfl
  case isFalse notOne =>
    split
    case isTrue two =>
      have high : code / 64 % 0x20 = code / 64 := by omega
      have starts : PartialChar.ofLead? offset (UInt8.ofNat (code / 64 + 0xC0)) = _ :=
        ofLead_two (by omega) (by omega)
      rw [high]
      simp only [List.cons_append, List.nil_append]
      rw [decode_lead (by omega) (by omega) starts,
        decode_last (Nat.le_add_left _ _) (show code % 64 + 0x80 ≤ 0xBF by omega) (by omega) rfl]
      have whole : code / 64 * 64 + code % 64 = code := by omega
      rw [whole]
      rfl
    case isFalse notTwo =>
      have third : code % 64 + 0x80 ≤ 0xBF := by omega
      have second : code / 64 % 64 + 0x80 ≤ 0xBF := by omega
      split
      case isTrue three =>
        have high : code / 4096 % 0x10 = code / 4096 := by omega
        obtain ⟨low, most, starts, lowest, highest⟩ :=
          ofLead_three offset (show code / 4096 < 16 by omega)
        have above : low.toNat ≤ code / 64 % 64 + 0x80 := by
          rw [lowest]
          split <;> omega
        have below : code / 64 % 64 + 0x80 ≤ most.toNat := by
          rw [highest]
          split <;> omega
        rw [high]
        simp only [List.cons_append, List.nil_append]
        rw [decode_lead (by omega) (by omega) starts,
          decode_inner above below (by omega) (Nat.le_refl 2),
          decode_last (Nat.le_add_left _ _) third (by omega) rfl]
        have whole : (code / 4096 * 64 + code / 64 % 64) * 64 + code % 64 = code := by omega
        rw [whole]
        rfl
      case isFalse notThree =>
        have high : code / 262144 % 0x08 = code / 262144 := by omega
        obtain ⟨low, most, starts, lowest, highest⟩ :=
          ofLead_four offset (show code / 262144 < 5 by omega)
        have above : low.toNat ≤ code / 4096 % 64 + 0x80 := by
          rw [lowest]
          split <;> omega
        have below : code / 4096 % 64 + 0x80 ≤ most.toNat := by
          rw [highest]
          split <;> omega
        rw [high]
        simp only [List.cons_append, List.nil_append]
        rw [decode_lead (by omega) (by omega) starts,
          decode_inner above below (by omega) (by simp),
          decode_inner (Nat.le_add_left _ _) second (by omega) (Nat.le_refl 2),
          decode_last (Nat.le_add_left _ _) third (by omega) rfl]
        have whole : ((code / 262144 * 64 + code / 4096 % 64) * 64 + code / 64 % 64) * 64 +
            code % 64 = code := by omega
        rw [whole]
        rfl

theorem decode_chars (chars : List Char) (offset : Nat) :
    decodeUtf8From offset none (chars.flatMap String.utf8EncodeChar) = .ok chars := by
  induction chars generalizing offset with
  | nil => rfl
  | cons char chars ih =>
      rw [List.flatMap_cons, decode_char, ih]
      show Except.ok (Char.ofNat char.toNat :: chars) = _
      rw [Char.ofNat_toNat]

theorem toList_loop (bytes : ByteArray) (index : Nat) (before : List UInt8) :
    ByteArray.toList.loop bytes index before = before.reverse ++ bytes.data.toList.drop index := by
  induction left : bytes.size - index generalizing index before with
  | zero =>
      have beyond : ¬index < bytes.size := by omega
      have none : bytes.data.toList.length ≤ index := by
        rw [Array.length_toList]
        exact Nat.le_of_not_lt beyond
      rw [ByteArray.toList.loop.eq_1, List.drop_eq_nil_of_le none]
      simp only [beyond, ↓reduceIte, List.append_nil]
  | succ left ih =>
      have early : index < bytes.size := by omega
      have bound : index < bytes.data.toList.length := by
        rw [Array.length_toList]
        exact early
      have byte : bytes.get! index = bytes.data.toList[index] := by
        rw [Array.getElem_toList]
        exact getElem!_pos bytes.data index early
      rw [ByteArray.toList.loop.eq_1, List.drop_eq_getElem_cons bound, ← byte]
      simp only [early, ↓reduceIte]
      rw [ih (index + 1) _ (by omega), List.reverse_cons, List.append_assoc]
      rfl

theorem toList_data (bytes : ByteArray) : bytes.toList = bytes.data.toList :=
  toList_loop bytes 0 []

theorem encodeUtf8_eq (text : String) :
    encodeUtf8 text = text.toList.flatMap String.utf8EncodeChar := by
  rw [encodeUtf8, String.toUTF8_eq_toByteArray, ← String.utf8Encode_toList, List.utf8Encode,
    toList_data, List.toList_data_toByteArray]

theorem decodeUtf8_encodeUtf8 (text : String) : decodeUtf8 (encodeUtf8 text) = .ok text := by
  rw [decodeUtf8, encodeUtf8_eq, decode_chars]
  show Except.ok (String.ofList text.toList) = _
  rw [String.ofList_toList]

/-- What is known of a character of which bytes are owed: with the bytes owed, its code does not
outgrow its length. -/
structure PartialChar.Fits (char : PartialChar) : Prop where
  high : char.high.toNat ≤ 0xBF
  owed : 0 < char.owed
  taken : 0 < char.taken
  two : char.taken + char.owed = 2 → (char.code + 1) * 64 ^ char.owed ≤ 0x800
  three : char.taken + char.owed = 3 → (char.code + 1) * 64 ^ char.owed ≤ 0x10000

theorem length_encode_ofNat (code : Nat) : (String.utf8EncodeChar (Char.ofNat code)).length ≤
    if code < 0x80 then 1 else if code < 0x800 then 2 else if code < 0x10000 then 3 else 4 := by
  have small : (Char.ofNat code).val.toNat ≤ code := by
    by_cases valid : code.isValidChar
    · rw [show Char.ofNat code = Char.ofNatAux code valid from dif_pos valid]
      exact Nat.le_refl code
    · rw [show Char.ofNat code = _ from dif_neg valid]
      exact Nat.zero_le code
  simp only [String.utf8EncodeChar]
  split
  · simp only [List.length_singleton]
    split_ifs <;> omega
  · split
    · simp only [List.length_cons, List.length_nil]
      split_ifs <;> omega
    · split
      · simp only [List.length_cons, List.length_nil]
        split_ifs <;> omega
      · simp only [List.length_cons, List.length_nil]
        split_ifs <;> omega

theorem PartialChar.fits_ofLead {start : Nat} {lead : UInt8} {char : PartialChar}
    (starts : ofLead? start lead = some char) : char.Fits ∧ char.taken = 1 := by
  have bounds : ∀ {low high : UInt8}, (low ≤ lead && lead ≤ high) = true →
      low.toNat ≤ lead.toNat ∧ lead.toNat ≤ high.toNat := by
    intro low high within
    simpa only [Bool.and_eq_true, decide_eq_true_eq, UInt8.le_iff_toNat_le] using within
  have fits : ∀ {owed : Nat} {low high : UInt8} {code : Nat}, high.toNat ≤ 0xBF → 0 < owed →
      (owed = 1 → code < 32) → (owed = 2 → code < 16) →
        (PartialChar.mk start 1 owed low high code).Fits := by
    intro owed low high code most some two three
    refine ⟨most, some, Nat.one_pos, fun total => ?_, fun total => ?_⟩
    · obtain rfl : owed = 1 := by simp only at total; omega
      have := two rfl
      simp only
      omega
    · obtain rfl : owed = 2 := by simp only at total; omega
      have := three rfl
      simp only
      omega
  unfold ofLead? at starts
  split at starts
  next within =>
    have : lead.toNat ≤ 0xDF := (bounds within).2
    cases starts
    exact ⟨fits (by decide) (by decide) (fun _ => by omega) (by simp), rfl⟩
  next =>
    split at starts
    next =>
      cases starts
      exact ⟨fits (by decide) (by decide) (by simp) (by simp), rfl⟩
    next =>
      split at starts
      next =>
        cases starts
        exact ⟨fits (by decide) (by decide) (by simp) (by simp), rfl⟩
      next =>
        split at starts
        next within =>
          have : lead.toNat ≤ 0xEF := (bounds within).2
          cases starts
          exact ⟨fits (by decide) (by decide) (by simp) (fun _ => by omega), rfl⟩
        next =>
          split at starts
          next =>
            cases starts
            exact ⟨fits (by decide) (by decide) (by simp) (by simp), rfl⟩
          next =>
            split at starts
            next =>
              cases starts
              exact ⟨fits (by decide) (by decide) (by simp) (by simp), rfl⟩
            next =>
              split at starts
              next =>
                cases starts
                exact ⟨fits (by decide) (by decide) (by simp) (by simp), rfl⟩
              next => contradiction

theorem PartialChar.Fits.extend {char : PartialChar} (fits : char.Fits) {byte : UInt8}
    (below : byte ≤ char.high) : ((char.extend byte).code + 1) * 64 ^ (char.owed - 1) ≤
      (char.code + 1) * 64 ^ char.owed := by
  have most := UInt8.le_iff_toNat_le.mp below
  have high := fits.high
  obtain ⟨owed, same⟩ : ∃ owed, char.owed = owed + 1 := ⟨char.owed - 1, by have := fits.owed; omega⟩
  rw [same, Nat.add_sub_cancel, Nat.pow_succ, Nat.mul_comm (64 ^ owed), ← Nat.mul_assoc]
  refine Nat.mul_le_mul_right _ ?_
  simp only [PartialChar.extend]
  omega

theorem length_decoded {bytes : List UInt8} {offset : Nat} {state : Option PartialChar}
    {chars : List Char} (fits : ∀ char ∈ state, char.Fits)
    (decoded : decodeUtf8From offset state bytes = .ok chars) :
    (chars.flatMap String.utf8EncodeChar).length ≤
      bytes.length + (state.map (·.taken)).getD 0 := by
  induction bytes generalizing offset state chars with
  | nil =>
      cases state with
      | none =>
          cases decoded
          simp
      | some char => contradiction
  | cons byte bytes ih =>
      have later : ∀ {code length : Nat},
          (String.utf8EncodeChar (Char.ofNat code)).length ≤ length →
            Text.decoded code (decodeUtf8From (offset + 1) none bytes) = .ok chars →
              (chars.flatMap String.utf8EncodeChar).length ≤ bytes.length + length := by
        intro code length short done
        cases rest : decodeUtf8From (offset + 1) none bytes with
        | error error =>
            rw [rest] at done
            contradiction
        | ok others =>
            rw [rest] at done
            cases done
            have before := ih (by simp) rest
            simp only [List.flatMap_cons, List.length_append, Option.map_none,
              Option.getD_none] at before ⊢
            omega
      cases state with
      | none =>
          simp only [decodeUtf8From] at decoded
          split at decoded
          next ascii =>
            refine later ?_ decoded
            have small : byte.toNat < 0x80 := UInt8.lt_iff_toNat_lt.mp ascii
            simpa [small] using length_encode_ofNat byte.toNat
          next =>
            split at decoded
            next char starts =>
              obtain ⟨charFits, first⟩ := PartialChar.fits_ofLead starts
              have rest := ih (fun other same => Option.some.inj same ▸ charFits) decoded
              simpa [first] using rest
            next => contradiction
      | some char =>
          have known := fits char rfl
          simp only [decodeUtf8From] at decoded
          split at decoded
          next within =>
            simp only [Bool.and_eq_true, decide_eq_true_eq] at within
            have grown := known.extend within.2
            have owed := known.owed
            have longer : (char.extend byte).owed = char.owed - 1 := rfl
            have total : 0 < char.owed →
                (char.extend byte).taken + (char.extend byte).owed = char.taken + char.owed := by
              simp only [PartialChar.extend]
              omega
            split at decoded
            next last =>
              have one : char.owed = 1 := by omega
              have short : (String.utf8EncodeChar (Char.ofNat (char.extend byte).code)).length ≤
                  char.taken + 1 := by
                refine (length_encode_ofNat _).trans ?_
                have two := known.two
                have three := known.three
                have taken := known.taken
                rw [one] at grown two three
                split_ifs <;> omega
              have whole := later short decoded
              simp only [Option.map_some, Option.getD_some, List.length_cons]
              omega
            next more =>
              have charFits : (char.extend byte).Fits :=
                ⟨Nat.le_refl 0xBF, by omega, Nat.succ_pos _,
                  fun whole => grown.trans (known.two ((total owed).symm.trans whole)),
                  fun whole => grown.trans (known.three ((total owed).symm.trans whole))⟩
              have rest := ih (fun other same => Option.some.inj same ▸ charFits) decoded
              have taken : (char.extend byte).taken = char.taken + 1 := rfl
              simp only [Option.map_some, Option.getD_some, taken, List.length_cons] at rest ⊢
              omega
          next => contradiction

theorem length_encodeUtf8_le {bytes : List UInt8} {text : String}
    (decoded : decodeUtf8 bytes = .ok text) : (encodeUtf8 text).length ≤ bytes.length := by
  unfold decodeUtf8 at decoded
  cases read : decodeUtf8From 0 none bytes with
  | error error =>
      rw [read] at decoded
      contradiction
  | ok chars =>
      rw [read] at decoded
      cases decoded
      rw [encodeUtf8_eq, String.toList_ofList]
      exact length_decoded (by simp) read

end RelayLogic.Text
