import Reckoner.Bindings
import Reckoner.Guarded.Entry
import Reckoner.Proofs.Guarded.Loops
import Reckoner.Proofs.Numeral.Limit

namespace Reckoner.Guarded

theorem digitsOf_ok (n : Nat) : digitsOf n = .ok (Numeral.digitsOf n) := by
  induction n using Numeral.digitsOf.induct with
  | case1 n small =>
    have last : n / 10 = 0 := Nat.div_eq_of_lt small
    have digit : n % 10 = n := Nat.mod_eq_of_lt small
    unfold digitsOf Numeral.digitsOf
    rw [digit, cut_ok (by omega), ok_bind, if_pos small, if_pos last]
    rfl
  | case2 n large ih =>
    have more : n / 10 ≠ 0 := by omega
    unfold digitsOf Numeral.digitsOf
    rw [cut_ok (by omega), ok_bind, if_neg large, if_neg more, ih]
    rfl

theorem ofNat_ok (n : Nat) (limit : DigitLimit) : ofNat n limit = .ok (Numeral.ofNat n limit) := by
  unfold ofNat
  rw [digitsOf_ok]
  rfl

theorem ofDigitList_ok (ds : List Nat) (limit : DigitLimit) :
    ofDigitList ds limit = .ok (Numeral.ofDigitList ds limit) := by
  unfold ofDigitList Numeral.ofDigitList
  split <;> rfl

theorem isDigit_eq (c : Char) : Text.isDigit c = isDigitByte c.toNat := rfl

def charBytes (c : Char) : List Nat := (String.utf8EncodeChar c).map UInt8.toNat

theorem bytes_eq (text : String) : bytes text = text.toList.flatMap charBytes := List.map_flatMap ..

theorem charBytes_ascii {c : Char} (narrow : c.toNat ≤ 127) : charBytes c = [c.toNat] := by
  have single : String.utf8EncodeChar c = [UInt8.ofNat c.toNat] := if_pos narrow
  have fits : c.toNat % UInt8.size = c.toNat := Nat.mod_eq_of_lt (Nat.lt_of_le_of_lt narrow (by decide))
  unfold charBytes
  rw [single, List.map_singleton, UInt8.toNat_ofNat', fits]

theorem charBytes_wide {c : Char} (wide : 127 < c.toNat) : ∃ b bs, charBytes c = b :: bs ∧ 127 < b := by
  have lead {n : Nat} (h : 127 < n % 256) : 127 < (UInt8.ofNat n).toNat := h
  unfold charBytes String.utf8EncodeChar
  dsimp only
  rw [if_neg (Nat.not_le_of_lt (show 127 < c.val.toNat from wide))]
  split
  · exact ⟨_, _, rfl, lead (by omega)⟩
  split
  · exact ⟨_, _, rfl, lead (by omega)⟩
  · exact ⟨_, _, rfl, lead (by omega)⟩

def Narrow (test : Nat → Bool) : Prop := ∀ n, 127 < n → test n = false

theorem narrow_isDigitByte : Narrow isDigitByte := by
  intro n beyond
  have nine : '9'.toNat = 57 := rfl
  exact Bool.and_eq_false_imp.mpr fun _ => decide_eq_false (by omega)

theorem narrow_isLetterByte : Narrow isLetterByte := by
  intro n beyond
  have low : 'z'.toNat = 122 := rfl
  have up : 'Z'.toNat = 90 := rfl
  apply Bool.or_eq_false_iff.mpr
  constructor
  · exact Bool.and_eq_false_imp.mpr fun _ => decide_eq_false (by omega)
  · exact Bool.and_eq_false_imp.mpr fun _ => decide_eq_false (by omega)

theorem all_charBytes {test : Nat → Bool} (narrow : Narrow test) (c : Char) :
    (charBytes c).all test = test c.toNat := by
  by_cases ascii : c.toNat ≤ 127
  · rw [charBytes_ascii ascii, List.all_cons, List.all_nil, Bool.and_true]
  · obtain ⟨b, bs, first, high⟩ := charBytes_wide (Nat.lt_of_not_le ascii)
    rw [first, List.all_cons, narrow b high, narrow _ (Nat.lt_of_not_le ascii), Bool.false_and]

theorem charBytes_digit {c : Char} (digit : Text.isDigit c = true) : charBytes c = [c.toNat] := by
  rw [isDigit_eq, isDigitByte, Bool.and_eq_true, decide_eq_true_eq, decide_eq_true_eq] at digit
  have nine : '9'.toNat = 57 := rfl
  exact charBytes_ascii (by omega)

theorem isEmpty_bytes (text : String) : (bytes text).isEmpty = text.toList.isEmpty := by
  rw [bytes_eq]
  cases text.toList with
  | nil => rfl
  | cons c cs =>
    have nonempty : charBytes c ≠ [] := mt List.map_eq_nil_iff.mp String.utf8EncodeChar_ne_nil
    simp [nonempty]

theorem all_bytes {test : Nat → Bool} (narrow : Narrow test) (text : String) :
    (bytes text).all test = text.toList.all fun c => test c.toNat := by
  rw [bytes_eq, List.all_flatMap]
  exact congrArg (text.toList.all ·) (funext (all_charBytes narrow))

theorem bytes_digits {text : String} (digits : text.toList.all Text.isDigit = true) :
    bytes text = text.toList.map Char.toNat := by
  rw [bytes_eq, List.map_eq_flatMap]
  apply congrArg List.flatten
  apply List.map_congr_left
  exact fun c member => charBytes_digit (List.all_eq_true.mp digits c member)

theorem ofDecimal_ok (text : String) (limit : DigitLimit) :
    ofDecimal text limit = .ok (Numeral.ofDecimal text limit) := by
  unfold ofDecimal Numeral.ofDecimal
  have tested : (bytes text).all isDigitByte = text.toList.all Text.isDigit := all_bytes narrow_isDigitByte text
  rw [isEmpty_bytes, tested]
  dsimp only
  split
  · rfl
  · next usable =>
    have digits : text.toList.all Text.isDigit = true := by
      simp only [Bool.or_eq_true, Bool.not_eq_true', not_or, Bool.not_eq_false] at usable
      exact usable.2
    have run : (bytes text).reverse.mapM (fun b => minus b '0'.toNat) =
        .ok ((bytes text).reverse.map (· - '0'.toNat)) := by
      apply mapM_ok
      intro b member
      have digit : isDigitByte b = true := by
        exact List.all_eq_true.mp (tested.trans digits) b (List.mem_reverse.mp member)
      exact minus_ok (of_decide_eq_true (Bool.and_eq_true_iff.mp digit).1)
    rw [run, bytes_digits digits, ← List.map_reverse, List.map_map]
    rfl

theorem isValidName_eq (name : String) : isValidName name = Bindings.isValidName name := by
  have letters : (bytes name).all isLetterByte = name.toList.all Text.isLetter := all_bytes narrow_isLetterByte name
  unfold isValidName
  rw [isEmpty_bytes, letters]
  rfl

end Reckoner.Guarded
