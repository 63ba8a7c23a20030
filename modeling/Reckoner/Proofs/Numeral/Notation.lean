import Reckoner.Proofs.Numeral.Limit

namespace Reckoner

/-- A text without the zeros at its beginning; of zeros alone one is left. -/
def Text.unpadded (text : String) : String :=
  match text.toList.dropWhile (· == '0') with
  | [] => "0"
  | c :: cs => String.ofList (c :: cs)

namespace Numeral

variable {limit : DigitLimit} {text : String} {ds : List Nat} {n : Numeral}

theorem reverse_trim (ds : List Nat) : (trim ds).reverse = ds.reverse.dropWhile (· == 0) := by
  induction ds with
  | nil => rfl
  | cons d ds ih =>
    rw [List.reverse_cons, List.dropWhile_append, ← ih, trim]
    cases trim ds with
    | nil => by_cases zero : d = 0 <;> simp [zero]
    | cons t ts => simp

theorem digitChar_digitOf {c : Char} (digit : Text.isDigit c = true) : digitChar (digitOf c) = c := by
  rw [Text.isDigit, Bool.and_eq_true, decide_eq_true_eq, decide_eq_true_eq] at digit
  have low : '0'.toNat ≤ c.toNat := digit.1
  have code : '0'.toNat + digitOf c = c.toNat := Nat.add_sub_cancel' low
  rw [digitChar, code, Char.ofNat_toNat]

theorem map_digitChar_digitOf {cs : List Char} (digits : ∀ c ∈ cs, Text.isDigit c = true) :
    (cs.map digitOf).map digitChar = cs := by
  rw [List.map_map]
  exact (List.map_congr_left fun c member => digitChar_digitOf (digits c member)).trans (List.map_id _)

theorem dropWhile_digitOf {cs : List Char} (digits : ∀ c ∈ cs, Text.isDigit c = true) :
    ((cs.map digitOf).dropWhile (· == 0)).map digitChar = cs.dropWhile (· == '0') := by
  induction cs with
  | nil => rfl
  | cons c cs ih =>
    obtain ⟨first, rest⟩ := List.forall_mem_cons.mp digits
    by_cases zero : c = '0'
    · subst zero
      exact ih rest
    · have positive : digitOf c ≠ 0 := by
        intro vanishes
        have char := digitChar_digitOf first
        rw [vanishes] at char
        exact zero char.symm
      rw [List.map_cons, List.dropWhile_cons_of_neg (by simpa using positive),
        List.dropWhile_cons_of_neg (by simpa using zero), ← List.map_cons, map_digitChar_digitOf digits]

theorem text_spelled (digits : ∀ c ∈ text.toList, Text.isDigit c = true) :
    (spelled text).text = Text.unpadded text := by
  have kept : (trim (text.toList.reverse.map digitOf)).reverse.map digitChar =
      text.toList.dropWhile (· == '0') := by
    rw [reverse_trim, ← List.map_reverse, List.reverse_reverse, dropWhile_digitOf digits]
  unfold spelled ofDigits Numeral.text Text.unpadded
  rw [← kept]
  cases trim (text.toList.reverse.map digitOf) with
  | nil => rfl
  | cons t ts =>
    dsimp only
    split
    · next empty => simp at empty
    · next same => rw [same]

theorem length_text (n : Numeral) : n.text.length = n.digitCount := by
  rw [← String.length_toList, toList_text, List.length_map, List.length_reverse]
  rfl

theorem digitCount_spelled (digits : ∀ c ∈ text.toList, Text.isDigit c = true) :
    (spelled text).digitCount = (Text.unpadded text).length := by
  rw [← text_spelled digits, length_text]

theorem ofDecimal_eq (nonempty : text.toList ≠ []) (digits : ∀ c ∈ text.toList, Text.isDigit c = true) :
    ofDecimal text limit =
      if (Text.unpadded text).length ≤ limit.count then .ok (spelled text)
      else .error (.tooManyDigits (Text.unpadded text).length limit.count) := by
  rw [ofDecimal_eq_within nonempty (List.all_eq_true.mpr digits), within, digitCount_spelled digits]
  simp only [DigitLimit.allows_iff]

theorem ofDecimal_eq_malformed_iff :
    ofDecimal text limit = .error (.malformed text) ↔
      text.toList = [] ∨ ∃ c ∈ text.toList, Text.isDigit c = false := by
  constructor
  · intro refused
    apply Decidable.byContradiction
    intro good
    simp only [not_or, not_exists, not_and, Bool.not_eq_false] at good
    rw [ofDecimal_eq good.1 good.2] at refused
    split at refused <;> cases refused
  · intro bad
    unfold ofDecimal
    rw [if_pos]
    simpa using bad

theorem ofDecimal_digitText (nonempty : ds ≠ []) (digits : ∀ d ∈ ds, d ≤ 9) :
    ofDecimal (digitText ds) limit = (ofDigits ds).within limit := by
  rw [ofDecimal_eq_within, spelled_digitText digits]
  · simpa [digitText] using nonempty
  · rw [digitText, String.toList_ofList, List.all_eq_true]
    intro c member
    obtain ⟨d, inside, rfl⟩ := List.mem_map.mp member
    exact isDigit_digitChar d (digits d (List.mem_reverse.mp inside))

theorem ofDigitList_eq_ofDecimal (nonempty : ds ≠ []) (digits : ∀ d ∈ ds, d ≤ 9) :
    ofDigitList ds limit = ofDecimal (digitText ds) limit := by
  rw [ofDecimal_digitText nonempty digits, ofDigitList_eq_within nonempty digits]

theorem ofDigitList_eq_malformed (bad : ds = [] ∨ ∃ d ∈ ds, 9 < d) :
    ofDigitList ds limit = .error (.malformed (listText ds)) := by
  unfold ofDigitList
  rw [if_pos]
  simpa using bad

theorem digitChar_eq_ascii : ∀ d, d ≤ 9 → Nat.digitChar d = digitChar d := by decide

theorem repr_eq_digitText (k : Nat) : k.repr = digitText (digitsOf k) := by
  rw [Nat.repr_eq_ofList_toDigits, digitText]
  congr 1
  induction k using digitsOf.induct with
  | case1 k small =>
    rw [Nat.toDigits_of_lt_base small, digitsOf, if_pos small, digitChar_eq_ascii k (by omega)]
    rfl
  | case2 k large ih =>
    rw [Nat.toDigits_of_base_le (by decide) (by omega), digitsOf, if_neg large, ih,
      digitChar_eq_ascii (k % 10) (by omega), List.reverse_cons, List.map_append, List.map_singleton]

theorem digitsOf_ne_nil (k : Nat) : digitsOf k ≠ [] := by
  rw [digitsOf]
  split <;> exact List.cons_ne_nil _ _

theorem ofNat_eq_ofDecimal (k : Nat) : ofNat k limit = ofDecimal k.repr limit := by
  rw [repr_eq_digitText, ofDecimal_digitText (digitsOf_ne_nil k) (digitsOf_le k)]
  rfl

theorem getLast?_digitsOf {k : Nat} (nonzero : k ≠ 0) : (digitsOf k).getLast? ≠ some 0 := by
  induction k using digitsOf.induct with
  | case1 k small =>
    rw [digitsOf, if_pos small]
    exact fun zero => nonzero (Option.some.inj zero)
  | case2 k large ih =>
    obtain ⟨d, ds, above⟩ := List.exists_cons_of_ne_nil (digitsOf_ne_nil (k / 10))
    rw [above] at ih
    rw [digitsOf, if_neg large, above, List.getLast?_cons_cons]
    exact ih (by omega)

theorem normal_digitsOf (k : Nat) : (⟨digitsOf k⟩ : Numeral).Normal := by
  refine ⟨digitsOf_ne_nil k, digitsOf_le k, ?_⟩
  by_cases zero : k = 0
  · subst zero
    simp [digitsOf]
  · exact fun _ => getLast?_digitsOf zero

theorem text_eq_repr (h : n.Normal) : n.text = n.value.repr := by
  have same : n = ⟨digitsOf n.value⟩ := eq_of_value_eq h (normal_digitsOf n.value) (weigh_digitsOf n.value).symm
  rw [repr_eq_digitText]
  exact congrArg Numeral.text same

/-- Decimal text is malformed exactly when it is empty or holds something else than the ASCII
digits. Otherwise it comes to the numeral whose text it is, leading zeros apart, and only the
digits that are left count for the limit. The text of a numeral in normal form comes back to the
numeral. Usable digits, the least significant first, and numbers come to what their decimal text
comes to. -/
theorem notations_agree (limit : DigitLimit) :
    (∀ text : String, ofDecimal text limit = .error (.malformed text) ↔
      text = "" ∨ ∃ c ∈ text.toList, c.isDigit = false) ∧
    (∀ text : String, text ≠ "" → (∀ c ∈ text.toList, c.isDigit = true) →
      ((Text.unpadded text).length ≤ limit.count →
        ∃ n, ofDecimal text limit = .ok n ∧ n.Normal ∧ n.text = Text.unpadded text) ∧
      (limit.count < (Text.unpadded text).length →
        ofDecimal text limit = .error (.tooManyDigits (Text.unpadded text).length limit.count))) ∧
    (∀ n : Numeral, n.Normal → n.digitCount ≤ limit.count → ofDecimal n.text limit = .ok n) ∧
    (∀ ds : List Nat, ds ≠ [] → (∀ d ∈ ds, d ≤ 9) →
      ofDigitList ds limit = ofDecimal (digitText ds) limit) ∧
    (∀ ds : List Nat, ds = [] ∨ (∃ d ∈ ds, 9 < d) →
      ofDigitList ds limit = .error (.malformed (listText ds))) ∧
    ∀ k : Nat, ofNat k limit = ofDecimal k.repr limit := by
  refine ⟨?_, ?_, ?_, ?_, ?_, ?_⟩
  · intro text
    rw [ofDecimal_eq_malformed_iff, String.toList_eq_nil_iff]
    rfl
  · intro text nonempty digits
    have chars : text.toList ≠ [] := fun empty => nonempty (String.toList_eq_nil_iff.mp empty)
    have all : ∀ c ∈ text.toList, Text.isDigit c = true := digits
    rw [ofDecimal_eq chars all]
    constructor
    · intro fits
      exact ⟨spelled text, if_pos fits, normal_spelled (List.all_eq_true.mpr all), text_spelled all⟩
    · exact fun beyond => if_neg (Nat.not_le_of_lt beyond)
  · intro n normal fits
    refine (ofDecimal_eq_ok_iff _ _ _).mpr ⟨text_ne_nil normal, ?_, (spelled_text normal).symm, fits⟩
    exact List.all_eq_true.mpr fun c member => isDigit_of_mem_text normal member
  · exact fun ds nonempty digits => ofDigitList_eq_ofDecimal nonempty digits
  · exact fun ds bad => ofDigitList_eq_malformed bad
  · exact fun k => ofNat_eq_ofDecimal k

theorem notations_agree_padded :
    let limit : DigitLimit := ⟨3, by decide⟩
    let n : Numeral := ⟨[0, 9, 9]⟩
    ofDecimal "1٢" limit = .error (.malformed "1٢") ∧
      (∃ m, ofDecimal "00990" limit = .ok m ∧ m.Normal ∧ m.text = "990") ∧
      ofDecimal "0001000" limit = .error (.tooManyDigits 4 3) ∧
      n.Normal ∧ ofDecimal n.text limit = .ok n ∧
      ofDigitList [0, 9, 9, 0, 0] limit = ofDecimal "00990" limit ∧
      ofDigitList [1, 10] limit = .error (.malformed "[1, 10]") ∧
      ofNat 990 limit = ofDecimal "990" limit := by
  intro limit n
  have normal : n.Normal := by decide
  obtain ⟨malformed, padded, back, digits, bad, number⟩ := notations_agree limit
  refine ⟨(malformed _).mpr (.inr ⟨'٢', by decide, by decide⟩), ?_, ?_, normal, back n normal (by decide),
    digits _ (by decide) (by decide), bad _ (.inr ⟨10, by decide, by decide⟩), number 990⟩
  · exact (padded "00990" (by decide) (List.all_eq_true.mp (by decide))).1 (by decide)
  · exact (padded "0001000" (by decide) (List.all_eq_true.mp (by decide))).2 (by decide)

end Numeral
end Reckoner
