import Reckoner.Proofs.Numeral.Written

namespace Reckoner
namespace Numeral

/-- The outcome of an operation under a limit, when `n` is its true result. -/
inductive Held (limit : DigitLimit) (n : Nat) : Except NumberError Numeral → Prop where
  | fits {r : Numeral} : r.Normal → r.value = n → r.digitCount ≤ limit.count → Held limit n (.ok r)
  | exceeds {digits : Nat} : limit.count < digits → digits ≤ decimalLength n →
      Held limit n (.error (.tooManyDigits digits limit.count))

variable {limit : DigitLimit} {n : Nat} {a b : Numeral}

theorem Held.refused {m : Nat} {cause : NumberError} (h : Held limit n (.error cause)) (larger : n ≤ m) :
    Held limit m (.error cause) := by
  cases h with
  | exceeds above most => exact .exceeds above (Nat.le_trans most (decimalLength_mono larger))

theorem Held.result {r : Numeral} (h : Held limit n (.ok r)) :
    r.Normal ∧ r.value = n ∧ r.digitCount ≤ limit.count := by
  cases h with
  | fits normal value fits => exact ⟨normal, value, fits⟩

theorem Held.succeeds {x : Except NumberError Numeral} (h : Held limit n x)
    (fits : decimalLength n ≤ limit.count) : ∃ r, x = .ok r ∧ r.Normal ∧ r.value = n := by
  cases h with
  | fits normal value _ => exact ⟨_, rfl, normal, value⟩
  | exceeds above most => omega

theorem Held.refuses {x : Except NumberError Numeral} (h : Held limit n x)
    (beyond : limit.count < decimalLength n) :
    ∃ digits, x = .error (.tooManyDigits digits limit.count) ∧ limit.count < digits ∧
      digits ≤ decimalLength n := by
  cases h with
  | fits normal value fits =>
    rw [← value, ← normal.digitCount_eq] at beyond
    omega
  | exceeds above most => exact ⟨_, rfl, above, most⟩

theorem within_eq {r : Numeral} (h : r.Normal) :
    r.within limit =
      if decimalLength r.value ≤ limit.count then .ok r
      else .error (.tooManyDigits (decimalLength r.value) limit.count) := by
  simp only [within, h.digitCount_eq, DigitLimit.allows_iff]

theorem held_within {r : Numeral} (h : r.Normal) : Held limit r.value (r.within limit) := by
  unfold within
  split
  · next fits => exact .fits h rfl ((limit.allows_iff _).mp fits)
  · next beyond =>
    rw [DigitLimit.allows_iff] at beyond
    exact .exceeds (Nat.lt_of_not_le beyond) (Nat.le_of_eq h.digitCount_eq)

theorem held_zero : Held limit 0 (.ok zero) := .fits normal_zero rfl limit.positive

theorem held_one : Held limit 1 (.ok one) := .fits normal_one rfl limit.positive

theorem held_add (ha : a.Normal) (hb : b.Normal) : Held limit (a.value + b.value) (a.add b limit) := by
  unfold add
  rw [← value_sum]
  exact held_within (normal_sum ha hb)

theorem shortest_le_decimalLength (ha : a.Normal) (hb : b.Normal) (nonzero : a.value * b.value ≠ 0) :
    a.digitCount + b.digitCount - 1 ≤ decimalLength (a.value * b.value) := by
  have left := ha.le_value (Nat.ne_zero_of_mul_ne_zero_left nonzero)
  have right := hb.le_value (Nat.ne_zero_of_mul_ne_zero_right nonzero)
  have power : 10 ^ (a.digitCount - 1 + (b.digitCount - 1)) ≤ a.value * b.value := by
    rw [Nat.pow_add]
    exact Nat.mul_le_mul left right
  have longer := (lt_decimalLength_iff nonzero).mpr power
  have pa := ha.digitCount_pos
  have pb := hb.digitCount_pos
  omega

theorem held_mul (ha : a.Normal) (hb : b.Normal) : Held limit (a.value * b.value) (a.mul b limit) := by
  unfold mul
  split
  · next zero =>
    simp only [Bool.or_eq_true, isZero_iff ha, isZero_iff hb] at zero
    rw [Nat.mul_eq_zero.mpr zero]
    exact held_zero
  · next nonzero =>
    simp only [Bool.or_eq_true, isZero_iff ha, isZero_iff hb, ← Nat.mul_eq_zero] at nonzero
    dsimp only
    split
    · rw [← value_product]
      exact held_within (normal_product ha hb)
    · next beyond =>
      rw [DigitLimit.allows_iff] at beyond
      exact .exceeds (Nat.lt_of_not_le beyond) (shortest_le_decimalLength ha hb nonzero)

theorem result_of_mul {c : Numeral} (ha : a.Normal) (hb : b.Normal) (h : a.mul b limit = .ok c) :
    c.Normal ∧ c.value = a.value * b.value ∧ c.digitCount ≤ limit.count := by
  have held : Held limit (a.value * b.value) (a.mul b limit) := held_mul ha hb
  rw [h] at held
  exact held.result

theorem pow_le_pow_of_pos (x : Nat) {m k : Nat} (positive : 0 < m) (h : m ≤ k) : x ^ m ≤ x ^ k := by
  -- powers of zero do not grow with the exponent, but a positive one is zero already
  rcases Nat.eq_zero_or_pos x with rfl | nonzero
  · rw [Nat.zero_pow positive]
    exact Nat.zero_le _
  · exact Nat.pow_le_pow_right nonzero h

def Several (exponent : Numeral) : Prop := ¬ exponent.isZero = true ∧ ¬ exponent.isOne = true

instance (exponent : Numeral) : Decidable exponent.Several :=
  inferInstanceAs (Decidable (¬ exponent.isZero = true ∧ ¬ exponent.isOne = true))

theorem Several.two_le {exponent : Numeral} (h : exponent.Several) (he : exponent.Normal) :
    2 ≤ exponent.value := by
  obtain ⟨positive, more⟩ := h
  rw [isZero_iff he] at positive
  rw [isOne_iff he] at more
  omega

/- The square of a base, raised half as often, against the power of the base. -/

section

variable {base exponent squared : Numeral}

theorem square_le_pow (base : Numeral) (he : exponent.Normal) (several : exponent.Several) :
    base.value * base.value ≤ base.value ^ exponent.value := by
  rw [← Nat.pow_two]
  exact pow_le_pow_of_pos base.value (by decide) (several.two_le he)

theorem pow_halved (exponent : Numeral) (square : squared.value = base.value * base.value) :
    squared.value ^ exponent.halved.value = base.value ^ (2 * (exponent.value / 2)) := by
  rw [square, value_halved, ← Nat.pow_two, ← Nat.pow_mul]

theorem pow_halved_le (he : exponent.Normal) (several : exponent.Several)
    (square : squared.value = base.value * base.value) :
    squared.value ^ exponent.halved.value ≤ base.value ^ exponent.value := by
  have two := several.two_le he
  rw [pow_halved exponent square]
  exact pow_le_pow_of_pos base.value (by omega) (by omega)

theorem pow_halved_even (even : exponent.isEven = true) (square : squared.value = base.value * base.value) :
    squared.value ^ exponent.halved.value = base.value ^ exponent.value := by
  rw [isEven_iff] at even
  rw [pow_halved exponent square]
  congr 1
  omega

theorem mul_pow_halved_odd (odd : ¬ exponent.isEven = true)
    (square : squared.value = base.value * base.value) :
    base.value * squared.value ^ exponent.halved.value = base.value ^ exponent.value := by
  rw [isEven_iff] at odd
  rw [pow_halved exponent square, ← Nat.pow_succ']
  congr 1
  omega

theorem held_powBySquaring (hb : base.Normal) (he : exponent.Normal)
    (first : exponent.value = 1 → base.digitCount ≤ limit.count) :
    Held limit (base.value ^ exponent.value) (powBySquaring base exponent limit) := by
  -- what is formed on the way is not larger than the power, so what is refused is too long for it
  fun_induction powBySquaring base exponent limit with
  | case1 base exponent zero =>
    rw [(isZero_iff he).mp zero, Nat.pow_zero]
    exact held_one
  | case2 base exponent _ one =>
    have once := (isOne_iff he).mp one
    rw [once, Nat.pow_one]
    exact .fits hb rfl (first once)
  | case3 base exponent positive more cause square =>
    have held : Held limit _ _ := held_mul hb hb
    rw [square] at held
    exact held.refused (square_le_pow base he ⟨positive, more⟩)
  | case4 base exponent positive more squared square cause higher ih =>
    obtain ⟨normal, value, fits⟩ := result_of_mul hb hb square
    have half := ih normal (normal_halved he) fun _ => fits
    rw [higher] at half
    exact half.refused (pow_halved_le he ⟨positive, more⟩ value)
  | case5 base exponent positive more squared square rest higher even ih =>
    obtain ⟨normal, value, fits⟩ := result_of_mul hb hb square
    have half := ih normal (normal_halved he) fun _ => fits
    rw [higher, pow_halved_even even value] at half
    exact half
  | case6 base exponent positive more squared square rest higher odd ih =>
    obtain ⟨normal, value, fits⟩ := result_of_mul hb hb square
    have half := ih normal (normal_halved he) fun _ => fits
    rw [higher] at half
    obtain ⟨hr, power, _⟩ := half.result
    rw [← mul_pow_halved_odd odd value, ← power]
    exact held_mul hb hr

end

theorem held_pow (ha : a.Normal) (hb : b.Normal) (first : b.value = 1 → a.digitCount ≤ limit.count) :
    Held limit (a.value ^ b.value) (a.pow b limit) := by
  have zeroIff := isZero_iff hb
  have oneIff := isOne_iff hb
  have baseZero := isZero_iff ha
  have baseOne := isOne_iff ha
  unfold pow
  split
  · next zero =>
    rw [zeroIff.mp zero, Nat.pow_zero]
    exact held_one
  · next nonzero =>
    rw [zeroIff] at nonzero
    split
    · next same =>
      simp only [Bool.or_eq_true, oneIff, baseZero, baseOne] at same
      rcases same with (one | zero) | one
      · exact .fits ha (by rw [one, Nat.pow_one]) (first one)
      · obtain rfl : a = Numeral.zero := eq_of_value_eq ha normal_zero zero
        exact .fits normal_zero (Nat.zero_pow (Nat.pos_of_ne_zero nonzero)).symm limit.positive
      · obtain rfl : a = Numeral.one := eq_of_value_eq ha normal_one one
        exact .fits normal_one (Nat.one_pow b.value).symm limit.positive
    · exact held_powBySquaring ha hb first

theorem pow_first (hb : b.Normal) (one : b.value = 1) : a.pow b limit = .ok a := by
  have notZero : ¬ b.isZero = true := by
    rw [isZero_iff hb]
    omega
  unfold pow
  rw [if_neg notZero, (isOne_iff hb).mpr one]
  rfl

/- The three ways in drop leading zeros and count what is left. -/

theorem held_ofDigits {ds : List Nat} (h : ∀ d ∈ ds, d ≤ 9) :
    Held limit (weigh ds) ((ofDigits ds).within limit) := by
  rw [← weigh_ofDigits]
  exact held_within (normal_ofDigits h)

theorem digitsOf_le (k : Nat) : ∀ d ∈ digitsOf k, d ≤ 9 := by
  induction k using digitsOf.induct with
  | case1 k small =>
    rw [digitsOf, if_pos small]
    exact List.forall_mem_singleton.mpr (by omega)
  | case2 k large ih =>
    rw [digitsOf, if_neg large]
    exact digits_cons.mpr ⟨by omega, ih⟩

theorem held_ofNat (k : Nat) : Held limit k (ofNat k limit) := by
  have written : Held limit (weigh (digitsOf k)) (ofNat k limit) := held_ofDigits (digitsOf_le k)
  rwa [weigh_digitsOf] at written

theorem held_ofDecimal {text : String} (nonempty : text.toList ≠ [])
    (digits : text.toList.all Text.isDigit = true) :
    Held limit (weigh (text.toList.reverse.map digitOf)) (ofDecimal text limit) := by
  rw [ofDecimal_eq_within nonempty digits]
  apply held_ofDigits
  intro d member
  obtain ⟨c, inside, rfl⟩ := List.mem_map.mp member
  exact digitOf_le (List.all_eq_true.mp digits c (List.mem_reverse.mp inside))

theorem ofDigitList_eq_within {ds : List Nat} (nonempty : ds ≠ []) (digits : ∀ d ∈ ds, d ≤ 9) :
    ofDigitList ds limit = (ofDigits ds).within limit := by
  have small : ds.any (fun d => decide (9 < d)) = false := by simpa using digits
  unfold ofDigitList
  simp [small, nonempty]

theorem held_ofDigitList {ds : List Nat} (nonempty : ds ≠ []) (digits : ∀ d ∈ ds, d ≤ 9) :
    Held limit (weigh ds) (ofDigitList ds limit) := by
  rw [ofDigitList_eq_within nonempty digits]
  exact held_ofDigits digits

/-- What a limit promises of an outcome when `n` is the true result: what comes out is the
result and fits; it is refused for its length exactly when it is too long, and the length
that is reported then lies above the limit and not above that of the result. -/
structure RespectsLimit (limit : DigitLimit) (n : Nat) (outcome : Except NumberError Numeral) :
    Prop where
  fits : ∀ r, outcome = .ok r → r.Normal ∧ r.value = n ∧ r.digitCount ≤ limit.count
  refused : (∃ digits bound, outcome = .error (.tooManyDigits digits bound)) ↔
    limit.count < decimalLength n
  reported : ∀ digits bound, outcome = .error (.tooManyDigits digits bound) →
    bound = limit.count ∧ limit.count < digits ∧ digits ≤ decimalLength n

theorem Held.respectsLimit {outcome : Except NumberError Numeral} (h : Held limit n outcome) :
    RespectsLimit limit n outcome := by
  cases h with
  | @fits r normal value fits =>
    have length : r.digitCount = decimalLength n := value ▸ normal.digitCount_eq
    refine ⟨?_, ?_, ?_⟩
    · intro r same
      cases same
      exact ⟨normal, value, fits⟩
    · constructor
      · rintro ⟨digits, bound, refused⟩
        cases refused
      · intro beyond
        omega
    · intro digits bound refused
      cases refused
  | exceeds above most =>
    refine ⟨?_, ?_, ?_⟩
    · intro r same
      cases same
    · exact ⟨fun _ => Nat.lt_of_lt_of_le above most, fun _ => ⟨_, _, rfl⟩⟩
    · intro digits bound same
      cases same
      exact ⟨rfl, above, most⟩

/-- Every operation that takes a limit respects it, for operands of any length, with one
exception: the first power of a base that is itself too long. -/
theorem limit_respected (limit : DigitLimit) :
    (∀ k, RespectsLimit limit k (ofNat k limit)) ∧
    (∀ text : String, text.toList ≠ [] → text.toList.all Text.isDigit = true →
      RespectsLimit limit (weigh (text.toList.reverse.map digitOf)) (ofDecimal text limit)) ∧
    (∀ text : String, ¬ (text.toList ≠ [] ∧ text.toList.all Text.isDigit = true) →
      ofDecimal text limit = .error (.malformed text)) ∧
    (∀ ds : List Nat, ds ≠ [] → (∀ d ∈ ds, d ≤ 9) →
      RespectsLimit limit (weigh ds) (ofDigitList ds limit)) ∧
    (∀ ds : List Nat, ¬ (ds ≠ [] ∧ ∀ d ∈ ds, d ≤ 9) →
      ofDigitList ds limit = .error (.malformed (listText ds))) ∧
    (∀ a b : Numeral, a.Normal → b.Normal →
      RespectsLimit limit (a.value + b.value) (a.add b limit) ∧
      RespectsLimit limit (a.value * b.value) (a.mul b limit) ∧
      (RespectsLimit limit (a.value ^ b.value) (a.pow b limit) ↔
        ¬ (b.value = 1 ∧ limit.count < a.digitCount)) ∧
      (b.value = 1 → a.pow b limit = .ok a)) := by
  refine ⟨?_, ?_, ?_, ?_, ?_, ?_⟩
  · exact fun k => (held_ofNat k).respectsLimit
  · exact fun text nonempty digits => (held_ofDecimal nonempty digits).respectsLimit
  · intro text bad
    unfold ofDecimal
    rw [if_pos]
    simpa [Decidable.or_iff_not_not_and_not] using bad
  · exact fun ds nonempty digits => (held_ofDigitList nonempty digits).respectsLimit
  · intro ds bad
    unfold ofDigitList
    rw [if_pos]
    simpa [Decidable.or_iff_not_not_and_not] using bad
  · intro a b ha hb
    refine ⟨(held_add ha hb).respectsLimit, (held_mul ha hb).respectsLimit, ?_, pow_first hb⟩
    constructor
    · rintro respects ⟨one, beyond⟩
      have fits := (respects.fits a (pow_first hb one)).2.2
      omega
    · intro usual
      have first : b.value = 1 → a.digitCount ≤ limit.count := fun one => by
        apply Nat.le_of_not_lt
        exact fun beyond => usual ⟨one, beyond⟩
      exact (held_pow ha hb first).respectsLimit

theorem limit_respected_square :
    (⟨[9, 9]⟩ : Numeral).Normal ∧ (⟨[2]⟩ : Numeral).Normal ∧
      RespectsLimit ⟨3, by decide⟩ (99 ^ 2) (Numeral.pow ⟨[9, 9]⟩ ⟨[2]⟩ ⟨3, by decide⟩) := by
  have base : (⟨[9, 9]⟩ : Numeral).Normal := by decide
  have exponent : (⟨[2]⟩ : Numeral).Normal := by decide
  have respects := (limit_respected ⟨3, by decide⟩).2.2.2.2.2 _ _ base exponent
  exact ⟨base, exponent, respects.2.2.1.mpr (by decide)⟩

/-- A thousand to the first power, under a limit of three digits. -/
theorem first_power_over_limit :
    ¬ RespectsLimit ⟨3, by decide⟩ (1000 ^ 1) (Numeral.pow ⟨[0, 0, 0, 1]⟩ ⟨[1]⟩ ⟨3, by decide⟩) := by
  intro respects
  have fits := (respects.fits ⟨[0, 0, 0, 1]⟩ (pow_first normal_one rfl)).2.2
  revert fits
  decide

end Numeral
end Reckoner
