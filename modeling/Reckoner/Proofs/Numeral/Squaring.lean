import Reckoner.Proofs.Numeral.Limit

namespace Reckoner
namespace Numeral

/-- One run of the recursion: base and exponent, the factors of the products in the order in
which they are formed, and the outcome. -/
inductive Raising (limit : DigitLimit) :
    Numeral → Numeral → List (Numeral × Numeral) → Except NumberError Numeral → Prop where
  | zero {base exponent : Numeral} : exponent.isZero = true →
      Raising limit base exponent [] (.ok Numeral.one)
  | one {base exponent : Numeral} : ¬ exponent.isZero = true → exponent.isOne = true →
      Raising limit base exponent [] (.ok base)
  /-- The square is refused. -/
  | refused {base exponent : Numeral} {cause : NumberError} : exponent.Several →
      base.mul base limit = .error cause → Raising limit base exponent [(base, base)] (.error cause)
  /-- A product is refused after the square. -/
  | failed {base exponent squared : Numeral} {products : List (Numeral × Numeral)}
      {cause : NumberError} : exponent.Several → base.mul base limit = .ok squared →
      Raising limit squared exponent.halved products (.error cause) →
      Raising limit base exponent ((base, base) :: products) (.error cause)
  | even {base exponent squared rest : Numeral} {products : List (Numeral × Numeral)} :
      exponent.Several → base.mul base limit = .ok squared →
      Raising limit squared exponent.halved products (.ok rest) → exponent.isEven = true →
      Raising limit base exponent ((base, base) :: products) (.ok rest)
  | odd {base exponent squared rest : Numeral} {products : List (Numeral × Numeral)} :
      exponent.Several → base.mul base limit = .ok squared →
      Raising limit squared exponent.halved products (.ok rest) → ¬ exponent.isEven = true →
      Raising limit base exponent ((base, base) :: (products ++ [(base, rest)])) (base.mul rest limit)

variable {limit : DigitLimit} {base exponent : Numeral} {products : List (Numeral × Numeral)}
  {outcome : Except NumberError Numeral}

theorem exists_raising (limit : DigitLimit) (base exponent : Numeral) :
    ∃ products, Raising limit base exponent products (powBySquaring base exponent limit) := by
  -- each way the recursion goes is a constructor of the runs
  fun_induction powBySquaring base exponent limit with
  | case1 base exponent zero => exact ⟨_, .zero zero⟩
  | case2 base exponent positive one => exact ⟨_, .one positive one⟩
  | case3 base exponent positive more cause square => exact ⟨_, .refused ⟨positive, more⟩ square⟩
  | case4 base exponent positive more squared square cause higher ih =>
    obtain ⟨products, half⟩ := ih
    exact ⟨_, .failed ⟨positive, more⟩ square (higher ▸ half)⟩
  | case5 base exponent positive more squared square rest higher even ih =>
    obtain ⟨products, half⟩ := ih
    exact ⟨_, .even ⟨positive, more⟩ square (higher ▸ half) even⟩
  | case6 base exponent positive more squared square rest higher odd ih =>
    obtain ⟨products, half⟩ := ih
    exact ⟨_, .odd ⟨positive, more⟩ square (higher ▸ half) odd⟩

theorem Raising.outcome_eq (h : Raising limit base exponent products outcome) :
    outcome = powBySquaring base exponent limit := by
  induction h with
  | zero first => rw [powBySquaring, dif_pos first]
  | one nonzero first => rw [powBySquaring, dif_neg nonzero, if_pos first]
  | refused several square => rw [powBySquaring, dif_neg several.1, if_neg several.2, square]
  | failed several square _ ih => simp only [powBySquaring, several.1, several.2, square, ← ih]; rfl
  | even several square _ even ih => simp only [powBySquaring, several.1, several.2, square, ← ih, even]; rfl
  | odd several square _ odd ih => simp only [powBySquaring, several.1, several.2, square, ← ih, odd]; rfl

theorem log_halved (he : exponent.Normal) (several : exponent.Several) :
    Nat.log 2 exponent.value = Nat.log 2 exponent.halved.value + 1 := by
  rw [value_halved]
  exact Nat.log_of_one_lt_of_le (by decide) (several.two_le he)

theorem Raising.length_le (h : Raising limit base exponent products outcome) (he : exponent.Normal) :
    products.length ≤ 2 * Nat.log 2 exponent.value := by
  induction h with
  | zero _ | one _ _ => exact Nat.zero_le _
  | refused several _ =>
    rw [log_halved he several, List.length_singleton]
    omega
  | failed several _ _ ih | even several _ _ _ ih =>
    have above := ih (normal_halved he)
    rw [log_halved he several, List.length_cons]
    omega
  | odd several _ _ _ ih =>
    have above := ih (normal_halved he)
    rw [log_halved he several, List.length_cons, List.length_append, List.length_singleton]
    omega

/-- Factors in normal form whose product is not above `bound`. -/
def FactorsWithin (bound : Nat) (factors : Numeral × Numeral) : Prop :=
  factors.1.Normal ∧ factors.2.Normal ∧ factors.1.value * factors.2.value ≤ bound

theorem factorsWithin_square (hb : base.Normal) (he : exponent.Normal) (several : exponent.Several) :
    FactorsWithin (base.value ^ exponent.value) (base, base) :=
  ⟨hb, hb, square_le_pow base he several⟩

theorem FactorsWithin.halved {squared : Numeral} {factors : Numeral × Numeral}
    (h : FactorsWithin (squared.value ^ exponent.halved.value) factors) (he : exponent.Normal)
    (several : exponent.Several) (square : squared.value = base.value * base.value) :
    FactorsWithin (base.value ^ exponent.value) factors := by
  obtain ⟨left, right, most⟩ := h
  exact ⟨left, right, Nat.le_trans most (pow_halved_le he several square)⟩

theorem factorsWithin_odd {squared rest : Numeral} (hb : base.Normal) (he : exponent.Normal)
    (square : base.mul base limit = .ok squared)
    (half : Raising limit squared exponent.halved products (.ok rest)) (odd : ¬ exponent.isEven = true) :
    FactorsWithin (base.value ^ exponent.value) (base, rest) := by
  obtain ⟨normal, value, fits⟩ := result_of_mul hb hb square
  have held : Held limit _ _ := held_powBySquaring normal (normal_halved he) fun _ => fits
  rw [← half.outcome_eq] at held
  obtain ⟨hr, power, _⟩ := held.result
  have whole := mul_pow_halved_odd odd value
  rw [← power] at whole
  exact ⟨hb, hr, Nat.le_of_eq whole⟩

theorem Raising.factorsWithin (h : Raising limit base exponent products outcome) (hb : base.Normal)
    (he : exponent.Normal) : ∀ factors ∈ products, FactorsWithin (base.value ^ exponent.value) factors := by
  induction h with
  | zero _ | one _ _ => exact fun factors member => absurd member List.not_mem_nil
  | refused several _ => exact List.forall_mem_singleton.mpr (factorsWithin_square hb he several)
  | failed several square _ ih | even several square _ _ ih =>
    obtain ⟨normal, value, _⟩ := result_of_mul hb hb square
    have above := ih normal (normal_halved he)
    refine List.forall_mem_cons.mpr ⟨factorsWithin_square hb he several, ?_⟩
    exact fun factors member => (above factors member).halved he several value
  | odd several square half odd ih =>
    obtain ⟨normal, value, _⟩ := result_of_mul hb hb square
    have above := ih normal (normal_halved he)
    refine List.forall_mem_cons.mpr ⟨factorsWithin_square hb he several, List.forall_mem_append.mpr ?_⟩
    constructor
    · exact fun factors member => (above factors member).halved he several value
    · exact List.forall_mem_singleton.mpr (factorsWithin_odd hb he square half odd)

variable {a b : Numeral}

theorem pow_eq_powBySquaring (ha : a.Normal) (hb : b.Normal) : a.pow b limit = powBySquaring a b limit := by
  unfold pow
  split
  · next zero => rw [powBySquaring, dif_pos zero]
  · next positive =>
    split
    · next same =>
      by_cases one : b.isOne = true
      · rw [powBySquaring, dif_neg positive, if_pos one]
      · rw [isOne_iff hb] at one
        rw [isZero_iff hb] at positive
        simp only [Bool.or_eq_true, isOne_iff hb, isZero_iff ha, isOne_iff ha] at same
        have base : a.value ^ b.value = a.value := by
          rcases same with (first | zero) | unit
          · exact absurd first one
          · rw [zero, Nat.zero_pow (Nat.pos_of_ne_zero positive)]
          · rw [unit, Nat.one_pow]
        have digit : decimalLength (a.value ^ b.value) ≤ 1 := (decimalLength_le_iff Nat.one_pos).mpr (by omega)
        have held : Held limit _ _ := held_powBySquaring ha hb fun first => absurd first one
        obtain ⟨r, outcome, normal, value⟩ := held.succeeds (Nat.le_trans digit limit.positive)
        rw [outcome, eq_of_value_eq normal ha (value.trans base)]
    · rfl

/-- A power that fits comes out, and one that does not is refused for its length, with a report
between the limit and that length. Squaring has a run in every case, with the outcome of the
power also where the power is taken without it. Any such run forms two products at most for
each halving of the exponent; none of them is larger than the power, and none is refused when
the power fits. -/
theorem power_exact (ha : a.Normal) (hb : b.Normal) (limit : DigitLimit)
    (short : a.digitCount ≤ limit.count) :
    (decimalLength (a.value ^ b.value) ≤ limit.count →
      ∃ r, a.pow b limit = .ok r ∧ r.Normal ∧ r.value = a.value ^ b.value) ∧
    (limit.count < decimalLength (a.value ^ b.value) →
      ∃ digits, a.pow b limit = .error (.tooManyDigits digits limit.count) ∧ limit.count < digits ∧
        digits ≤ decimalLength (a.value ^ b.value)) ∧
    (∃ products, Raising limit a b products (a.pow b limit)) ∧
    ∀ products outcome, Raising limit a b products outcome →
      outcome = a.pow b limit ∧ products.length ≤ 2 * Nat.log 2 b.value ∧
      ∀ x y, (x, y) ∈ products → x.value * y.value ≤ a.value ^ b.value ∧
        (decimalLength (a.value ^ b.value) ≤ limit.count →
          ∃ c, x.mul y limit = .ok c ∧ c.Normal ∧ c.value = x.value * y.value) := by
  have held : Held limit (a.value ^ b.value) (a.pow b limit) := held_pow ha hb fun _ => short
  refine ⟨held.succeeds, held.refuses, ?_, ?_⟩
  · rw [pow_eq_powBySquaring ha hb]
    exact exists_raising limit a b
  · intro products outcome run
    refine ⟨run.outcome_eq.trans (pow_eq_powBySquaring ha hb).symm, run.length_le hb, ?_⟩
    intro x y member
    obtain ⟨hx, hy, most⟩ := run.factorsWithin ha hb (x, y) member
    refine ⟨most, ?_⟩
    intro fits
    have product : Held limit (x.value * y.value) (x.mul y limit) := held_mul hx hy
    exact product.succeeds (Nat.le_trans (decimalLength_mono most) fits)

theorem power_exact_tight :
    let a : Numeral := ⟨[9]⟩
    let b : Numeral := ⟨[5]⟩
    let limit : DigitLimit := ⟨5, by decide⟩
    let products : List (Numeral × Numeral) := [(a, a), (⟨[1, 8]⟩, ⟨[1, 8]⟩), (a, ⟨[1, 6, 5, 6]⟩)]
    a.Normal ∧ b.Normal ∧ a.digitCount ≤ limit.count ∧
      (∃ r, a.pow b limit = .ok r ∧ r.Normal ∧ r.value = 9 ^ 5) ∧
      Raising limit a b products (.ok ⟨[9, 4, 0, 9, 5]⟩) ∧ a.pow b limit = .ok ⟨[9, 4, 0, 9, 5]⟩ ∧
      9 * 6561 ≤ 9 ^ 5 := by
  intro a b limit products
  have ha : a.Normal := by decide
  have hb : b.Normal := by decide
  have short : a.digitCount ≤ limit.count := by decide
  have fits : decimalLength (a.value ^ b.value) ≤ limit.count := (decimalLength_le_iff (by decide)).mpr (by decide)
  have fourth : Raising limit ⟨[1, 8]⟩ b.halved [(⟨[1, 8]⟩, ⟨[1, 8]⟩)] (.ok ⟨[1, 6, 5, 6]⟩) :=
    .even (by decide +kernel) (by decide +kernel) (.one (by decide +kernel) (by decide +kernel)) (by decide +kernel)
  have last : Raising limit a b products (a.mul ⟨[1, 6, 5, 6]⟩ limit) :=
    .odd (by decide +kernel) (by decide +kernel) fourth (by decide +kernel)
  have run : Raising limit a b products (.ok ⟨[9, 4, 0, 9, 5]⟩) := by
    have product : a.mul ⟨[1, 6, 5, 6]⟩ limit = .ok ⟨[9, 4, 0, 9, 5]⟩ := by decide +kernel
    exact product ▸ last
  obtain ⟨comes, _, _, runs⟩ := power_exact ha hb limit short
  obtain ⟨outcome, _, within⟩ := runs products _ run
  have member : (a, ⟨[1, 6, 5, 6]⟩) ∈ products := by decide
  exact ⟨ha, hb, short, comes fits, run, outcome.symm, (within _ _ member).1⟩

end Numeral
end Reckoner
