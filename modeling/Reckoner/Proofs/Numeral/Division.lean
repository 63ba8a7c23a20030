import Reckoner.Proofs.Numeral.Written

namespace Reckoner
namespace Numeral

inductive TakenAway (divisor : Numeral) : Numeral → Nat → Numeral → Prop where
  | ends {rest : Numeral} : ¬ divisor.le rest = true → TakenAway divisor rest 0 rest
  | again {rest left : Numeral} {count : Nat} : divisor.le rest = true →
      TakenAway divisor (difference rest divisor) count left → TakenAway divisor rest (count + 1) left

/-- The digits are brought down one after another, the most significant first, and each gives a
count of passes. The last index is what remains. -/
inductive LongDivision (divisor : Numeral) : List Nat → List Nat → Numeral → Prop where
  | start : LongDivision divisor [] [] zero
  | digit {ds counts : List Nat} {d count : Nat} {rest left : Numeral} :
      LongDivision divisor ds counts rest → TakenAway divisor (rest.shiftIn [d]) count left →
      LongDivision divisor (d :: ds) (count :: counts) left

section

variable {divisor rest left left' : Numeral} {count count' : Nat} {ds counts counts' : List Nat}

theorem TakenAway.total (h : TakenAway divisor rest count left) (hd : divisor.Normal) (hr : rest.Normal) :
    left.Normal ∧ left.value < divisor.value ∧ count * divisor.value + left.value = rest.value := by
  induction h with
  | @ends rest smaller =>
    rw [le_iff hd hr] at smaller
    exact ⟨hr, Nat.lt_of_not_le smaller, by rw [Nat.zero_mul, Nat.zero_add]⟩
  | again fits _ ih =>
    have room := (le_iff hd hr).mp fits
    have value := value_difference hr hd room
    obtain ⟨normal, below, total⟩ := ih (normal_difference hr hd room)
    refine ⟨normal, below, ?_⟩
    rw [Nat.succ_mul]
    omega

theorem takenAway_takeAway {tries : Nat} (hd : divisor.Normal) (hr : rest.Normal)
    (enough : rest.value < tries * divisor.value) :
    TakenAway divisor rest (takeAway divisor tries rest).1 (takeAway divisor tries rest).2 := by
  -- with more tries than the divisor fits, it is the comparison that ends the loop
  induction tries generalizing rest with
  | zero => simp at enough
  | succ tries ih =>
    unfold takeAway
    split
    · next fits =>
      have room := (le_iff hd hr).mp fits
      have value := value_difference hr hd room
      rw [Nat.succ_mul] at enough
      exact .again fits (ih (normal_difference hr hd room) (by omega))
    · next smaller => exact .ends smaller

theorem TakenAway.unique (h : TakenAway divisor rest count left)
    (h' : TakenAway divisor rest count' left') : count' = count ∧ left' = left := by
  induction h generalizing count' with
  | ends smaller =>
    cases h' with
    | ends _ => exact ⟨rfl, rfl⟩
    | again fits _ => exact absurd fits smaller
  | again fits _ ih =>
    cases h' with
    | ends smaller => exact absurd fits smaller
    | again _ next =>
      obtain ⟨rfl, rfl⟩ := ih next
      exact ⟨rfl, rfl⟩

structure Divided (divisor : Numeral) (ds : List Nat) (sofar : List Nat × Numeral) : Prop where
  digits : ∀ d ∈ sofar.1, d ≤ 9
  normal : sofar.2.Normal
  below : sofar.2.value < divisor.value
  total : weigh sofar.1 * divisor.value + sofar.2.value = weigh ds

theorem Divided.down (h : Divided divisor ds (counts, rest)) {d : Nat} (small : d ≤ 9) :
    (rest.shiftIn [d]).Normal ∧ (rest.shiftIn [d]).value = d + 10 * rest.value ∧
      (rest.shiftIn [d]).value < 10 * divisor.value := by
  have value : (rest.shiftIn [d]).value = d + 10 * rest.value := value_shiftIn rest [d]
  have below : rest.value < divisor.value := h.below
  exact ⟨normal_shiftIn h.normal (List.forall_mem_singleton.mpr small), value, by omega⟩

theorem Divided.digit (h : Divided divisor ds (counts, rest)) (hd : divisor.Normal) {d : Nat}
    (small : d ≤ 9) (taken : TakenAway divisor (rest.shiftIn [d]) count left) :
    Divided divisor (d :: ds) (count :: counts, left) := by
  obtain ⟨normal, value, room⟩ := h.down small
  obtain ⟨hl, below, made⟩ := taken.total hd normal
  have times : count < 10 := Nat.lt_of_mul_lt_mul_right (Nat.lt_of_le_of_lt (Nat.le.intro made) room)
  have total : weigh counts * divisor.value + rest.value = weigh ds := h.total
  refine ⟨digits_cons.mpr ⟨Nat.le_of_lt_succ times, h.digits⟩, hl, below, ?_⟩
  dsimp only
  rw [weigh, weigh, Nat.add_mul, Nat.mul_assoc]
  omega

theorem LongDivision.divided (h : LongDivision divisor ds counts rest) (hd : divisor.Normal)
    (nonzero : divisor.value ≠ 0) (digits : ∀ d ∈ ds, d ≤ 9) : Divided divisor ds (counts, rest) := by
  induction h with
  | start => exact ⟨digits, normal_zero, Nat.pos_of_ne_zero nonzero, Nat.zero_mul divisor.value⟩
  | digit _ taken ih =>
    obtain ⟨small, above⟩ := digits_cons.mp digits
    exact (ih above).digit hd small taken

theorem longDivision_foldr (hd : divisor.Normal) (nonzero : divisor.value ≠ 0) (digits : ∀ d ∈ ds, d ≤ 9) :
    LongDivision divisor ds (ds.foldr (divideDigit divisor) ([], zero)).1
      (ds.foldr (divideDigit divisor) ([], zero)).2 := by
  -- before each digit the remainder is below the divisor, so ten tries are more than enough
  induction ds with
  | nil => exact .start
  | cons d ds ih =>
    obtain ⟨small, above⟩ := digits_cons.mp digits
    have before := ih above
    obtain ⟨normal, _, room⟩ := (before.divided hd nonzero above).down small
    exact .digit before (takenAway_takeAway hd normal room)

theorem divided_digits (hd : divisor.Normal) (nonzero : divisor.value ≠ 0) (digits : ∀ d ∈ ds, d ≤ 9) :
    Divided divisor ds (ds.foldr (divideDigit divisor) ([], zero)) :=
  (longDivision_foldr hd nonzero digits).divided hd nonzero digits

theorem LongDivision.unique (h : LongDivision divisor ds counts left)
    (h' : LongDivision divisor ds counts' left') : counts' = counts ∧ left' = left := by
  induction h generalizing counts' left' with
  | start =>
    cases h'
    exact ⟨rfl, rfl⟩
  | digit _ taken ih =>
    cases h' with
    | digit before taken' =>
      obtain ⟨rfl, rfl⟩ := ih before
      obtain ⟨rfl, rfl⟩ := taken.unique taken'
      exact ⟨rfl, rfl⟩

theorem Divided.values {sofar : List Nat × Numeral} (h : Divided divisor ds sofar) :
    weigh sofar.1 = weigh ds / divisor.value ∧ sofar.2.value = weigh ds % divisor.value := by
  have positive : 0 < divisor.value := Nat.zero_lt_of_lt h.below
  obtain ⟨quotient, rest⟩ := (Nat.div_mod_unique positive).mpr
    ⟨(Nat.add_comm ..).trans ((Nat.mul_comm ..) ▸ h.total), h.below⟩
  exact ⟨quotient.symm, rest.symm⟩

end

variable {a b : Numeral}

theorem divRem_zero (hb : b.Normal) (zero : b.value = 0) :
    divRem a b = .error (.divisionByZero a.text) := by
  unfold divRem
  rw [if_pos ((isZero_iff hb).mpr zero)]

theorem divRem_digits (ha : a.Normal) (hb : b.Normal) (nonzero : b.value ≠ 0) :
    divRem a b = .ok (ofDigits (a.digits.foldr (divideDigit b) ([], zero)).1,
      (a.digits.foldr (divideDigit b) ([], zero)).2) := by
  unfold divRem
  rw [if_neg fun zero => nonzero ((isZero_iff hb).mp zero)]
  split
  · next less =>
    have small : weigh a.digits < b.value := (lt_iff ha hb).mp less
    have run := divided_digits hb nonzero ha.2.1
    obtain ⟨quotient, rest⟩ := run.values
    rw [Nat.div_eq_of_lt small] at quotient
    rw [Nat.mod_eq_of_lt small] at rest
    rw [ofDigits_eq_zero quotient, eq_of_value_eq run.normal ha rest]
  · rfl

theorem divRem_spec (ha : a.Normal) (hb : b.Normal) (nonzero : b.value ≠ 0) :
    ∃ q r, divRem a b = .ok (q, r) ∧ q.Normal ∧ r.Normal ∧
      q.value = a.value / b.value ∧ r.value = a.value % b.value := by
  have run := divided_digits hb nonzero ha.2.1
  obtain ⟨quotient, rest⟩ := run.values
  exact ⟨_, _, divRem_digits ha hb nonzero, normal_ofDigits run.digits, run.normal,
    (weigh_ofDigits _).trans quotient, rest⟩

theorem floorDiv_spec (ha : a.Normal) (hb : b.Normal) (nonzero : b.value ≠ 0) :
    ∃ q, floorDiv a b = .ok q ∧ q.Normal ∧ q.value = a.value / b.value := by
  obtain ⟨q, r, divided, normal, _, value, _⟩ := divRem_spec ha hb nonzero
  exact ⟨q, congrArg (Except.map Prod.fst) divided, normal, value⟩

theorem rem_spec (ha : a.Normal) (hb : b.Normal) (nonzero : b.value ≠ 0) :
    ∃ r, rem a b = .ok r ∧ r.Normal ∧ r.value = a.value % b.value := by
  obtain ⟨q, r, divided, _, normal, _, value⟩ := divRem_spec ha hb nonzero
  exact ⟨r, congrArg (Except.map Prod.snd) divided, normal, value⟩

/-- Quotient and remainder of a division, in normal form and not longer than the dividend. -/
structure Division (a b q r : Numeral) : Prop where
  quotient : q.Normal
  rest : r.Normal
  total : a.value = q.value * b.value + r.value
  below : r.value < b.value
  quotient_short : q.digitCount ≤ a.digitCount
  rest_short : r.digitCount ≤ a.digitCount

theorem Divided.division {sofar : List Nat × Numeral} (h : Divided b a.digits sofar) (ha : a.Normal) :
    Division a b (ofDigits sofar.1) sofar.2 := by
  have normal := normal_ofDigits h.digits
  have total : a.value = (ofDigits sofar.1).value * b.value + sofar.2.value := by
    rw [value, value, weigh_ofDigits]
    exact h.total.symm
  have positive : 0 < b.value := Nat.zero_lt_of_lt h.below
  have least := Nat.le_mul_of_pos_right (ofDigits sofar.1).value positive
  exact {
    quotient := normal
    rest := h.normal
    total := total
    below := h.below
    quotient_short := digitCount_le_of_value_le normal ha (by omega)
    rest_short := digitCount_le_of_value_le h.normal ha (by omega) }

/-- The divisions by zero fail, with the dividend in the report. All others come out, with the
quotient and the remainder of the natural numbers. The quotient is written in the counts of the
loops, of which there is one run only; it takes the divisor away nine times at most for each
digit of the dividend. -/
theorem division_exact (ha : a.Normal) (hb : b.Normal) :
    (b.value = 0 → divRem a b = .error (.divisionByZero a.text) ∧
      floorDiv a b = .error (.divisionByZero a.text) ∧ rem a b = .error (.divisionByZero a.text)) ∧
    (b.value ≠ 0 → ∃ q r, divRem a b = .ok (q, r) ∧ floorDiv a b = .ok q ∧ rem a b = .ok r ∧
      Division a b q r ∧
      ∃ counts, q = ofDigits counts ∧ (∀ count ∈ counts, count ≤ 9) ∧
        ∀ passes left, LongDivision b a.digits passes left ↔ passes = counts ∧ left = r) := by
  constructor
  · intro zero
    have failed := divRem_zero (a := a) hb zero
    exact ⟨failed, congrArg (Except.map Prod.fst) failed, congrArg (Except.map Prod.snd) failed⟩
  · intro nonzero
    have divided := divRem_digits ha hb nonzero
    have run := divided_digits hb nonzero ha.2.1
    have loops := longDivision_foldr hb nonzero ha.2.1
    generalize a.digits.foldr (divideDigit b) ([], zero) = sofar at divided run loops
    refine ⟨ofDigits sofar.1, sofar.2, divided, congrArg (Except.map Prod.fst) divided,
      congrArg (Except.map Prod.snd) divided, run.division ha, sofar.1, rfl, run.digits, ?_⟩
    intro passes left
    constructor
    · exact fun other => loops.unique other
    · rintro ⟨rfl, rfl⟩
      exact loops

theorem division_exact_nine_passes :
    let a : Numeral := ⟨[5, 0, 0, 1]⟩
    let b : Numeral := ⟨[7, 1]⟩
    a.Normal ∧ b.Normal ∧ b.value ≠ 0 ∧ divRem a b = .ok (⟨[9, 5]⟩, ⟨[2]⟩) ∧
      Division a b ⟨[9, 5]⟩ ⟨[2]⟩ ∧
      ∃ counts, ⟨[9, 5]⟩ = ofDigits counts ∧ (∀ count ∈ counts, count ≤ 9) ∧
        LongDivision b a.digits counts ⟨[2]⟩ := by
  intro a b
  have ha : a.Normal := by decide
  have hb : b.Normal := by decide
  have nonzero : b.value ≠ 0 := by decide
  have computed : divRem a b = .ok (⟨[9, 5]⟩, ⟨[2]⟩) := by decide +kernel
  obtain ⟨q, r, divided, _, _, division, counts, quotient, nine, loops⟩ := (division_exact ha hb).2 nonzero
  rw [computed] at divided
  cases divided
  have run := (loops counts _).mpr ⟨rfl, rfl⟩
  exact ⟨ha, hb, nonzero, computed, division, counts, quotient, nine, run⟩

end Numeral
end Reckoner
