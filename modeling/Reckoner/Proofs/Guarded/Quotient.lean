import Reckoner.Guarded.Power
import Reckoner.Proofs.Guarded.Product
import Reckoner.Proofs.Numeral.Division
import Reckoner.Proofs.Numeral.Limit

namespace Reckoner.Guarded
open Numeral (weigh)

variable {a b n divisor rest : Numeral}

theorem takeAway_ok (spare : Nat) {i c tries : Nat} {quotient : List Nat} (hd : divisor.Normal)
    (hr : rest.Normal) (enough : rest.value < tries * divisor.value) (here : quotient[i]? = some c)
    (room : c + tries ≤ 255) :
    takeAway divisor i (spare + tries) quotient rest =
      .ok (quotient.set i (c + (Numeral.takeAway divisor tries rest).1),
        (Numeral.takeAway divisor tries rest).2) := by
  induction tries generalizing c quotient rest with
  | zero => simp at enough
  | succ tries ih =>
    obtain ⟨inside, rfl⟩ := List.getElem?_eq_some_iff.mp here
    unfold takeAway Numeral.takeAway
    split
    · next fits =>
      have le := (Numeral.le_iff hd hr).mp fits
      have value := Numeral.value_difference hr hd le
      have fewer : (Numeral.difference rest divisor).value < tries * divisor.value := by
        rw [Nat.succ_mul] at enough
        omega
      have raised := List.getElem?_set_self (a := quotient[i] + 1) inside
      have again := ih (Numeral.normal_difference hr hd le) fewer raised (by omega)
      simp only [Nat.add_eq, fetch_ok here, byte_ok (show quotient[i] + 1 ≤ 255 by omega), store_ok _ inside,
        difference_ok hr hd le, ok_bind, again, List.set_set, Nat.add_assoc, Nat.add_comm 1]
    · simp only [Nat.add_zero, List.set_getElem_self]

theorem divideDigits_ok (hb : b.Normal) (nonzero : b.value ≠ 0) {ds : List Nat} (digits : ∀ d ∈ ds, d ≤ 9)
    (i : Nat) :
    (ds.zipIdx i).foldrM (divideDigit b) (List.replicate (i + ds.length) 0, Numeral.zero) =
      .ok (List.replicate i 0 ++ (ds.foldr (Numeral.divideDigit b) ([], Numeral.zero)).1,
        (ds.foldr (Numeral.divideDigit b) ([], Numeral.zero)).2) := by
  induction ds generalizing i with
  | nil =>
    simp only [List.foldr_nil, List.append_nil]
    rfl
  | cons d ds ih =>
    obtain ⟨small, above⟩ := Numeral.digits_cons.mp digits
    have divided := Numeral.divided_digits hb nonzero above
    have upper := ih above (i + 1)
    rw [Nat.add_right_comm] at upper
    simp only [List.zipIdx_cons, List.foldrM_cons, List.length_cons, ← Nat.add_assoc, upper, ok_bind,
      List.foldr_cons]
    generalize ds.foldr (Numeral.divideDigit b) ([], Numeral.zero) = sofar at divided
    obtain ⟨normal, _, room⟩ := divided.down small
    have zero : (List.replicate (i + 1) 0 ++ sofar.1)[i]? = some 0 := by
      simp [List.getElem?_append]
    have taken := takeAway_ok 246 hb normal room zero (by decide)
    rw [set_zeros, Nat.zero_add] at taken
    exact taken

theorem divRem_ok (ha : a.Normal) (hb : b.Normal) : divRem a b = .ok (a.divRem b) := by
  unfold divRem Numeral.divRem
  split
  · rw [text_ok ha]
    rfl
  · next nonzero =>
    rw [Numeral.isZero_iff hb] at nonzero
    split
    · rfl
    · have divided := Numeral.divided_digits hb nonzero ha.2.1
      have run := divideDigits_ok hb nonzero ha.2.1 0
      rw [Nat.zero_add] at run
      simp only [Numeral.digitCount, run, ok_bind, List.replicate_zero, List.nil_append]
      generalize a.digits.foldr (Numeral.divideDigit b) ([], Numeral.zero) = result at divided
      have quotient := Numeral.normal_ofDigits divided.digits
      have product := Numeral.normal_product quotient hb
      have whole : Numeral.sum (Numeral.product (Numeral.ofDigits result.1) b) result.2 = a := by
        apply Numeral.eq_of_value_eq (Numeral.normal_sum product divided.normal) ha
        rw [Numeral.value_sum, Numeral.value_product, Numeral.value, Numeral.weigh_ofDigits]
        exact divided.total
      have left := check_ok ((Numeral.lt_iff divided.normal hb).mpr divided.below)
      simp only [left, product_ok quotient hb, sum_ok product divided.normal, ok_bind,
        check_ok (decide_eq_true whole)]
      rfl

theorem halveDigits_ok {ds : List Nat} {i : Nat} (columns : Columns) (digits : ∀ d ∈ ds, d ≤ 9)
    (room : i + ds.length ≤ columns.1.length) (carry : columns.2 ≤ 1) :
    ∃ later, (ds.zipIdx i).foldrM halveDigit columns = .ok later ∧
      later.1.length = columns.1.length ∧ later.2 ≤ 1 := by
  induction ds generalizing i with
  | nil => exact ⟨columns, rfl, rfl, carry⟩
  | cons d ds ih =>
    obtain ⟨small, above⟩ := Numeral.digits_cons.mp digits
    rw [List.length_cons] at room
    obtain ⟨upper, run, length, flag⟩ := ih (i := i + 1) above (by omega)
    refine ⟨(upper.1.set i ((upper.2 * 10 + d) / 2), (upper.2 * 10 + d) % 2), ?_, ?_, ?_⟩
    · have inside : i < upper.1.length := by omega
      simp only [List.zipIdx_cons, List.foldrM_cons, run, ok_bind, halveDigit,
        byte_ok (show upper.2 * 10 ≤ 255 by omega), byte_ok (show upper.2 * 10 + d ≤ 255 by omega),
        store_ok _ inside]
      rfl
    · simp only [List.length_set, length]
    · dsimp only
      omega

theorem halved_ok (h : n.Normal) : halved n = .ok n.halved := by
  obtain ⟨columns, run, _⟩ := halveDigits_ok (i := 0) (List.replicate n.digitCount 0, 0) h.2.1
    (by simp [Numeral.digitCount]) (Nat.zero_le 1)
  have done : halved n = .ok (Numeral.ofDigits columns.1) := by
    simp only [halved, run, ok_bind]
    rfl
  exact done.trans (congrArg Except.ok (halved_eq done))

/- Powers. -/

theorem isEven_ok (h : n.Normal) : isEven n = .ok n.isEven := by
  obtain ⟨digits⟩ := n
  cases digits with
  | nil => exact absurd rfl h.1
  | cons d ds => rfl

theorem powBySquaring_halved {base exponent : Numeral} {limit : DigitLimit} (he : exponent.Normal)
    (several : ¬ exponent.isZero = true) (more : ¬ exponent.isOne = true) :
    powBySquaring base exponent limit = mul base base limit >>= fun
      | .error e => .ok (.error e)
      | .ok squared => powBySquaring squared exponent.halved limit >>= fun
        | .error e => .ok (.error e)
        | .ok rest => if exponent.isEven then .ok (.ok rest) else mul base rest limit := by
  rw [powBySquaring, dif_neg several, if_neg more]
  cases mul base base limit with
  | error fault => rfl
  | ok squared =>
    cases squared with
    | error e => rfl
    | ok squared =>
      dsimp only [ok_bind]
      split
      · next fault halving =>
        rw [halved_ok he] at halving
        cases halving
      · next half halving =>
        obtain rfl := halved_eq halving
        cases powBySquaring squared exponent.halved limit with
        | error fault => rfl
        | ok rest =>
          cases rest with
          | error e => rfl
          | ok rest =>
            simp only [isEven_ok he, ok_bind]
            rfl

theorem powBySquaring_ok {base exponent : Numeral} {limit : DigitLimit} (hb : base.Normal)
    (he : exponent.Normal) :
    powBySquaring base exponent limit = .ok (Numeral.powBySquaring base exponent limit) ∧
      ∀ r, Numeral.powBySquaring base exponent limit = .ok r → r.Normal := by
  -- the normal forms are carried along: squares and products ask for them
  fun_induction Numeral.powBySquaring base exponent limit with
  | case1 base exponent zero =>
    rw [powBySquaring, dif_pos zero]
    refine ⟨rfl, ?_⟩
    rintro r ⟨⟩
    exact Numeral.normal_one
  | case2 base exponent positive one =>
    rw [powBySquaring, dif_neg positive, if_pos one]
    refine ⟨rfl, ?_⟩
    rintro r ⟨⟩
    exact hb
  | case3 base exponent positive more cause square =>
    rw [powBySquaring_halved he positive more, mul_ok hb hb, square]
    refine ⟨rfl, ?_⟩
    rintro r ⟨⟩
  | case4 base exponent positive more squared square cause higher ih =>
    have power := (ih (Numeral.result_of_mul hb hb square).1 (Numeral.normal_halved he)).1
    constructor
    · simp only [powBySquaring_halved he positive more, mul_ok hb hb, square, power, higher, ok_bind]
    · rintro r ⟨⟩
  | case5 base exponent positive more squared square rest higher even ih =>
    obtain ⟨power, normal⟩ := ih (Numeral.result_of_mul hb hb square).1 (Numeral.normal_halved he)
    constructor
    · simp only [powBySquaring_halved he positive more, mul_ok hb hb, square, power, higher, ok_bind, even, if_true]
    · rintro r ⟨⟩
      exact normal rest higher
  | case6 base exponent positive more squared square rest higher odd ih =>
    obtain ⟨power, normal⟩ := ih (Numeral.result_of_mul hb hb square).1 (Numeral.normal_halved he)
    have hr := normal rest higher
    refine ⟨?_, fun r product => (Numeral.result_of_mul hb hr product).1⟩
    simp only [powBySquaring_halved he positive more, mul_ok hb hb, square, power, higher, ok_bind, odd,
      mul_ok hb hr]
    rfl

theorem pow_ok (ha : a.Normal) (hb : b.Normal) (limit : DigitLimit) : pow a b limit = .ok (a.pow b limit) := by
  -- what is left to squaring has a positive exponent, so the power is not below its base
  unfold pow Numeral.pow
  split
  · rfl
  · next positive =>
    split
    · rfl
    · next other =>
      simp only [Bool.or_eq_true, not_or, Numeral.isZero_iff hb, Numeral.isOne_iff hb] at positive other
      have held : Numeral.Held limit _ _ :=
        Numeral.held_powBySquaring ha hb fun one => absurd one other.1.1
      rw [(powBySquaring_ok ha hb).1, ok_bind]
      generalize Numeral.powBySquaring a b limit = outcome at held ⊢
      cases held with
      | fits normal value _ =>
        have larger : a.value ≤ a.value ^ b.value := Nat.le_self_pow positive a.value
        simp only [check_ok ((Numeral.le_iff ha normal).mpr (value ▸ larger)), ok_bind]
        rfl
      | exceeds _ _ => rfl

end Reckoner.Guarded
