import Reckoner.Numeral.Difference
import Reckoner.Numeral.Quotient
import Reckoner.Numeral.Sum
import Reckoner.Proofs.Numeral.Magnitude

namespace Reckoner
namespace Numeral

theorem headD_le {ds : List Nat} (h : ∀ d ∈ ds, d ≤ 9) : ds.headD 0 ≤ 9 := by
  cases ds with
  | nil => exact Nat.zero_le 9
  | cons d ds => exact h d List.mem_cons_self

theorem addCarry_le {ds : List Nat} {carry : Nat} (h : ∀ d ∈ ds, d ≤ 9) (small : carry ≤ 9) :
    ∀ d ∈ addCarry ds carry, d ≤ 9 := by
  induction ds generalizing carry with
  | nil =>
    cases carry with
    | zero => exact h
    | succ c => exact List.forall_mem_singleton.mpr small
  | cons e ds ih =>
    cases carry with
    | zero => exact h
    | succ c =>
      obtain ⟨low, rest⟩ := digits_cons.mp h
      exact digits_cons.mpr ⟨by omega, ih rest (by omega)⟩

theorem row_le {d : Nat} {upper lower : List Nat} {carry : Nat} (factor : d ≤ 9)
    (hu : ∀ e ∈ upper, e ≤ 9) (hl : ∀ e ∈ lower, e ≤ 9) (small : carry ≤ 9) :
    ∀ e ∈ row d upper lower carry, e ≤ 9 := by
  -- nine times nine, nine more from below and nine carried come to 99
  induction upper generalizing lower carry with
  | nil => exact addCarry_le hl small
  | cons u us ih =>
    obtain ⟨high, rest⟩ := digits_cons.mp hu
    have below := headD_le hl
    have above : ∀ e ∈ lower.tail, e ≤ 9 := fun e member => hl e (List.mem_of_mem_tail member)
    have column : d * u ≤ 9 * 9 := Nat.mul_le_mul factor high
    exact digits_cons.mpr ⟨by omega, ih rest above (by omega)⟩

theorem productDigits_le {long short : List Nat} (hl : ∀ d ∈ long, d ≤ 9)
    (hs : ∀ d ∈ short, d ≤ 9) : ∀ d ∈ productDigits long short, d ≤ 9 := by
  induction short with
  | nil => exact fun d member => absurd member List.not_mem_nil
  | cons s short ih =>
    obtain ⟨factor, rest⟩ := digits_cons.mp hs
    have shifted : ∀ d ∈ 0 :: productDigits long short, d ≤ 9 := digits_cons.mpr ⟨Nat.zero_le 9, ih rest⟩
    exact row_le factor hl shifted (Nat.zero_le 9)

variable {a b n : Numeral}

theorem normal_sum (ha : a.Normal) (hb : b.Normal) : (sum a b).Normal :=
  normal_ofDigits (row_le (by decide) ha.2.1 hb.2.1 (Nat.zero_le 9))

theorem normal_timesDigit {d : Nat} (h : n.Normal) (factor : d ≤ 9) : (n.timesDigit d).Normal := by
  have empty : ∀ e ∈ ([] : List Nat), e ≤ 9 := fun e member => absurd member List.not_mem_nil
  exact normal_ofDigits (row_le factor h.2.1 empty (Nat.zero_le 9))

theorem normal_product (ha : a.Normal) (hb : b.Normal) : (product a b).Normal := by
  unfold product
  split
  · exact normal_ofDigits (productDigits_le ha.2.1 hb.2.1)
  · exact normal_ofDigits (productDigits_le hb.2.1 ha.2.1)

theorem lend_spec {upper lower : List Nat} {borrow : Nat} (hu : ∀ d ∈ upper, d ≤ 9)
    (hl : ∀ d ∈ lower, d ≤ 9) (flag : borrow ≤ 1) (enough : weigh lower + borrow ≤ weigh upper) :
    weigh (lend upper lower borrow) + (weigh lower + borrow) = weigh upper ∧
      ∀ d ∈ lend upper lower borrow, d ≤ 9 := by
  -- what is lent at the top has to come back, so the lower number must not be larger
  induction upper generalizing lower borrow with
  | nil =>
    have nothing : weigh lower + borrow = 0 := Nat.le_zero.mp enough
    exact ⟨by rw [nothing]; rfl, fun d member => absurd member List.not_mem_nil⟩
  | cons u us ih =>
    obtain ⟨here, above⟩ := digits_cons.mp hu
    have below := headD_le hl
    have rest : ∀ d ∈ lower.tail, d ≤ 9 := fun d member => hl d (List.mem_of_mem_tail member)
    have parts := weigh_head_tail lower
    have column (d : Nat) (ds : List Nat) : weigh (d :: ds) = d + 10 * weigh ds := rfl
    rw [column] at enough
    unfold lend
    dsimp only
    split
    · next spare =>
      obtain ⟨value, digits⟩ := ih above rest (Nat.zero_le 1) (by omega)
      refine ⟨?_, digits_cons.mpr ⟨by omega, digits⟩⟩
      simp only [column]
      omega
    · next short =>
      obtain ⟨value, digits⟩ := ih above rest (Nat.le_refl 1) (by omega)
      refine ⟨?_, digits_cons.mpr ⟨by omega, digits⟩⟩
      simp only [column]
      omega

theorem value_difference (ha : a.Normal) (hb : b.Normal) (h : b.value ≤ a.value) :
    (difference a b).value = a.value - b.value := by
  have written := (lend_spec ha.2.1 hb.2.1 (Nat.zero_le 1) h).1
  unfold difference value at *
  rw [weigh_ofDigits]
  omega

theorem normal_difference (ha : a.Normal) (hb : b.Normal) (h : b.value ≤ a.value) :
    (difference a b).Normal :=
  normal_ofDigits (lend_spec ha.2.1 hb.2.1 (Nat.zero_le 1) h).2

theorem sub_eq (ha : a.Normal) (hb : b.Normal) :
    a.sub b = if b.value ≤ a.value then .ok (difference a b) else .error (.negative a.text b.text) := by
  -- the digits decide as the values do, so what is taken away column by column is never the larger
  -- number
  have order := lt_iff ha hb
  unfold sub
  by_cases enough : b.value ≤ a.value
  · rw [if_pos enough, if_neg fun less => Nat.not_le_of_lt (order.mp less) enough]
  · rw [if_neg enough, if_pos (order.mpr (Nat.lt_of_not_le enough))]

theorem weigh_append (low high : List Nat) :
    weigh (low ++ high) = weigh low + 10 ^ low.length * weigh high := by
  induction low with
  | nil => simp [weigh]
  | cons d low ih =>
    have power : 10 ^ (d :: low).length * weigh high = 10 * (10 ^ low.length * weigh high) := by
      rw [List.length_cons, Nat.pow_succ', Nat.mul_assoc]
    rw [List.cons_append, weigh, weigh, ih, power]
    omega

theorem value_shiftIn (n : Numeral) (low : List Nat) :
    (n.shiftIn low).value = weigh low + 10 ^ low.length * n.value := by
  unfold shiftIn value
  split
  · next zero =>
    have nothing : n.digits = [0] := beq_iff_eq.mp zero
    rw [weigh_ofDigits, nothing]
    rfl
  · rw [weigh_ofDigits, weigh_append]

theorem normal_shiftIn {low : List Nat} (h : n.Normal) (digits : ∀ d ∈ low, d ≤ 9) :
    (n.shiftIn low).Normal := by
  unfold shiftIn
  split
  · exact normal_ofDigits digits
  · exact normal_ofDigits (List.forall_mem_append.mpr ⟨digits, h.2.1⟩)

theorem halfDigits_le {ds : List Nat} (h : ∀ d ∈ ds, d ≤ 9) : ∀ d ∈ (halfDigits ds).1, d ≤ 9 := by
  induction ds with
  | nil => exact h
  | cons e ds ih =>
    obtain ⟨low, rest⟩ := digits_cons.mp h
    have carry := (weigh_halfDigits ds).2
    exact digits_cons.mpr ⟨by omega, ih rest⟩

theorem normal_halved (h : n.Normal) : n.halved.Normal := normal_ofDigits (halfDigits_le h.2.1)

end Numeral
end Reckoner
