import Reckoner.Guarded.Root
import Reckoner.Proofs.Guarded.Product
import Reckoner.Proofs.Numeral.SquareRoot

namespace Reckoner.Guarded
open Numeral (weigh)

theorem firstFit_ok {α : Type} {otherwise : α} {test : Nat → Except Fault (Option α)} {fits : Nat → Bool}
    (found : Nat → α) (zero : fits 0 = true) {bound : Nat}
    (runs : ∀ d ≤ bound, test d = .ok (if fits d then some (found d) else none)) :
    firstFit otherwise test (bound + 1) = .ok (found (Numeral.greatest fits bound)) := by
  induction bound with
  | zero =>
    unfold firstFit
    rw [runs 0 (Nat.le_refl 0), zero]
    rfl
  | succ bound ih =>
    unfold firstFit Numeral.greatest
    rw [runs (bound + 1) (Nat.le_refl _)]
    split
    · rfl
    · exact ih fun d inside => runs d (Nat.le_succ_of_le inside)

variable {n doubled rest : Numeral}

theorem double_ok {root : List Nat} (digits : ∀ d ∈ root, d ≤ 9) :
    double root = .ok (Numeral.ofDigits (Numeral.row 2 root [] 0)) := by
  obtain ⟨columns, run, carried⟩ := foldlM_ok (f := doubleDigit)
    (P := fun i columns => Carried (2 * weigh (root.take i)) i columns) root carried_nil
    fun i d columns found kept => by
      have small : d ≤ 9 := digits d (List.mem_of_getElem? found)
      have carry := kept.carry
      have used : 2 * weigh (root.take (i + 1)) = 2 * weigh (root.take i) + 10 ^ i * (d * 2) := by
        rw [weigh_take_found found]
        ring
      simp only [doubleDigit, byte_ok (show d * 2 ≤ 255 by omega),
        byte_ok (show d * 2 + columns.2 ≤ 255 by omega), ok_bind, used]
      exact ⟨_, rfl, kept.column (by omega)⟩
  obtain ⟨written, total⟩ := carried.close
  rw [List.take_length] at total
  have same : Numeral.ofDigits columns.close = Numeral.ofDigits (Numeral.row 2 root [] 0) :=
    eq_ofDigits written (Numeral.normal_doubled digits) (total.trans (Numeral.value_doubled root).symm)
  simp only [double, run, ok_bind, same]
  rfl

theorem nextDigit_ok (hd : doubled.Normal) (hr : rest.Normal) :
    nextDigit doubled rest = .ok (Numeral.nextRootDigit doubled rest,
      Numeral.trial doubled (Numeral.nextRootDigit doubled rest)) := by
  have zero : (Numeral.trial doubled 0).le rest = true :=
    (Numeral.trial_le_iff hd hr (Nat.zero_le 9)).mpr (by omega)
  apply firstFit_ok (fun d => (d, Numeral.trial doubled d)) zero
  intro d small
  have shifted : (doubled.shiftIn [d]).Normal :=
    Numeral.normal_shiftIn hd (List.forall_mem_singleton.mpr small)
  rw [timesDigit_ok shifted small]
  rfl

def pairDigits (p : Nat × Nat) : List Nat := [p.1, p.2]

theorem rootDigit_ok {ps : List (Nat × Nat)} {sofar : List Nat × Numeral} (h : Numeral.Rooted ps sofar)
    {p : Nat × Nat} (small : p.1 ≤ 9 ∧ p.2 ≤ 9) :
    rootDigit sofar (pairDigits p) = .ok (Numeral.rootDigit p sofar) := by
  have hd := Numeral.normal_doubled h.digits
  have doubled := Numeral.value_doubled sofar.1
  have hr : (sofar.2.shiftIn [p.1, p.2]).Normal := Numeral.normal_shiftIn h.normal (by simpa using small)
  have down : (sofar.2.shiftIn [p.1, p.2]).value = p.1 + 10 * p.2 + 100 * sofar.2.value :=
    Numeral.value_shiftIn sofar.2 [p.1, p.2]
  have below := h.below
  obtain ⟨nine, fits, _⟩ := Numeral.nextRootDigit_spec hd hr (by omega)
  rw [← Numeral.value_trial] at fits
  have taken := difference_ok hr (Numeral.normal_trial hd nine) fits
  simp only [rootDigit, pairDigits, double_ok h.digits, nextDigit_ok hd hr, taken, ok_bind,
    Numeral.rootDigit_eq]
  rfl

theorem seedDigit_ok (hd : doubled.Normal) (nothing : doubled.value = 0) (hr : rest.Normal) :
    seedDigit rest.value = .ok (Numeral.nextRootDigit doubled rest) := by
  have square {d : Nat} (small : d ≤ 9) : (Numeral.trial doubled d).le rest = true ↔ d * d ≤ rest.value := by
    rw [Numeral.trial_le_iff hd hr small, nothing, Nat.mul_zero, Nat.add_zero]
  apply firstFit_ok (fun d => d) ((square (Nat.zero_le 9)).mpr (Nat.zero_le _))
  intro d small
  have product : d * d ≤ 9 * 9 := Nat.mul_le_mul small small
  rw [byte_ok (show d * d ≤ 255 by omega), ok_bind]
  simp only [square small]
  rfl

theorem leadingNumber_ok {low high : Nat} (units : low ≤ 9) (tens : high ≤ 9) (pairs : List (List Nat)) :
    leadingNumber (pairDigits (low, high) :: pairs) = .ok (high * 10 + low) := by
  have upper : [low, high][1]? = some high := rfl
  have lower : [low, high][0]? = some low := rfl
  simp only [leadingNumber, pairDigits, fetch_ok upper, fetch_ok lower, byte_ok (show high * 10 ≤ 255 by omega),
    byte_ok (show high * 10 + low ≤ 255 by omega), ok_bind]

theorem ofDigits_two (h : n.Normal) (small : n.value ≤ 99) :
    Numeral.ofDigits [n.value % 10, n.value / 10] = n := by
  apply eq_ofDigits _ h
  · simp only [weigh]
    omega
  · intro d member
    simp only [List.mem_cons, List.not_mem_nil, or_false] at member
    rcases member with rfl | rfl
    · omega
    · omega

theorem rootDigits_cons {p : Nat × Nat} (small : p.1 ≤ 9 ∧ p.2 ≤ 9) (pairs : List (List Nat)) :
    rootDigits (pairDigits p :: pairs) =
      pairs.foldlM rootDigit (Numeral.rootDigit p ([], Numeral.zero)) >>= fun sofar => .ok sofar.1 := by
  -- the first pair, in a byte of its own, gives what the other method finds from nothing
  obtain ⟨low, high⟩ := p
  obtain ⟨units, tens⟩ : low ≤ 9 ∧ high ≤ 9 := small
  have hd : (Numeral.ofDigits (Numeral.row 2 [] [] 0)).Normal :=
    Numeral.normal_doubled fun d member => absurd member List.not_mem_nil
  have nothing : (Numeral.ofDigits (Numeral.row 2 [] [] 0)).value = 0 := rfl
  have hr : (Numeral.zero.shiftIn [low, high]).Normal :=
    Numeral.normal_shiftIn Numeral.normal_zero (by simp [units, tens])
  have value : high * 10 + low = (Numeral.zero.shiftIn [low, high]).value := by
    rw [Numeral.value_shiftIn]
    simp only [weigh, Numeral.value, Numeral.zero]
    omega
  have leading := leadingNumber_ok units tens pairs
  have seed := seedDigit_ok hd nothing hr
  rw [Numeral.rootDigit_eq]
  dsimp only
  rw [value] at leading
  generalize Numeral.ofDigits (Numeral.row 2 [] [] 0) = double at *
  generalize Numeral.zero.shiftIn [low, high] = rest at *
  obtain ⟨nine, fits, _⟩ := Numeral.nextRootDigit_spec hd hr (by omega)
  generalize Numeral.nextRootDigit double rest = d at *
  have trial := Numeral.normal_trial hd nine
  have taken := Numeral.value_trial double d
  rw [nothing, Nat.mul_zero, Nat.add_zero] at fits taken
  rw [← taken] at fits
  have left := ofDigits_two (Numeral.normal_difference hr trial fits)
  rw [Numeral.value_difference hr trial fits, taken] at left
  have square : d * d ≤ 9 * 9 := Nat.mul_le_mul nine nine
  simp only [rootDigits, leading, seed, byte_ok (show d * d ≤ 255 by omega), minus_ok (taken ▸ fits), ok_bind,
    left (by omega), List.tail_cons]
  rfl

theorem foldlM_rootDigit {first : Nat × Nat} {ps : List (Nat × Nat)}
    (small : ∀ p ∈ ps ++ [first], p.1 ≤ 9 ∧ p.2 ≤ 9) :
    (ps.map pairDigits).reverse.foldlM rootDigit (Numeral.rootDigit first ([], Numeral.zero)) =
      .ok ((ps ++ [first]).foldr Numeral.rootDigit ([], Numeral.zero)) := by
  induction ps with
  | nil => rfl
  | cons p ps ih =>
    rw [List.cons_append] at small
    obtain ⟨here, above⟩ := List.forall_mem_cons.mp small
    rw [List.map_cons, List.reverse_cons, List.foldlM_append, ih above, ok_bind, List.foldlM_cons,
      rootDigit_ok (Numeral.rooted_pairs above) here]
    rfl

theorem inPairs_padded (ds : List Nat) :
    inPairs (if ds.length % 2 = 1 then ds ++ [0] else ds) = (Numeral.pairs ds).map pairDigits := by
  induction ds using Numeral.pairs.induct with
  | case1 => rfl
  | case2 d => rfl
  | case3 d e ds ih =>
    have parity : (d :: e :: ds).length % 2 = ds.length % 2 := by
      simp only [List.length_cons]
      omega
    rw [parity, Numeral.pairs, List.map_cons, ← ih]
    split <;> rfl

theorem rootDigits_ok (h : n.Normal) :
    rootDigits ((Numeral.pairs n.digits).map pairDigits).reverse =
      .ok ((Numeral.pairs n.digits).foldr Numeral.rootDigit ([], Numeral.zero)).1 := by
  have small := Numeral.pairs_le h.2.1
  rcases List.eq_nil_or_concat (Numeral.pairs n.digits) with empty | ⟨ps, first, split⟩
  · obtain ⟨d, ds, digits⟩ := List.exists_cons_of_ne_nil h.1
    rw [digits] at empty
    cases ds <;> cases empty
  · rw [List.concat_eq_append] at split
    rw [split] at small ⊢
    have last := small first (List.mem_append_right ps (List.mem_singleton_self first))
    rw [List.map_append, List.map_singleton, List.reverse_concat, rootDigits_cons last,
      foldlM_rootDigit small, ok_bind]

theorem isOwnRoot_ok (h : n.Normal) : isOwnRoot n = .ok (decide (n.value < 2)) := by
  unfold isOwnRoot
  split
  · next single =>
    obtain ⟨d, digits⟩ := List.length_eq_one_iff.mp single
    have value : n.value = d := by
      unfold Numeral.value
      rw [digits]
      rfl
    rw [fetch_ok (show n.digits[0]? = some d by rw [digits]; rfl), value]
    rfl
  · next several =>
    have longer : Numeral.one.digitCount < n.digitCount := Nat.lt_of_le_of_ne h.digitCount_pos (Ne.symm several)
    have more : 2 ≤ n.value := Numeral.value_lt_of_digitCount_lt Numeral.normal_one h longer
    rw [decide_eq_false (Nat.not_lt_of_le more)]
    rfl

theorem sqrt_eq_self (h : n.Normal) (small : n.value < 2) : n.sqrt = n := by
  apply Numeral.eq_of_value_eq (Numeral.normal_sqrt h) h
  rw [Numeral.value_sqrt h]
  rcases Nat.le_one_iff_eq_zero_or_eq_one.mp (Nat.le_of_lt_succ small) with zero | one
  · rw [zero, Nat.sqrt_zero]
  · rw [one, Nat.sqrt_one]

theorem sqrt_ok (h : n.Normal) : sqrt n = .ok n.sqrt := by
  unfold sqrt
  rw [isOwnRoot_ok h, ok_bind]
  split
  · next own =>
    rw [sqrt_eq_self h (of_decide_eq_true own)]
    rfl
  · have root := Numeral.normal_sqrt h
    have value := Numeral.value_sqrt h
    have next := Numeral.normal_sum root Numeral.normal_one
    have least : n.sqrt.value * n.sqrt.value ≤ n.value := value ▸ Nat.sqrt_le n.value
    have most : n.value < (n.sqrt.value + 1) * (n.sqrt.value + 1) := value ▸ Nat.lt_succ_sqrt n.value
    have below := (Numeral.le_iff (Numeral.normal_product root root) h).mpr (by rwa [Numeral.value_product])
    have above := (Numeral.lt_iff h (Numeral.normal_product next next)).mpr
      (by rwa [Numeral.value_product, Numeral.value_sum])
    have padded : inPairs (if n.digitCount % 2 = 1 then n.digits ++ [0] else n.digits) =
        (Numeral.pairs n.digits).map pairDigits := inPairs_padded n.digits
    have digits : Numeral.ofDigits ((Numeral.pairs n.digits).foldr Numeral.rootDigit ([], Numeral.zero)).1 =
      n.sqrt := rfl
    simp only [padded, rootDigits_ok h, ok_bind, digits, product_ok root root, check_ok below,
      sum_ok root Numeral.normal_one, product_ok next next, check_ok above]
    rfl

end Reckoner.Guarded
