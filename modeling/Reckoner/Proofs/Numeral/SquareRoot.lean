import Mathlib.Data.Nat.Sqrt
import Mathlib.Tactic.Ring
import Reckoner.Numeral.Root
import Reckoner.Proofs.Numeral.Written

namespace Reckoner
namespace Numeral

def weighPairs : List (Nat × Nat) → Nat
  | [] => 0
  | (d, e) :: ps => d + 10 * e + 100 * weighPairs ps

theorem weighPairs_pairs (ds : List Nat) : weighPairs (pairs ds) = weigh ds := by
  induction ds using pairs.induct with
  | case1 => rfl
  | case2 d => rfl
  | case3 d e ds ih =>
    unfold pairs weighPairs
    rw [ih, weigh, weigh]
    omega

theorem pairs_le {ds : List Nat} (h : ∀ d ∈ ds, d ≤ 9) : ∀ p ∈ pairs ds, p.1 ≤ 9 ∧ p.2 ≤ 9 := by
  induction ds using pairs.induct with
  | case1 => exact fun p member => absurd member List.not_mem_nil
  | case2 d =>
    have small : d ≤ 9 := h d (List.mem_singleton_self d)
    exact List.forall_mem_singleton.mpr ⟨small, Nat.zero_le 9⟩
  | case3 d e ds ih =>
    obtain ⟨first, others⟩ := digits_cons.mp h
    obtain ⟨second, rest⟩ := digits_cons.mp others
    exact List.forall_mem_cons.mpr ⟨⟨first, second⟩, ih rest⟩

theorem greatest_le (fits : Nat → Bool) (bound : Nat) : greatest fits bound ≤ bound := by
  induction bound with
  | zero => exact Nat.le_refl 0
  | succ d ih =>
    unfold greatest
    split
    · exact Nat.le_refl _
    · exact Nat.le_succ_of_le ih

theorem greatest_fits {fits : Nat → Bool} (zero : fits 0 = true) (bound : Nat) :
    fits (greatest fits bound) = true := by
  induction bound with
  | zero => exact zero
  | succ d ih =>
    unfold greatest
    split
    · next yes => exact yes
    · exact ih

theorem not_fits_of_greatest_lt {fits : Nat → Bool} {bound d : Nat}
    (above : greatest fits bound < d) (inside : d ≤ bound) : fits d = false := by
  induction bound with
  | zero => omega
  | succ top ih =>
    unfold greatest at above
    split at above
    · omega
    · next no =>
      by_cases last : d = top + 1
      · exact last ▸ Bool.eq_false_iff.mpr no
      · exact ih above (by omega)

theorem value_trial (doubled : Numeral) (d : Nat) :
    (trial doubled d).value = d * (d + 10 * doubled.value) := by
  unfold trial
  rw [value_timesDigit, value_shiftIn]
  rfl

theorem normal_trial {doubled : Numeral} (h : doubled.Normal) {d : Nat} (small : d ≤ 9) :
    (trial doubled d).Normal := by
  apply normal_timesDigit _ small
  exact normal_shiftIn h (List.forall_mem_singleton.mpr small)

theorem trial_le_iff {doubled rest : Numeral} (hd : doubled.Normal) (hr : rest.Normal) {d : Nat}
    (small : d ≤ 9) : (trial doubled d).le rest = true ↔ d * (d + 10 * doubled.value) ≤ rest.value := by
  rw [le_iff (normal_trial hd small) hr, value_trial]

/-- The digit that the written root takes next. -/
def nextRootDigit (doubled rest : Numeral) : Nat := greatest (fun d => (trial doubled d).le rest) 9

theorem nextRootDigit_spec {doubled rest : Numeral} (hd : doubled.Normal) (hr : rest.Normal)
    (room : rest.value < 10 * (10 + 10 * doubled.value)) :
    nextRootDigit doubled rest ≤ 9 ∧
      nextRootDigit doubled rest * (nextRootDigit doubled rest + 10 * doubled.value) ≤ rest.value ∧
      rest.value < (nextRootDigit doubled rest + 1) *
        (nextRootDigit doubled rest + 1 + 10 * doubled.value) := by
  generalize digit : nextRootDigit doubled rest = d
  unfold nextRootDigit at digit
  let fits (d : Nat) : Bool := (trial doubled d).le rest
  have search : greatest fits 9 = d := digit
  have nine : d ≤ 9 := search ▸ greatest_le fits 9
  have zero : fits 0 = true := (trial_le_iff hd hr (Nat.zero_le 9)).mpr (by omega)
  have yes : fits d = true := search ▸ greatest_fits zero 9
  refine ⟨nine, (trial_le_iff hd hr nine).mp yes, ?_⟩
  -- ten is never tried, but there is no room for it
  by_cases last : d = 9
  · subst last
    exact room
  · have inside : d + 1 ≤ 9 := by omega
    have no : fits (d + 1) = false := not_fits_of_greatest_lt (search ▸ Nat.lt_succ_self d) inside
    apply Nat.lt_of_not_le
    intro more
    have fit : fits (d + 1) = true := (trial_le_iff hd hr inside).mpr more
    rw [no] at fit
    cases fit

/-- The digits of a root and the remainder that go with the pairs `ps`. -/
structure Rooted (ps : List (Nat × Nat)) (sofar : List Nat × Numeral) : Prop where
  digits : ∀ d ∈ sofar.1, d ≤ 9
  normal : sofar.2.Normal
  total : weigh sofar.1 * weigh sofar.1 + sofar.2.value = weighPairs ps
  below : sofar.2.value ≤ 2 * weigh sofar.1

theorem value_doubled (root : List Nat) : (ofDigits (row 2 root [] 0)).value = 2 * weigh root := by
  unfold value
  rw [weigh_ofDigits, weigh_row]
  rfl

theorem normal_doubled {root : List Nat} (h : ∀ d ∈ root, d ≤ 9) :
    (ofDigits (row 2 root [] 0)).Normal :=
  normal_ofDigits (row_le (by decide) h (by simp) (Nat.zero_le 9))

theorem rootDigit_eq (p : Nat × Nat) (sofar : List Nat × Numeral) :
    rootDigit p sofar =
      (nextRootDigit (ofDigits (row 2 sofar.1 [] 0)) (sofar.2.shiftIn [p.1, p.2]) :: sofar.1,
        difference (sofar.2.shiftIn [p.1, p.2]) (trial (ofDigits (row 2 sofar.1 [] 0))
          (nextRootDigit (ofDigits (row 2 sofar.1 [] 0)) (sofar.2.shiftIn [p.1, p.2])))) := rfl

theorem Rooted.pair {ps : List (Nat × Nat)} {sofar : List Nat × Numeral} (h : Rooted ps sofar)
    {p : Nat × Nat} (small : p.1 ≤ 9 ∧ p.2 ≤ 9) : Rooted (p :: ps) (rootDigit p sofar) := by
  rw [rootDigit_eq]
  have hd := normal_doubled h.digits
  have doubled := value_doubled sofar.1
  have hr : (sofar.2.shiftIn [p.1, p.2]).Normal := normal_shiftIn h.normal (by simpa using small)
  have down : (sofar.2.shiftIn [p.1, p.2]).value = p.1 + 10 * p.2 + 100 * sofar.2.value :=
    value_shiftIn sofar.2 [p.1, p.2]
  generalize ofDigits (row 2 sofar.1 [] 0) = double at *
  generalize sofar.2.shiftIn [p.1, p.2] = rest at *
  have below := h.below
  obtain ⟨nine, fits, next⟩ := nextRootDigit_spec hd hr (by omega)
  generalize nextRootDigit double rest = d at *
  have taken := value_trial double d
  have normal := normal_trial hd nine
  have room : (trial double d).value ≤ rest.value := taken ▸ fits
  have left := value_difference hr normal room
  have total := h.total
  rw [doubled] at taken next
  refine ⟨digits_cons.mpr ⟨nine, h.digits⟩, normal_difference hr normal room, ?_, ?_⟩
  · have square : (d + 10 * weigh sofar.1) * (d + 10 * weigh sofar.1) =
        d * (d + 10 * (2 * weigh sofar.1)) + 100 * (weigh sofar.1 * weigh sofar.1) := by ring
    dsimp only
    unfold weighPairs weigh
    omega
  · have step : (d + 1) * (d + 1 + 10 * (2 * weigh sofar.1)) =
        d * (d + 10 * (2 * weigh sofar.1)) + (2 * d + 1 + 20 * weigh sofar.1) := by ring
    dsimp only
    unfold weigh
    omega

theorem rooted_pairs {ps : List (Nat × Nat)} (h : ∀ p ∈ ps, p.1 ≤ 9 ∧ p.2 ≤ 9) :
    Rooted ps (ps.foldr rootDigit ([], zero)) := by
  induction ps with
  | nil => exact ⟨fun d member => absurd member List.not_mem_nil, normal_zero, rfl, Nat.le_refl 0⟩
  | cons p ps ih =>
    obtain ⟨small, rest⟩ := List.forall_mem_cons.mp h
    exact (ih rest).pair small

variable {n : Numeral}

theorem normal_sqrt (h : n.Normal) : n.sqrt.Normal :=
  normal_ofDigits (rooted_pairs (pairs_le h.2.1)).digits

theorem value_sqrt (h : n.Normal) : n.sqrt.value = Nat.sqrt n.value := by
  have rooted := rooted_pairs (pairs_le h.2.1)
  have total := rooted.total
  have below := rooted.below
  rw [weighPairs_pairs] at total
  unfold sqrt value
  rw [weigh_ofDigits]
  apply Nat.eq_sqrt.mpr
  constructor
  · omega
  · rw [Nat.succ_mul_succ]
    omega

theorem decimalLength_sqrt (k : Nat) : decimalLength (Nat.sqrt k) = (decimalLength k + 1) / 2 := by
  by_cases zero : k = 0
  · subst zero
    rfl
  have root : Nat.sqrt k ≠ 0 := fun vanishes => zero (Nat.sqrt_eq_zero.mp vanishes)
  have positive : 0 < decimalLength k := Nat.succ_pos _
  have below : k < 10 ^ decimalLength k := (decimalLength_le_iff positive).mp (Nat.le_refl _)
  have above : 10 ^ (decimalLength k - 1) ≤ k := (lt_decimalLength_iff zero).mp (Nat.pred_lt_self positive)
  generalize decimalLength k = digits at *
  have most : decimalLength (Nat.sqrt k) ≤ (digits + 1) / 2 := by
    apply (decimalLength_le_iff (by omega)).mpr
    rw [Nat.sqrt_lt', ← Nat.pow_mul]
    exact Nat.lt_of_lt_of_le below (Nat.pow_le_pow_right (by decide) (by omega))
  have least : (digits + 1) / 2 - 1 < decimalLength (Nat.sqrt k) := by
    apply (lt_decimalLength_iff root).mpr
    rw [Nat.le_sqrt', ← Nat.pow_mul]
    exact Nat.le_trans (Nat.pow_le_pow_right (by decide) (by omega)) above
  omega

/-- The written root is the largest number whose square is not above the number, whatever zeros
the digits and the root hold, and it has half as many digits, rounded up. -/
theorem sqrt_exact (h : n.Normal) :
    n.sqrt.Normal ∧ n.sqrt.value * n.sqrt.value ≤ n.value ∧
      n.value < (n.sqrt.value + 1) * (n.sqrt.value + 1) ∧
      n.sqrt.digitCount = (n.digitCount + 1) / 2 := by
  have normal := normal_sqrt h
  refine ⟨normal, ?_, ?_, ?_⟩
  · rw [value_sqrt h]
    exact Nat.sqrt_le n.value
  · rw [value_sqrt h]
    exact Nat.lt_succ_sqrt n.value
  · rw [normal.digitCount_eq, value_sqrt h, decimalLength_sqrt, ← h.digitCount_eq]

theorem sqrt_exact_inner_zeros :
    let n : Numeral := ⟨[4, 0, 0, 0, 1]⟩
    n.Normal ∧ n.sqrt = ⟨[0, 0, 1]⟩ ∧ n.sqrt.value * n.sqrt.value ≤ n.value ∧
      n.value < (n.sqrt.value + 1) * (n.sqrt.value + 1) := by
  intro n
  have normal : n.Normal := by decide
  have root : n.sqrt = ⟨[0, 0, 1]⟩ := by decide +kernel
  obtain ⟨_, least, most, _⟩ := sqrt_exact normal
  exact ⟨normal, root, least, most⟩

end Numeral
end Reckoner
