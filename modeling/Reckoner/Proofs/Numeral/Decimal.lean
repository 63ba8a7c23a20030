import Reckoner.Numeral.Limited

namespace Reckoner
namespace Numeral

def spelled (text : String) : Numeral := ofDigits (text.toList.reverse.map digitOf)

theorem trim_eq_self {ds : List Nat} (h : ds.getLast? ≠ some 0) : trim ds = ds := by
  induction ds with
  | nil => rfl
  | cons d ds ih =>
    cases ds with
    | nil =>
      have nonzero : d ≠ 0 := fun zero => h (congrArg some zero)
      rw [trim, trim, if_neg nonzero]
    | cons e ds =>
      rw [List.getLast?_cons_cons] at h
      rw [trim, ih h]

theorem getLast?_trim (ds : List Nat) : (trim ds).getLast? ≠ some 0 := by
  induction ds with
  | nil => intro impossible; cases impossible
  | cons d ds ih =>
    rw [trim]
    split
    · split
      · intro impossible; cases impossible
      · next nonzero => exact fun zero => nonzero (Option.some.inj zero)
    · next t ts h =>
      rw [h] at ih
      rw [List.getLast?_cons_cons]
      exact ih

theorem mem_of_mem_trim {d : Nat} {ds : List Nat} (h : d ∈ trim ds) : d ∈ ds := by
  induction ds with
  | nil => exact h
  | cons e ds ih =>
    rw [trim] at h
    split at h
    · split at h
      · cases h
      · exact List.mem_singleton.mp h ▸ List.mem_cons_self
    · next t ts tail =>
      rcases List.mem_cons.mp h with rfl | h
      · exact List.mem_cons_self
      · exact List.mem_cons_of_mem _ (ih (tail ▸ h))

theorem normal_ofDigits {ds : List Nat} (h : ∀ d ∈ ds, d ≤ 9) : (ofDigits ds).Normal := by
  rw [ofDigits]
  split
  · exact ⟨List.cons_ne_nil _ _, by decide, by decide⟩
  · next t ts trimmed =>
    refine ⟨List.cons_ne_nil _ _, fun d member => h d (mem_of_mem_trim (trimmed ▸ member)), ?_⟩
    intro _
    have last := getLast?_trim ds
    rw [trimmed] at last
    exact last

theorem ofDigits_digits {n : Numeral} (h : n.Normal) : ofDigits n.digits = n := by
  obtain ⟨digits⟩ := n
  obtain ⟨nonempty, _, last⟩ := h
  by_cases zero : digits.getLast? = some 0
  · match digits with
    | [] => exact absurd rfl nonempty
    | [d] => obtain rfl : d = 0 := Option.some.inj zero; rfl
    | d :: e :: ds => exact absurd zero (last (by simp only [List.length_cons]; omega))
  · rw [ofDigits, trim_eq_self zero]
    cases digits with
    | nil => exact absurd rfl nonempty
    | cons d ds => rfl

theorem digitOf_digitChar : ∀ d, d ≤ 9 → digitOf (digitChar d) = d := by decide

theorem isDigit_digitChar : ∀ d, d ≤ 9 → Text.isDigit (digitChar d) = true := by decide

theorem digitOf_le {c : Char} (h : Text.isDigit c = true) : digitOf c ≤ 9 := by
  rw [Text.isDigit, Bool.and_eq_true, decide_eq_true_eq, decide_eq_true_eq] at h
  have high : c.toNat ≤ '9'.toNat := h.2
  have nine : '9'.toNat = '0'.toNat + 9 := rfl
  rw [digitOf]
  omega

theorem toList_text (n : Numeral) : n.text.toList = n.digits.reverse.map digitChar :=
  String.toList_ofList

theorem text_ne_nil {n : Numeral} (h : n.Normal) : n.text.toList ≠ [] := by
  intro empty
  rw [toList_text, List.map_eq_nil_iff, List.reverse_eq_nil_iff] at empty
  exact h.1 empty

theorem isDigit_of_mem_text {n : Numeral} (h : n.Normal) {c : Char} (member : c ∈ n.text.toList) :
    Text.isDigit c = true := by
  rw [toList_text] at member
  obtain ⟨d, inside, rfl⟩ := List.mem_map.mp member
  exact isDigit_digitChar d (h.2.1 d (List.mem_reverse.mp inside))

def digitText (ds : List Nat) : String := String.ofList (ds.reverse.map digitChar)

theorem spelled_digitText {ds : List Nat} (digits : ∀ d ∈ ds, d ≤ 9) :
    spelled (digitText ds) = ofDigits ds := by
  have back : (ds.map digitChar).map digitOf = ds := by
    rw [List.map_map]
    refine (List.map_congr_left fun d member => ?_).trans (List.map_id _)
    exact digitOf_digitChar d (digits d member)
  rw [spelled, digitText, String.toList_ofList, ← List.map_reverse, List.reverse_reverse, back]

theorem spelled_text {n : Numeral} (h : n.Normal) : spelled n.text = n :=
  (spelled_digitText h.2.1).trans (ofDigits_digits h)

theorem normal_spelled {text : String} (digits : text.toList.all Text.isDigit = true) :
    (spelled text).Normal := by
  apply normal_ofDigits
  intro d member
  obtain ⟨c, inside, rfl⟩ := List.mem_map.mp member
  exact digitOf_le (List.all_eq_true.mp digits c (List.mem_reverse.mp inside))

theorem within_eq_ok_iff (n m : Numeral) (limit : DigitLimit) :
    n.within limit = .ok m ↔ m = n ∧ m.digitCount ≤ limit.count := by
  rw [within]
  split
  · next fits =>
    rw [DigitLimit.allows_iff] at fits
    constructor
    · intro h; cases h; exact ⟨rfl, fits⟩
    · rintro ⟨rfl, _⟩; rfl
  · next beyond =>
    rw [DigitLimit.allows_iff] at beyond
    constructor
    · intro h; cases h
    · rintro ⟨rfl, fits⟩; exact absurd fits beyond

theorem ofDecimal_eq_within {text : String} {limit : DigitLimit} (nonempty : text.toList ≠ [])
    (digits : text.toList.all Text.isDigit = true) :
    ofDecimal text limit = (spelled text).within limit := by
  unfold ofDecimal spelled
  simp [digits, nonempty]

theorem ofDecimal_eq_ok_iff (text : String) (limit : DigitLimit) (n : Numeral) :
    ofDecimal text limit = .ok n ↔
      text.toList ≠ [] ∧ text.toList.all Text.isDigit = true ∧ n = spelled text ∧
        n.digitCount ≤ limit.count := by
  by_cases good : text.toList ≠ [] ∧ text.toList.all Text.isDigit = true
  · rw [ofDecimal_eq_within good.1 good.2, within_eq_ok_iff]
    simp only [good, ne_eq, not_false_eq_true, true_and]
  · constructor
    · intro h
      rw [ofDecimal, if_pos] at h
      · cases h
      · simpa [Decidable.or_iff_not_not_and_not] using good
    · rintro ⟨nonempty, digits, _⟩
      exact absurd ⟨nonempty, digits⟩ good

end Numeral
end Reckoner
