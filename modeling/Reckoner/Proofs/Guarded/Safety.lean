import Reckoner.Proofs.Guarded.Entry
import Reckoner.Proofs.Guarded.Quotient
import Reckoner.Proofs.Guarded.Root

/-! The guarded methods never come to a fault. On operands in normal form, of any length and
under any limit, each comes to what the unguarded method comes to, so that leaving the guards
out changes nothing. -/
namespace Reckoner.Guarded

/-- No sum or product of bytes or words is too large for them, no difference falls below zero,
nothing is lost when a word is cut to a byte, no place is outside its buffer, and every check
on the way holds: that nothing stays borrowed, that quotient and remainder make up the
dividend with the remainder below the divisor, that a power is not below its base, and that
the square of a root does not exceed the number while that of the next one does. -/
theorem no_fault {a b : Numeral} (ha : a.Normal) (hb : b.Normal) (limit : DigitLimit) :
    add a b limit = .ok (a.add b limit) ∧ sub a b = .ok (a.sub b) ∧ mul a b limit = .ok (a.mul b limit) ∧
      divRem a b = .ok (a.divRem b) ∧ pow a b limit = .ok (a.pow b limit) ∧ sqrt a = .ok a.sqrt ∧
      (∀ n, ofNat n limit = .ok (Numeral.ofNat n limit)) ∧
      (∀ text, ofDecimal text limit = .ok (Numeral.ofDecimal text limit)) ∧
      ∀ ds, ofDigitList ds limit = .ok (Numeral.ofDigitList ds limit) := by
  refine ⟨add_ok ha hb limit, sub_ok ha hb, mul_ok ha hb limit, divRem_ok ha hb, pow_ok ha hb limit,
    sqrt_ok ha, ?_, ?_, ?_⟩
  · exact fun n => ofNat_ok n limit
  · exact fun text => ofDecimal_ok text limit
  · exact fun ds => ofDigitList_ok ds limit

theorem no_fault_quotient :
    let a : Numeral := ⟨[5, 0, 0, 1]⟩
    let b : Numeral := ⟨[7, 1]⟩
    a.Normal ∧ b.Normal ∧ divRem a b = .ok (.ok (⟨[9, 5]⟩, ⟨[2]⟩)) ∧ sqrt a = .ok ⟨[1, 3]⟩ := by
  intro a b
  have ha : a.Normal := by decide
  have hb : b.Normal := by decide
  obtain ⟨_, _, _, divided, _, root, _⟩ := no_fault ha hb .standard
  refine ⟨ha, hb, divided.trans ?_, root.trans ?_⟩
  · decide +kernel
  · decide +kernel

/- Without normal form and without the order of the operands the guards do stop the work. -/

example : sum ⟨[200]⟩ ⟨[100]⟩ = .error .overflow := by decide

example : difference ⟨[3]⟩ ⟨[5]⟩ = .error .check := by decide

end Reckoner.Guarded
