import Reckoner.Proofs.Numeral.Division
import Reckoner.Proofs.Numeral.Limit
import Reckoner.Proofs.Numeral.SquareRoot

/-! Numerals made by any number of operations, one after another, each on what earlier ones
came to. Every one of them is in normal form: the ways in make normal forms, and an operation
on normal forms makes normal forms or fails, and then it makes nothing. The bounds on the
digits of one operation rest on the normal form of its operands, so all operations are taken
together. So what they make is compared as the numbers that it stands for. -/
namespace Reckoner
namespace Numeral

/-- An operand is named by its place among the results so far. -/
inductive Operation where
  | zero
  | one
  | ofNat (k : Nat) (limit : DigitLimit)
  | ofDecimal (text : String) (limit : DigitLimit)
  | ofDigitList (ds : List Nat) (limit : DigitLimit)
  | copy (i : Nat)
  | add (i j : Nat) (limit : DigitLimit)
  | sub (i j : Nat)
  | mul (i j : Nat) (limit : DigitLimit)
  | divRem (i j : Nat)
  | floorDiv (i j : Nat)
  | rem (i j : Nat)
  | pow (i j : Nat) (limit : DigitLimit)
  | sqrt (i : Nat)

/-- With no operand at the place named nothing is done. -/
def pick (sofar : List Numeral) (i : Nat) (next : Numeral → Except NumberError (List Numeral)) :
    Except NumberError (List Numeral) :=
  match sofar[i]? with
  | none => .ok []
  | some n => next n

def Operation.outcome (sofar : List Numeral) : Operation → Except NumberError (List Numeral)
  | .zero => .ok [Numeral.zero]
  | .one => .ok [Numeral.one]
  | .ofNat k limit => (Numeral.ofNat k limit).map List.singleton
  | .ofDecimal text limit => (Numeral.ofDecimal text limit).map List.singleton
  | .ofDigitList ds limit => (Numeral.ofDigitList ds limit).map List.singleton
  | .copy i => pick sofar i fun a => .ok [a]
  | .add i j limit => pick sofar i fun a => pick sofar j fun b => (a.add b limit).map List.singleton
  | .sub i j => pick sofar i fun a => pick sofar j fun b => (a.sub b).map List.singleton
  | .mul i j limit => pick sofar i fun a => pick sofar j fun b => (a.mul b limit).map List.singleton
  | .divRem i j => pick sofar i fun a => pick sofar j fun b => (a.divRem b).map fun (q, r) => [q, r]
  | .floorDiv i j => pick sofar i fun a => pick sofar j fun b => (a.floorDiv b).map List.singleton
  | .rem i j => pick sofar i fun a => pick sofar j fun b => (a.rem b).map List.singleton
  | .pow i j limit => pick sofar i fun a => pick sofar j fun b => (a.pow b limit).map List.singleton
  | .sqrt i => pick sofar i fun a => .ok [a.sqrt]

/-- After a failure the results are what they were. -/
def Operation.perform (sofar : List Numeral) (op : Operation) : List Numeral :=
  match op.outcome sofar with
  | .ok made => sofar ++ made
  | .error _ => sofar

def results (ops : List Operation) : List Numeral := ops.foldl Operation.perform []

/-- All that is made, if anything is, is in normal form. -/
def MakesNormal (x : Except NumberError (List Numeral)) : Prop :=
  ∀ made, x = .ok made → ∀ n ∈ made, n.Normal

section

variable {limit : DigitLimit} {a b : Numeral} {k : Nat} {x : Except NumberError Numeral}

theorem makesNormal_ok {made : List Numeral} (h : ∀ n ∈ made, n.Normal) : MakesNormal (.ok made) := by
  rintro _ ⟨⟩
  exact h

theorem makesNormal_singleton (h : ∀ n, x = .ok n → n.Normal) :
    MakesNormal (x.map List.singleton) := by
  cases x with
  | error e => rintro made ⟨⟩
  | ok n => exact makesNormal_ok (List.forall_mem_singleton.mpr (h n rfl))

theorem makesNormal_pick {sofar : List Numeral} {i : Nat}
    {next : Numeral → Except NumberError (List Numeral)} (normal : ∀ n ∈ sofar, n.Normal)
    (h : ∀ a : Numeral, a.Normal → MakesNormal (next a)) : MakesNormal (pick sofar i next) := by
  unfold pick
  split
  · exact makesNormal_ok fun n member => absurd member List.not_mem_nil
  · next a found => exact h a (normal a (List.mem_of_getElem? found))

theorem makesNormal_pick₂ {sofar : List Numeral} {i j : Nat}
    {next : Numeral → Numeral → Except NumberError (List Numeral)} (normal : ∀ n ∈ sofar, n.Normal)
    (h : ∀ a b : Numeral, a.Normal → b.Normal → MakesNormal (next a b)) :
    MakesNormal (pick sofar i fun a => pick sofar j fun b => next a b) :=
  makesNormal_pick normal fun a ha => makesNormal_pick normal fun b hb => h a b ha hb

theorem Held.makesNormal (h : Held limit k x) : MakesNormal (x.map List.singleton) := by
  apply makesNormal_singleton
  rintro n rfl
  exact h.result.1

theorem makesNormal_ofDecimal (text : String) :
    MakesNormal ((ofDecimal text limit).map List.singleton) := by
  apply makesNormal_singleton
  intro n read
  obtain ⟨_, digits, rfl, _⟩ := (ofDecimal_eq_ok_iff text limit n).mp read
  exact normal_spelled digits

theorem makesNormal_ofDigitList (ds : List Nat) :
    MakesNormal ((ofDigitList ds limit).map List.singleton) := by
  unfold ofDigitList
  split
  · rintro made ⟨⟩
  · next usable =>
    have digits : ∀ d ∈ ds, d ≤ 9 := by
      simp only [Bool.or_eq_true, List.any_eq_true, decide_eq_true_eq, not_or, not_exists] at usable
      exact fun d member => Nat.le_of_not_lt fun large => usable.2 d ⟨member, large⟩
    exact (held_ofDigits digits).makesNormal

theorem makesNormal_pow (ha : a.Normal) (hb : b.Normal) :
    MakesNormal ((a.pow b limit).map List.singleton) := by
  -- a first power is in normal form because its base is, however long that may be
  by_cases first : b.value = 1
  · rw [pow_first hb first]
    exact makesNormal_ok (List.forall_mem_singleton.mpr ha)
  · exact (held_pow ha hb fun one => absurd one first).makesNormal

theorem makesNormal_sub (ha : a.Normal) (hb : b.Normal) :
    MakesNormal ((a.sub b).map List.singleton) := by
  rw [sub_eq ha hb]
  split
  · next enough => exact makesNormal_ok (List.forall_mem_singleton.mpr (normal_difference ha hb enough))
  · rintro made ⟨⟩

theorem makesNormal_divRem {parts : Numeral × Numeral → List Numeral} (ha : a.Normal) (hb : b.Normal)
    (h : ∀ q r : Numeral, q.Normal → r.Normal → ∀ n ∈ parts (q, r), n.Normal) :
    MakesNormal ((a.divRem b).map parts) := by
  by_cases zero : b.value = 0
  · rw [divRem_zero hb zero]
    rintro made ⟨⟩
  · obtain ⟨q, r, divided, quotient, rest, _⟩ := divRem_spec ha hb zero
    rw [divided]
    exact makesNormal_ok (h q r quotient rest)

theorem makesNormal_floorDiv (ha : a.Normal) (hb : b.Normal) :
    MakesNormal ((a.floorDiv b).map List.singleton) := by
  have part : (a.floorDiv b).map List.singleton = (a.divRem b).map fun (q, _) => [q] := by
    unfold floorDiv
    cases a.divRem b <;> rfl
  rw [part]
  exact makesNormal_divRem ha hb fun q _ quotient _ => List.forall_mem_singleton.mpr quotient

theorem makesNormal_rem (ha : a.Normal) (hb : b.Normal) :
    MakesNormal ((a.rem b).map List.singleton) := by
  have part : (a.rem b).map List.singleton = (a.divRem b).map fun (_, r) => [r] := by
    unfold rem
    cases a.divRem b <;> rfl
  rw [part]
  exact makesNormal_divRem ha hb fun _ r _ rest => List.forall_mem_singleton.mpr rest

end

theorem makesNormal_outcome {sofar : List Numeral} (normal : ∀ n ∈ sofar, n.Normal) (op : Operation) :
    MakesNormal (op.outcome sofar) := by
  cases op with
  | zero => exact makesNormal_ok (List.forall_mem_singleton.mpr normal_zero)
  | one => exact makesNormal_ok (List.forall_mem_singleton.mpr normal_one)
  | ofNat k limit => exact (held_ofNat k).makesNormal
  | ofDecimal text limit => exact makesNormal_ofDecimal text
  | ofDigitList ds limit => exact makesNormal_ofDigitList ds
  | copy i => exact makesNormal_pick normal fun a ha => makesNormal_ok (List.forall_mem_singleton.mpr ha)
  | add i j limit => exact makesNormal_pick₂ normal fun a b ha hb => (held_add ha hb).makesNormal
  | sub i j => exact makesNormal_pick₂ normal fun a b ha hb => makesNormal_sub ha hb
  | mul i j limit => exact makesNormal_pick₂ normal fun a b ha hb => (held_mul ha hb).makesNormal
  | divRem i j =>
    apply makesNormal_pick₂ normal
    intro a b ha hb
    exact makesNormal_divRem ha hb fun q r quotient rest =>
      List.forall_mem_cons.mpr ⟨quotient, List.forall_mem_singleton.mpr rest⟩
  | floorDiv i j => exact makesNormal_pick₂ normal fun a b ha hb => makesNormal_floorDiv ha hb
  | rem i j => exact makesNormal_pick₂ normal fun a b ha hb => makesNormal_rem ha hb
  | pow i j limit => exact makesNormal_pick₂ normal fun a b ha hb => makesNormal_pow ha hb
  | sqrt i =>
    apply makesNormal_pick normal
    exact fun a ha => makesNormal_ok (List.forall_mem_singleton.mpr (normal_sqrt ha))

theorem normal_perform {sofar : List Numeral} (normal : ∀ n ∈ sofar, n.Normal) (op : Operation) :
    ∀ n ∈ op.perform sofar, n.Normal := by
  unfold Operation.perform
  split
  · next made done => exact List.forall_mem_append.mpr ⟨normal, makesNormal_outcome normal op made done⟩
  · exact normal

theorem normal_foldl {sofar : List Numeral} (normal : ∀ n ∈ sofar, n.Normal) (ops : List Operation) :
    ∀ n ∈ ops.foldl Operation.perform sofar, n.Normal := by
  induction ops generalizing sofar with
  | nil => exact normal
  | cons op ops ih => exact ih (normal_perform normal op)

/-- Whatever is done, in whatever order and under whatever limits, with whatever failures in
between: every numeral made has a digit, none of its digits is above nine, and the most
significant one is not zero unless it is the only one. -/
theorem normal_results (ops : List Operation) : ∀ n ∈ results ops, n.Normal :=
  normal_foldl (fun _ member => absurd member List.not_mem_nil) ops

theorem normal_results_root :
    let limit : DigitLimit := ⟨3, by decide⟩
    let ops : List Operation := [.ofDecimal "0099" limit, .one, .add 1 1 limit, .sub 1 0, .mul 0 0 limit,
      .pow 0 2 .standard, .sqrt 3]
    results ops = [⟨[9, 9]⟩, ⟨[1]⟩, ⟨[2]⟩, ⟨[1, 0, 8, 9]⟩, ⟨[9, 9]⟩] ∧
      (⟨[1, 0, 8, 9]⟩ : Numeral) ∈ results ops ∧ (⟨[1, 0, 8, 9]⟩ : Numeral).Normal := by
  intro limit ops
  have made : results ops = [⟨[9, 9]⟩, ⟨[1]⟩, ⟨[2]⟩, ⟨[1, 0, 8, 9]⟩, ⟨[9, 9]⟩] := by decide +kernel
  have member : (⟨[1, 0, 8, 9]⟩ : Numeral) ∈ results ops := by
    rw [made]
    decide
  exact ⟨made, member, normal_results ops _ member⟩

/-- The order looks at lengths and then at digits from the most significant one on. Of any two
numerals that operations make, in one sequence of them or in two, it finds the one of the
smaller value to be the smaller; the same digits are the same value; and the tests for zero, one
and evenness are tests of the value. -/
theorem order_of_results (ops others : List Operation) :
    ∀ a ∈ results ops, ∀ b ∈ results others,
      (compare a b = .lt ↔ a.value < b.value) ∧ (compare a b = .eq ↔ a.value = b.value) ∧
      (compare a b = .gt ↔ b.value < a.value) ∧
      ((a == b) = true ↔ a.digits = b.digits) ∧ ((a == b) = true ↔ a.value = b.value) ∧
      (a.lt b = true ↔ a.value < b.value) ∧ (a.le b = true ↔ a.value ≤ b.value) ∧
      (a.isZero = true ↔ a.value = 0) ∧ (a.isOne = true ↔ a.value = 1) ∧
      (a.isEven = true ↔ 2 ∣ a.value) := by
  intro a made b made'
  have nothing : ∀ n ∈ ([] : List Numeral), n.Normal := fun _ member => absurd member List.not_mem_nil
  have ha : a.Normal := normal_foldl nothing ops a made
  have hb : b.Normal := normal_foldl nothing others b made'
  have values : compare a b = compare a.value b.value := order_eq ha hb
  have same : (a == b) = true ↔ a.digits = b.digits := by
    rw [beq_iff_eq, Numeral.mk.injEq]
  have even : a.isEven = true ↔ 2 ∣ a.value := by
    rw [isEven_iff, Nat.dvd_iff_mod_eq_zero]
  rw [values, Nat.compare_eq_lt, Nat.compare_eq_eq, Nat.compare_eq_gt]
  exact ⟨Iff.rfl, Iff.rfl, Iff.rfl, same, same.trans (digits_eq_iff ha hb), lt_iff ha hb, le_iff ha hb,
    isZero_iff ha, isOne_iff ha, even⟩

theorem order_of_results_longer :
    let limit : DigitLimit := ⟨3, by decide⟩
    let ops : List Operation := [.ofDecimal "0099" limit]
    let others : List Operation := [.ofNat 100 limit, .one, .sub 0 1]
    let a : Numeral := ⟨[9, 9]⟩
    let b : Numeral := ⟨[0, 0, 1]⟩
    a ∈ results ops ∧ b ∈ results others ∧ a ∈ results others ∧
      a.value = 99 ∧ b.value = 100 ∧ compare a b = .lt ∧ compare a a = .eq := by
  intro limit ops others a b
  have made : a ∈ results ops := by decide +kernel
  have made' : b ∈ results others := by decide +kernel
  have again : a ∈ results others := by decide +kernel
  obtain ⟨less, _⟩ := order_of_results ops others a made b made'
  obtain ⟨_, equal, _⟩ := order_of_results ops others a made a again
  exact ⟨made, made', again, rfl, rfl, less.mpr (by decide), equal.mpr rfl⟩

end Numeral
end Reckoner
