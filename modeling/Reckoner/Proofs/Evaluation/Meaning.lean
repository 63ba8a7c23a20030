import Reckoner.Evaluation
import Reckoner.Expr.Postfix
import Reckoner.Proofs.Binding
import Reckoner.Proofs.Numeral.Division
import Reckoner.Proofs.Numeral.Limit
import Reckoner.Proofs.Numeral.SquareRoot

/-! What an expression means over the natural numbers, apart from digits: strict, operands
before the operator and left before right. Evaluation comes to the meaning where there is
one. Where there is none it fails at the first node, in postfix order, that has none. -/
namespace Reckoner

def Numeral.Admitted (limit : DigitLimit) (n : Numeral) : Prop :=
  n.Normal ∧ n.digitCount ≤ limit.count

def DigitLimit.bounded (limit : DigitLimit) (n : Nat) : Option Nat :=
  if decimalLength n ≤ limit.count then some n else none

namespace Operator

def meaning (limit : DigitLimit) : Operator → Nat → Nat → Option Nat
  | .add, a, b => limit.bounded (a + b)
  | .sub, a, b => if b ≤ a then some (a - b) else none
  | .mul, a, b => limit.bounded (a * b)
  | .div, a, b => if b = 0 then none else some (a / b)
  | .rem, a, b => if b = 0 then none else some (a % b)
  | .pow, a, b => limit.bounded (a ^ b)

/-- Why an operator has no result for its operands. A length that is reported lies above
the limit and not above that of the true result. -/
inductive Fails (limit : DigitLimit) (a b : Numeral) : Operator → NumberError → Prop where
  | sum {digits : Nat} : limit.count < digits → digits ≤ decimalLength (a.value + b.value) →
      Fails limit a b .add (.tooManyDigits digits limit.count)
  | difference : a.value < b.value → Fails limit a b .sub (.negative a.text b.text)
  | product {digits : Nat} : limit.count < digits → digits ≤ decimalLength (a.value * b.value) →
      Fails limit a b .mul (.tooManyDigits digits limit.count)
  | quotient : b.value = 0 → Fails limit a b .div (.divisionByZero a.text)
  | remainder : b.value = 0 → Fails limit a b .rem (.divisionByZero a.text)
  | power {digits : Nat} : limit.count < digits → digits ≤ decimalLength (a.value ^ b.value) →
      Fails limit a b .pow (.tooManyDigits digits limit.count)

/-- How the outcome of an operation goes with its meaning. -/
inductive Outcome (limit : DigitLimit) (op : Operator) (a b : Numeral) :
    Except NumberError Numeral → Option Nat → Prop where
  | result {v : Numeral} : v.Admitted limit → Outcome limit op a b (.ok v) (some v.value)
  | failure {cause : NumberError} : op.Fails limit a b cause → Outcome limit op a b (.error cause) none

end Operator

namespace Numeral

variable {limit : DigitLimit} {a b : Numeral}

theorem bounded_of_admitted {v : Numeral} (h : v.Admitted limit) :
    limit.bounded v.value = some v.value := by
  have length := h.1.digitCount_eq
  have fits := h.2
  unfold DigitLimit.bounded
  rw [if_pos (length ▸ fits)]

theorem outcome_of_held {op : Operator} {n : Nat} {x : Except NumberError Numeral}
    (h : Held limit n x)
    (fails : ∀ digits, limit.count < digits → digits ≤ decimalLength n →
      op.Fails limit a b (.tooManyDigits digits limit.count)) :
    op.Outcome limit a b x (limit.bounded n) := by
  cases h with
  | fits normal value fits =>
    subst value
    rw [bounded_of_admitted ⟨normal, fits⟩]
    exact .result ⟨normal, fits⟩
  | exceeds above most =>
    have beyond : ¬ decimalLength n ≤ limit.count := by omega
    unfold DigitLimit.bounded
    rw [if_neg beyond]
    exact .failure (fails _ above most)

theorem admitted_of_le {v : Numeral} (h : v.Normal) (ha : a.Admitted limit) (le : v.value ≤ a.value) :
    v.Admitted limit := ⟨h, Nat.le_trans (digitCount_le_of_value_le h ha.1 le) ha.2⟩

theorem outcome_apply (op : Operator) (ha : a.Admitted limit) (hb : b.Admitted limit) :
    op.Outcome limit a b (op.apply limit a b) (op.meaning limit a.value b.value) := by
  cases op with
  | add => exact outcome_of_held (held_add ha.1 hb.1) fun _ => .sum
  | mul => exact outcome_of_held (held_mul ha.1 hb.1) fun _ => .product
  | pow => exact outcome_of_held (held_pow ha.1 hb.1 fun _ => ha.2) fun _ => .power
  | sub =>
    unfold Operator.apply Operator.meaning
    dsimp only
    rw [sub_eq ha.1 hb.1]
    split
    · next room =>
      rw [← value_difference ha.1 hb.1 room]
      have value := value_difference ha.1 hb.1 room
      exact .result (admitted_of_le (normal_difference ha.1 hb.1 room) ha (by omega))
    · next short => exact .failure (.difference (Nat.lt_of_not_le short))
  | div =>
    unfold Operator.apply Operator.meaning
    dsimp only
    by_cases zero : b.value = 0
    · unfold floorDiv
      rw [divRem_zero hb.1 zero, if_pos zero]
      exact .failure (.quotient zero)
    · obtain ⟨q, divided, normal, value⟩ := floorDiv_spec ha.1 hb.1 zero
      rw [divided, if_neg zero, ← value]
      exact .result (admitted_of_le normal ha (value ▸ Nat.div_le_self _ _))
  | rem =>
    unfold Operator.apply Operator.meaning
    dsimp only
    by_cases zero : b.value = 0
    · unfold rem
      rw [divRem_zero hb.1 zero, if_pos zero]
      exact .failure (.remainder zero)
    · obtain ⟨r, divided, normal, value⟩ := rem_spec ha.1 hb.1 zero
      rw [divided, if_neg zero, ← value]
      exact .result (admitted_of_le normal ha (value ▸ Nat.mod_le _ _))

end Numeral

namespace Bindings

def Admitted (limit : DigitLimit) (b : Bindings) : Prop := ∀ x n, b.find? x = some n → n.Admitted limit

variable {limit : DigitLimit} {b : Bindings}

theorem admitted_of_entries (h : ∀ p ∈ b.entries, p.2.Admitted limit) : b.Admitted limit := by
  intro x n found
  obtain ⟨before, after, entries, _⟩ := List.lookup_eq_some_iff.mp found
  apply h (x, n)
  rw [entries]
  exact List.mem_append_right _ List.mem_cons_self

theorem admitted_of_bind {pairs : List (String × String)} (h : bind pairs limit = .ok b) :
    b.Admitted limit := by
  obtain ⟨admissible, holds⟩ := holds_bind h
  apply admitted_of_entries
  intro entry member
  obtain ⟨pair, bound, rfl⟩ := List.mem_map.mp (holds.entries.mem_iff.mp member)
  have legible := admissible.texts pair bound
  exact ⟨legible.normal_spelled, Numeral.digitCount_spelled legible.digits ▸ legible.fits⟩

end Bindings

namespace Scope

/-- The number that an expression stands for, if it stands for one. -/
def meaning (scope : Scope) : Expr → Option Nat
  | .literal n => some n.value
  | .var x => (scope.bindings.find? x).map Numeral.value
  | .root e => (scope.meaning e).map Nat.sqrt
  | .binary op l r =>
    (scope.meaning l).bind fun a => (scope.meaning r).bind fun b => op.meaning scope.limit a b

/-- Why a node has no meaning although its operands have one, as it is reported. -/
inductive Faults (scope : Scope) : Expr → EvalError → Prop where
  | unbound {x : String} : scope.bindings.find? x = none → Faults scope (.var x) (.unknownVariable x)
  | operation {op : Operator} {l r : Expr} {a b : Numeral} {cause : NumberError} :
      a.Normal → b.Normal → scope.meaning l = some a.value → scope.meaning r = some b.value →
      op.Fails scope.limit a b cause →
      Faults scope (.binary op l r) (.arithmetic (Expr.binary op l r).text cause)

/-- The first node of an expression without a meaning. -/
def FirstUndefined (scope : Scope) (e node : Expr) : Prop :=
  ∃ before after, e.nodes = before ++ node :: after ∧
    (∀ m ∈ before, ∃ n, scope.meaning m = some n) ∧ scope.meaning node = none

structure Admits (scope : Scope) (e : Expr) : Prop where
  literals : ∀ n, Expr.literal n ∈ e.nodes → n.Admitted scope.limit
  values : scope.bindings.Admitted scope.limit

variable {scope : Scope}

theorem Admits.part {e part : Expr} (h : scope.Admits e)
    (inside : ∀ node ∈ part.nodes, node ∈ e.nodes) : scope.Admits part :=
  ⟨fun n member => h.literals n (inside _ member), h.values⟩

/-- How the outcome of an evaluation goes with the meaning. -/
inductive Judged (scope : Scope) (e : Expr) : Except EvalError Numeral → Prop where
  | value {v : Numeral} : v.Admitted scope.limit → scope.meaning e = some v.value →
      Judged scope e (.ok v)
  | fault {node : Expr} {error : EvalError} : scope.meaning e = none →
      scope.FirstUndefined e node → scope.Faults node error → Judged scope e (.error error)

theorem meaning_of_mem_nodes {e node : Expr} {n : Nat} (h : scope.meaning e = some n)
    (member : node ∈ e.nodes) : ∃ m, scope.meaning node = some m := by
  induction e generalizing n with
  | literal v => exact ⟨n, List.mem_singleton.mp member ▸ h⟩
  | var x => exact ⟨n, List.mem_singleton.mp member ▸ h⟩
  | root e ih =>
    rcases Expr.mem_nodes_root.mp member with inside | rfl
    · obtain ⟨m, operand, _⟩ := Option.map_eq_some_iff.mp h
      exact ih operand inside
    · exact ⟨n, h⟩
  | binary op l r ihl ihr =>
    obtain ⟨a, left, rest⟩ := Option.bind_eq_some_iff.mp h
    obtain ⟨b, right, _⟩ := Option.bind_eq_some_iff.mp rest
    rcases Expr.mem_nodes_binary.mp member with inside | inside | rfl
    · exact ihl left inside
    · exact ihr right inside
    · exact ⟨n, h⟩

theorem FirstUndefined.part {e part node : Expr} (h : scope.FirstUndefined part node)
    {before after : List Expr} (split : e.nodes = before ++ part.nodes ++ after)
    (defined : ∀ m ∈ before, ∃ n, scope.meaning m = some n) : scope.FirstUndefined e node := by
  obtain ⟨front, back, here, fine, undefined⟩ := h
  refine ⟨before ++ front, back ++ after, ?_, ?_, undefined⟩
  · rw [split, here]
    simp only [List.append_assoc, List.cons_append]
  · intro m member
    rcases List.mem_append.mp member with inside | inside
    · exact defined m inside
    · exact fine m inside

theorem Judged.bind {e part : Expr} {x : Except EvalError Numeral}
    {f : Numeral → Except EvalError Numeral} (h : scope.Judged part x) {before after : List Expr}
    (split : e.nodes = before ++ part.nodes ++ after)
    (defined : ∀ m ∈ before, ∃ n, scope.meaning m = some n)
    (strict : scope.meaning part = none → scope.meaning e = none)
    (next : ∀ v : Numeral, v.Admitted scope.limit → scope.meaning part = some v.value →
      scope.Judged e (f v)) : scope.Judged e (x.bind f) := by
  cases h with
  | value admitted number => exact next _ admitted number
  | fault undefined first fault => exact .fault (strict undefined) (first.part split defined) fault

theorem judged_combine {op : Operator} {l r : Expr} {a b : Numeral} (ha : a.Admitted scope.limit)
    (hb : b.Admitted scope.limit) (left : scope.meaning l = some a.value)
    (right : scope.meaning r = some b.value) :
    scope.Judged (.binary op l r) (scope.combine op l r a b) := by
  have whole : scope.meaning (.binary op l r) = op.meaning scope.limit a.value b.value := by
    simp [meaning, left, right]
  have outcome := Numeral.outcome_apply op ha hb
  unfold combine
  generalize op.apply scope.limit a b = applied at outcome
  generalize op.meaning scope.limit a.value b.value = number at outcome whole
  cases outcome with
  | result admitted => exact .value admitted whole
  | failure fails =>
    apply Judged.fault whole _ (.operation ha.1 hb.1 left right fails)
    refine ⟨l.nodes ++ r.nodes, [], rfl, ?_, whole⟩
    intro m member
    rcases List.mem_append.mp member with inside | inside
    · exact meaning_of_mem_nodes left inside
    · exact meaning_of_mem_nodes right inside

theorem judged_eval (e : Expr) (h : scope.Admits e) : scope.Judged e (scope.eval e) := by
  have nothing : ∀ m ∈ ([] : List Expr), ∃ n, scope.meaning m = some n :=
    fun m member => absurd member List.not_mem_nil
  induction e with
  | literal n =>
    rw [eval_literal]
    exact .value (h.literals n List.mem_cons_self) rfl
  | var x =>
    rw [eval_var, lookup]
    cases found : scope.bindings.find? x with
    | none =>
      have undefined : scope.meaning (.var x) = none := by simp [meaning, found]
      exact .fault undefined ⟨[], [], rfl, nothing, undefined⟩ (.unbound found)
    | some n => exact .value (h.values x n found) (by simp [meaning, found])
  | root e ih =>
    have operand := ih (h.part fun _ => Expr.mem_nodes_operand)
    have steps : scope.eval (.root e) = (scope.eval e).bind fun n => .ok n.sqrt := scope.eval_root e
    have split : (Expr.root e).nodes = [] ++ e.nodes ++ [.root e] := rfl
    rw [steps]
    apply operand.bind split nothing
    · intro undefined
      simp [meaning, undefined]
    · intro v admitted number
      have value := Numeral.value_sqrt admitted.1
      have smaller : v.sqrt.value ≤ v.value := value ▸ Nat.sqrt_le_self v.value
      apply Judged.value (Numeral.admitted_of_le (Numeral.normal_sqrt admitted.1) admitted smaller)
      simp [meaning, number, value]
  | binary op l r ihl ihr =>
    have first := ihl (h.part fun _ => Expr.mem_nodes_left)
    have second := ihr (h.part fun _ => Expr.mem_nodes_right)
    have split : (Expr.binary op l r).nodes = [] ++ l.nodes ++ (r.nodes ++ [.binary op l r]) :=
      List.append_assoc ..
    rw [eval_binary]
    apply first.bind split nothing
    · intro undefined
      simp [meaning, undefined]
    intro a ha left
    apply second.bind rfl (fun m member => meaning_of_mem_nodes left member)
    · intro undefined
      simp [meaning, left, undefined]
    intro b hb right
    exact judged_combine ha hb left right

/-- Evaluation comes to the meaning, in normal form and within the limit, exactly where
there is one; where there is none it reports the first node that has none. -/
theorem eval_meaning (scope : Scope) (e : Expr)
    (literals : ∀ n, Expr.literal n ∈ e.nodes → n.Admitted scope.limit)
    (values : scope.bindings.Admitted scope.limit) :
    ((∃ v, scope.eval e = .ok v) ↔ ∃ n, scope.meaning e = some n) ∧
    (∀ v, scope.eval e = .ok v ↔ v.Normal ∧ scope.meaning e = some v.value) ∧
    (∀ v, scope.eval e = .ok v → v.digitCount ≤ scope.limit.count) ∧
    (scope.meaning e = none → ∃ node error, scope.FirstUndefined e node ∧
      scope.Faults node error ∧ scope.eval e = .error error) := by
  have judged := judged_eval e ⟨literals, values⟩
  generalize scope.eval e = outcome at judged ⊢
  cases judged with
  | @value v admitted number =>
    refine ⟨⟨fun _ => ⟨_, number⟩, fun _ => ⟨v, rfl⟩⟩, ?_, ?_, ?_⟩
    · intro w
      constructor
      · intro same
        cases same
        exact ⟨admitted.1, number⟩
      · rintro ⟨normal, number'⟩
        have value : v.value = w.value := Option.some.inj (number.symm.trans number')
        rw [Numeral.eq_of_value_eq admitted.1 normal value]
    · intro w same
      cases same
      exact admitted.2
    · intro undefined
      rw [number] at undefined
      cases undefined
  | fault undefined first fault =>
    have never {n : Nat} (h : scope.meaning e = some n) : False := by
      rw [undefined] at h
      cases h
    refine ⟨⟨?_, ?_⟩, ?_, ?_, fun _ => ⟨_, _, first, fault, rfl⟩⟩
    · rintro ⟨v, same⟩
      cases same
    · rintro ⟨n, number⟩
      exact (never number).elim
    · intro w
      constructor
      · intro same
        cases same
      · exact fun number => (never number.2).elim
    · intro w same
      cases same

theorem eval_meaning_zero_divisor :
    let scope : Scope := ⟨⟨[("x", ⟨[8]⟩)]⟩, .standard⟩
    let e : Expr := .binary .div (.literal ⟨[5]⟩) (.binary .rem (.var "x") (.literal ⟨[4]⟩))
    (∀ n, Expr.literal n ∈ e.nodes → n.Admitted scope.limit) ∧
    scope.bindings.Admitted scope.limit ∧ scope.meaning e = none ∧
    ∃ node error, scope.FirstUndefined e node ∧ scope.Faults node error ∧
      scope.eval e = .error error := by
  intro scope e
  have literals : ∀ n, Expr.literal n ∈ e.nodes → n.Admitted scope.limit := by
    intro n member
    have cases : n = ⟨[5]⟩ ∨ n = ⟨[4]⟩ := by simpa [e, Expr.nodes] using member
    rcases cases with rfl | rfl <;> exact ⟨by decide, by decide⟩
  have bound : Bindings.bind [("x", "8")] scope.limit = .ok scope.bindings := rfl
  have values : scope.bindings.Admitted scope.limit := Bindings.admitted_of_bind bound
  have undefined : scope.meaning e = none := rfl
  exact ⟨literals, values, undefined, (eval_meaning scope e literals values).2.2.2 undefined⟩

end Scope
end Reckoner
