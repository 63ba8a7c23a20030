import Reckoner.Proofs.Reduction.Order

/-! The node that a pass works out. Places are ordered as an expression is walked through:
a node before what is below it, the left operand before the right one. Of the nodes that can
be worked out at once exactly one comes first in that order. A fresh pass puts a literal there
and leaves every other node where it stands; a pass that has done so does nothing more,
whatever it is run on. -/
namespace Reckoner

inductive Branch.Before : Branch → Branch → Prop where
  | operands : Branch.Before .left .right

def Place.Before (p q : Place) : Prop := List.Lex Branch.Before p q

def Frame.branch : Frame → Branch
  | .root => .operand
  | .left _ _ => .left
  | .right _ _ => .right

namespace Expr

def put : Expr → Place → Expr → Expr
  | _, [], new => new
  | .root e, .operand :: p, new => .root (e.put p new)
  | .binary op l r, .left :: p, new => .binary op (l.put p new) r
  | .binary op l r, .right :: p, new => .binary op l (r.put p new)
  | e, _, _ => e

/-- The node at `p` can be worked out at once, and no node before it can. -/
structure Leftmost (e : Expr) (p : Place) (node : Expr) : Prop where
  here : e.at? p = some node
  reducible : node.isReducible = true
  first : ∀ q other, q.Before p → e.at? q = some other → other.isReducible = false

/-- `later` is `e` with a literal for what stands at `p`: nothing is below that literal, every
other node is as it was, and one node fewer is to be worked out. -/
structure Rewritten (e : Expr) (p : Place) (n : Numeral) (later : Expr) : Prop where
  put : later = e.put p (.literal n)
  here : later.at? p = some (.literal n)
  below : ∀ q, q ≠ [] → later.at? (p ++ q) = none
  elsewhere : ∀ q, ¬ p <+: q → (later.at? q).map item = (e.at? q).map item
  fewer : later.openNodes.length + 1 = e.openNodes.length

@[simp] theorem at?_nil (e : Expr) : e.at? [] = some e := by
  cases e <;> rfl

@[simp] theorem put_nil (e new : Expr) : e.put [] new = new := by
  cases e <;> rfl

theorem at?_plug (f : Frame) (e : Expr) (p : Place) : (f.plug e).at? (f.branch :: p) = e.at? p := by
  cases f <;> rfl

theorem put_plug (f : Frame) (e : Expr) (p : Place) (new : Expr) :
    (f.plug e).put (f.branch :: p) new = f.plug (e.put p new) := by
  cases f <;> rfl

theorem at?_put (e : Expr) {p : Place} {node : Expr} (new : Expr) (h : e.at? p = some node) (q : Place) :
    (e.put p new).at? (p ++ q) = new.at? q := by
  fun_induction Expr.at? e p with
  | case1 e => rw [put_nil, List.nil_append]
  | case2 e p ih => exact ih h
  | case3 op l r p ih => exact ih h
  | case4 op l r p ih => exact ih h
  | case5 => cases h

theorem item_put (e : Expr) {p q : Place} (new : Expr) (apart : ¬ p <+: q) :
    ((e.put p new).at? q).map item = (e.at? q).map item := by
  have inner {b : Branch} {p q : Place} (h : ¬ (b :: p) <+: (b :: q)) : ¬ p <+: q :=
    fun within => h (List.prefix_cons_inj b |>.mpr within)
  fun_induction Expr.put e p new generalizing q with
  | case1 e new => exact absurd (List.nil_prefix) apart
  | case2 new e p ih =>
    match q with
    | [] => rfl
    | .operand :: q => exact ih (inner apart)
    | .left :: q => rfl
    | .right :: q => rfl
  | case3 new op l r p ih =>
    match q with
    | [] => rfl
    | .operand :: q => rfl
    | .left :: q => exact ih (inner apart)
    | .right :: q => rfl
  | case4 new op l r p ih =>
    match q with
    | [] => rfl
    | .operand :: q => rfl
    | .left :: q => rfl
    | .right :: q => exact ih (inner apart)
  | case5 => rfl

theorem operations_put (e : Expr) {p : Place} {node : Expr} (new : Expr) (h : e.at? p = some node) :
    (e.put p new).operations + node.operations = e.operations + new.operations := by
  fun_induction Expr.at? e p with
  | case1 e =>
    cases h
    rw [put_nil, Nat.add_comm]
  | case2 e p ih =>
    have part := ih h
    simp only [put, operations]
    omega
  | case3 op l r p ih =>
    have part := ih h
    simp only [put, operations]
    omega
  | case4 op l r p ih =>
    have part := ih h
    simp only [put, operations]
    omega
  | case5 => cases h

theorem operations_reducible {e : Expr} (h : e.isReducible = true) : e.operations = 1 := by
  have literal {e : Expr} (h : e.isLiteral = true) : e.operations = 0 := by
    obtain ⟨n, found⟩ := Option.isSome_iff_exists.mp h
    rw [eq_of_literal? found]
    rfl
  cases e with
  | literal n => cases h
  | var x => rfl
  | root e => exact congrArg (· + 1) (literal h)
  | binary op l r =>
    obtain ⟨left, right⟩ := Bool.and_eq_true_iff.mp h
    simp only [operations, literal left, literal right]

theorem before_or_before {e r s : Expr} {p q : Place} (hp : e.at? p = some r) (hq : e.at? q = some s) :
    p = q ∨ p.Before q ∨ q.Before p := by
  have deeper {b : Branch} {p q : Place} (h : p = q ∨ p.Before q ∨ q.Before p) :
      (b :: p) = (b :: q) ∨ Place.Before (b :: p) (b :: q) ∨ Place.Before (b :: q) (b :: p) :=
    h.imp (congrArg (b :: ·)) (Or.imp .cons .cons)
  fun_induction Expr.at? e p generalizing q with
  | case1 e =>
    cases q with
    | nil => exact .inl rfl
    | cons b q => exact .inr (.inl .nil)
  | case2 e p ih =>
    match q with
    | [] => exact .inr (.inr .nil)
    | .operand :: q => exact deeper (ih hp hq)
    | .left :: q => cases hq
    | .right :: q => cases hq
  | case3 op l r p ih =>
    match q with
    | [] => exact .inr (.inr .nil)
    | .operand :: q => cases hq
    | .left :: q => exact deeper (ih hp hq)
    | .right :: q => exact .inr (.inl (.rel .operands))
  | case4 op l r p ih =>
    match q with
    | [] => exact .inr (.inr .nil)
    | .operand :: q => cases hq
    | .left :: q => exact .inr (.inr (.rel .operands))
    | .right :: q => exact deeper (ih hp hq)
  | case5 => cases hp

theorem Leftmost.unique {e r s : Expr} {p q : Place} (hp : e.Leftmost p r) (hq : e.Leftmost q s) : p = q := by
  rcases before_or_before hp.here hq.here with same | before | before
  · exact same
  · exact absurd hp.reducible (Bool.eq_false_iff.mp (hq.first _ _ before hp.here))
  · exact absurd hq.reducible (Bool.eq_false_iff.mp (hp.first _ _ before hq.here))

theorem leftmost_self {e : Expr} (h : e.isReducible = true) : e.Leftmost [] e :=
  ⟨e.at?_nil, h, fun _ _ before => nomatch before⟩

theorem Leftmost.plug {e node : Expr} {p : Place} (f : Frame) (unfinished : e.isLiteral = false)
    (h : e.Leftmost p node) : (f.plug e).Leftmost (f.branch :: p) node := by
  refine ⟨(at?_plug f e p).trans h.here, h.reducible, ?_⟩
  intro q other before found
  cases before with
  | nil =>
    rw [at?_nil] at found
    cases found
    cases f with
    | root => exact unfinished
    | left op r => exact Bool.and_eq_false_imp.mpr fun literal => absurd literal (Bool.eq_false_iff.mp unfinished)
    | right op n => exact unfinished
  | cons inside => exact h.first _ _ inside ((at?_plug f e _).symm.trans found)
  | rel earlier =>
    -- only the right operand has something before it, and that is one literal
    cases f with
    | right op n =>
      cases earlier
      rename_i q
      cases q with
      | nil =>
        cases found
        rfl
      | cons b q => cases b <;> cases found
    | root => cases earlier
    | left op r => cases earlier

/-- The search comes to the leftmost node, and to fill the frames around it is to put something
in its place. -/
structure Found (e : Expr) (p : Place) (node : Expr) (frames : List Frame) : Prop where
  next : e.next = .redex node frames
  leftmost : e.Leftmost p node
  filled : ∀ new, plugAll frames new = e.put p new

theorem found_self {e : Expr} (h : e.isReducible = true) : e.Found [] e [] :=
  ⟨next_reducible h, leftmost_self h, fun new => (e.put_nil new).symm⟩

theorem Found.plug {e node : Expr} {p : Place} {frames : List Frame} (f : Frame)
    (h : e.Found p node frames) : (f.plug e).Found (f.branch :: p) node (frames ++ [f]) := by
  refine ⟨next_plug f h.next, h.leftmost.plug f (isLiteral_of_next h.next), ?_⟩
  intro new
  rw [plugAll_concat, h.filled, put_plug]

theorem exists_found {e : Expr} (unfinished : e.isLiteral = false) : ∃ p node frames, e.Found p node frames := by
  induction e with
  | literal n => cases unfinished
  | var x => exact ⟨_, _, _, found_self rfl⟩
  | root e ih =>
    cases operand : e.isLiteral with
    | true =>
      have now : (Expr.root e).isReducible = true := operand
      exact ⟨_, _, _, found_self now⟩
    | false =>
      obtain ⟨p, node, frames, found⟩ := ih operand
      exact ⟨_, _, _, found.plug .root⟩
  | binary op l r ihl ihr =>
    cases left : l.isLiteral with
    | false =>
      obtain ⟨p, node, frames, found⟩ := ihl left
      exact ⟨_, _, _, found.plug (.left op r)⟩
    | true =>
      cases right : r.isLiteral with
      | true =>
        have now : (Expr.binary op l r).isReducible = true := Bool.and_eq_true_iff.mpr ⟨left, right⟩
        exact ⟨_, _, _, found_self now⟩
      | false =>
        obtain ⟨a, literal⟩ := Option.isSome_iff_exists.mp left
        obtain rfl := eq_of_literal? literal
        obtain ⟨p, node, frames, found⟩ := ihr right
        exact ⟨_, _, _, found.plug (.right op a)⟩

theorem Leftmost.rewritten {e node : Expr} {p : Place} (h : e.Leftmost p node) (n : Numeral) :
    e.Rewritten p n (e.put p (.literal n)) := by
  have behind (q : Place) : (e.put p (.literal n)).at? (p ++ q) = (Expr.literal n).at? q :=
    e.at?_put (.literal n) h.here q
  refine ⟨rfl, ?_, ?_, fun q apart => e.item_put (.literal n) apart, ?_⟩
  · have top := behind []
    rwa [List.append_nil, at?_nil] at top
  · intro q nonempty
    obtain ⟨b, q, rfl⟩ := List.exists_cons_of_ne_nil nonempty
    rw [behind]
    cases b <;> rfl
  · have count := e.operations_put (.literal n) h.here
    rw [operations_reducible h.reducible] at count
    simpa [operations] using count

theorem Rewritten.ne {e later : Expr} {p : Place} {n : Numeral} (h : e.Rewritten p n later) : later ≠ e := by
  rintro rfl
  exact absurd h.fewer (Nat.succ_ne_self _)

end Expr

namespace Pass
open Reckoner.Expr

def fresh (scope : Scope) : Pass := { scope }

def after (pass : Pass) (trees : List Expr) : Pass := trees.foldl (fun pass e => (pass.run e).2) pass

def Rewrites (pass : Pass) (e : Expr) : Prop := ∃ later, (pass.run e).1 = .ok later ∧ later ≠ e

def HasRewritten (pass : Pass) (trees : List Expr) : Prop :=
  ∃ before e behind, trees = before ++ e :: behind ∧ (pass.after before).Rewrites e

variable {scope : Scope} {pass : Pass}

theorem run_spent (spent : pass.spent = true) (e : Expr) : pass.run e = (.ok e, pass) := if_pos spent

theorem walk_spent (spent : pass.spent = true) (e : Expr) : pass.walk e = (.ok e, pass) := by
  cases e <;> exact if_pos spent

theorem run_literal (n : Numeral) : pass.run (.literal n) = (.ok (.literal n), pass) := by
  unfold run
  split <;> rfl

theorem run_plug (f : Frame) {e : Expr} (unfinished : e.isLiteral = false) :
    pass.run (f.plug e) = ((pass.run e).1.map f.plug, (pass.run e).2) := by
  by_cases spent : pass.spent = true
  · simp only [run_spent spent, Except.map]
  · obtain ⟨node, frames, found⟩ := exists_next unfinished
    unfold run
    simp only [if_neg spent, found, next_plug f found]
    cases pass.scope.eval node with
    | error x => rfl
    | ok n => simp only [plugAll_concat, Except.map]

theorem spent_of_run {e later : Expr} {next : Pass} (unfinished : e.isLiteral = false)
    (h : pass.run e = (.ok later, next)) : next.spent = true := by
  by_cases spent : pass.spent = true
  · rw [run_spent spent] at h
    cases h
    exact spent
  · obtain ⟨node, frames, found⟩ := exists_next unfinished
    simp only [run, if_neg spent, found] at h
    split at h
    · cases h
    · cases h
      rfl

section

variable (unspent : ¬ pass.spent = true)

include unspent

theorem walk_reducible {e : Expr} (now : e.isReducible = true) : pass.run e = pass.walk e := by
  have here := next_reducible now
  unfold run
  simp only [if_neg unspent, here]
  cases e with
  | literal n => cases now
  | _ => exact ((if_neg unspent).trans (if_pos now)).symm

theorem walk_root {e : Expr} (unfinished : e.isLiteral = false) (same : pass.run e = pass.walk e) :
    pass.run (.root e) = pass.walk (.root e) := by
  have waits : ¬ (Expr.root e).isReducible = true := Bool.eq_false_iff.mp unfinished
  have around : pass.run (.root e) = _ := run_plug .root unfinished
  rw [around, walk, if_neg unspent, if_neg waits, ← same]
  cases pass.run e with
  | mk outcome next => cases outcome <;> rfl

theorem walk_left {l : Expr} (unfinished : l.isLiteral = false) (same : pass.run l = pass.walk l) (op : Operator)
    (r : Expr) : pass.run (.binary op l r) = pass.walk (.binary op l r) := by
  -- the mark is set when the walk comes to the right operand, which it then only copies
  have waits : ¬ (Expr.binary op l r).isReducible = true := by simp [isReducible, unfinished]
  have around : pass.run (.binary op l r) = _ := run_plug (.left op r) unfinished
  rw [around, walk, if_neg unspent, if_neg waits, ← same]
  cases worked : pass.run l with
  | mk outcome next =>
    cases outcome with
    | error x => rfl
    | ok later =>
      simp only [walk_spent (spent_of_run unfinished worked) r]
      rfl

theorem walk_right {r : Expr} (unfinished : r.isLiteral = false) (same : pass.run r = pass.walk r) (op : Operator)
    (a : Numeral) : pass.run (.binary op (.literal a) r) = pass.walk (.binary op (.literal a) r) := by
  have waits : ¬ (Expr.binary op (.literal a) r).isReducible = true := by simp [isReducible, unfinished]
  have left : pass.walk (.literal a) = (.ok (.literal a), pass) := by
    rw [walk, if_neg unspent]
    rfl
  have around : pass.run (.binary op (.literal a) r) = _ := run_plug (.right op a) unfinished
  rw [around, walk, if_neg unspent, if_neg waits]
  simp only [left, ← same]
  cases pass.run r with
  | mk outcome next => cases outcome <;> rfl

end

/-- The search for the next node comes to what the walk with its mark comes to. -/
theorem run_eq_walk (pass : Pass) (e : Expr) : pass.run e = pass.walk e := by
  by_cases spent : pass.spent = true
  · rw [run_spent spent, walk_spent spent]
  induction e with
  | literal n =>
    rw [run_literal, walk, if_neg spent]
    rfl
  | var x => exact walk_reducible spent rfl
  | root e ih =>
    cases operand : e.isLiteral with
    | true =>
      have now : (Expr.root e).isReducible = true := operand
      exact walk_reducible spent now
    | false => exact walk_root spent operand ih
  | binary op l r ihl ihr =>
    cases left : l.isLiteral with
    | false => exact walk_left spent left ihl op r
    | true =>
      cases right : r.isLiteral with
      | true =>
        have now : (Expr.binary op l r).isReducible = true := Bool.and_eq_true_iff.mpr ⟨left, right⟩
        exact walk_reducible spent now
      | false =>
        obtain ⟨a, found⟩ := Option.isSome_iff_exists.mp left
        rw [eq_of_literal? found]
        exact walk_right spent right ihr op a

theorem run_found {e node : Expr} {p : Place} {frames : List Frame} (h : e.Found p node frames)
    (unspent : ¬ pass.spent = true) :
    pass.run e = match pass.scope.eval node with
      | .error x => (.error x, pass)
      | .ok n => (.ok (e.put p (.literal n)), { pass with spent := true }) := by
  unfold run
  rw [if_neg unspent, h.next]
  cases value : pass.scope.eval node with
  | error x => simp only [value]
  | ok n => simp only [value, h.filled]

theorem run_cases (pass : Pass) (e : Expr) :
    (pass.run e = (.ok e, pass) ∨ ∃ x, pass.run e = (.error x, pass)) ∨
      pass.spent = false ∧ pass.Rewrites e ∧ (pass.run e).2 = { pass with spent := true } := by
  by_cases spent : pass.spent = true
  · exact .inl (.inl (run_spent spent e))
  cases unfinished : e.isLiteral with
  | true =>
    obtain ⟨n, literal⟩ := Option.isSome_iff_exists.mp unfinished
    obtain rfl := eq_of_literal? literal
    exact .inl (.inl (run_literal n))
  | false =>
    obtain ⟨p, node, frames, found⟩ := exists_found unfinished
    have ran := run_found found spent
    cases worked : pass.scope.eval node with
    | error x =>
      rw [worked] at ran
      exact .inl (.inr ⟨x, ran⟩)
    | ok n =>
      rw [worked] at ran
      have other := (found.leftmost.rewritten n).ne
      refine .inr ⟨Bool.eq_false_iff.mpr spent, ⟨_, congrArg Prod.fst ran, other⟩, congrArg Prod.snd ran⟩

theorem after_spent (spent : pass.spent = true) (trees : List Expr) : pass.after trees = pass := by
  induction trees with
  | nil => rfl
  | cons e trees ih =>
    have same : (pass.run e).2 = pass := congrArg Prod.snd (run_spent spent e)
    rw [after, List.foldl_cons, same]
    exact ih

theorem spent_of_rewrites {e : Expr} (h : pass.Rewrites e) : (pass.run e).2.spent = true := by
  obtain ⟨later, done, other⟩ := h
  rcases pass.run_cases e with (same | ⟨x, failed⟩) | ⟨_, _, spent⟩
  · rw [same] at done
    exact absurd (Except.ok.inj done).symm other
  · rw [failed] at done
    cases done
  · rw [spent]

theorem run_eq_of_not_rewrites {e : Expr} (h : ¬ pass.Rewrites e) : (pass.run e).2 = pass := by
  rcases pass.run_cases e with (same | ⟨x, failed⟩) | ⟨_, rewrites, _⟩
  · rw [same]
  · rw [failed]
  · exact absurd rewrites h

theorem spent_of_rewritten {trees : List Expr} (h : pass.HasRewritten trees) : (pass.after trees).spent = true := by
  obtain ⟨before, e, behind, rfl, rewrites⟩ := h
  have spent := spent_of_rewrites rewrites
  have same : pass.after (before ++ e :: behind) = ((pass.after before).run e).2.after behind := by
    simp only [after, List.foldl_append, List.foldl_cons]
  rw [same, after_spent spent]
  exact spent

theorem after_eq_of_not_rewritten {trees : List Expr} (h : ¬ pass.HasRewritten trees) : pass.after trees = pass := by
  induction trees with
  | nil => rfl
  | cons e trees ih =>
    have first : (pass.run e).2 = pass := run_eq_of_not_rewrites fun rewrites => h ⟨[], e, trees, rfl, rewrites⟩
    rw [after, List.foldl_cons, first]
    apply ih
    rintro ⟨before, d, behind, rfl, rewrites⟩
    refine h ⟨e :: before, d, behind, rfl, ?_⟩
    rw [after, List.foldl_cons, first]
    exact rewrites

/-- A fresh pass gives a literal back. In anything else exactly one place has a node that can be
worked out at once with none before it; the pass puts the value of that node there and is spent,
or fails as the node does and stays fresh. Over any runs of one pass, those that fail leave it as
it was, those behind the first that has rewritten something give back what they are given, and up
to that one the pass is still fresh. The search for the node is the walk that carries the mark. -/
theorem rewrites_leftmost_once (scope : Scope) :
    (∀ (pass : Pass) (e : Expr), pass.run e = pass.walk e) ∧
    (∀ n, (fresh scope).run (.literal n) = (.ok (.literal n), fresh scope)) ∧
    (∀ e : Expr, e.isLiteral = false → ∃ p node, e.Leftmost p node ∧
      (∀ q other, e.Leftmost q other → q = p) ∧
      (∀ n, scope.eval node = .ok n → ∃ later,
        (fresh scope).run e = (.ok later, { fresh scope with spent := true }) ∧ e.Rewritten p n later) ∧
      (∀ x, scope.eval node = .error x → (fresh scope).run e = (.error x, fresh scope))) ∧
    ∀ trees e,
      let pass := (fresh scope).after trees
      (∀ x, (pass.run e).1 = .error x → (pass.run e).2 = pass) ∧
      ((fresh scope).HasRewritten trees → pass.run e = (.ok e, pass)) ∧
      (¬ (fresh scope).HasRewritten trees → pass = fresh scope) := by
  refine ⟨run_eq_walk, run_literal, ?_, ?_⟩
  · intro e unfinished
    obtain ⟨p, node, frames, found⟩ := exists_found unfinished
    have ran : (fresh scope).run e = match scope.eval node with
      | .error x => (.error x, fresh scope)
      | .ok n => (.ok (e.put p (.literal n)), { fresh scope with spent := true }) :=
      run_found found Bool.false_ne_true
    refine ⟨p, node, found.leftmost, fun q other first => first.unique found.leftmost, ?_, ?_⟩
    · intro n worked
      rw [worked] at ran
      exact ⟨_, ran, found.leftmost.rewritten n⟩
    · intro x failed
      rw [failed] at ran
      exact ran
  · intro trees e pass
    refine ⟨?_, ?_, after_eq_of_not_rewritten⟩
    · intro x failed
      apply run_eq_of_not_rewrites
      rintro ⟨later, done, _⟩
      rw [done] at failed
      cases failed
    · intro rewritten
      exact run_spent (spent_of_rewritten rewritten) e

theorem rewrites_leftmost_once_lookup :
    let scope : Scope := ⟨⟨[("x", ⟨[2]⟩)]⟩, .standard⟩
    let sum : Expr := .binary .add (.literal ⟨[1]⟩) (.literal ⟨[2]⟩)
    let e (x : Expr) : Expr :=
      .binary .mul (.binary .add (.literal ⟨[9]⟩) (.root (.binary .div (.literal ⟨[4]⟩) x))) sum
    (e (.var "x")).isLiteral = false ∧ scope.eval (.var "x") = .ok ⟨[2]⟩ ∧
    (fresh scope).run (e (.var "x")) = (.ok (e (.literal ⟨[2]⟩)), { fresh scope with spent := true }) ∧
    (fresh scope).HasRewritten [e (.var "x")] ∧
    ((fresh scope).after [e (.var "x")]).run sum = (.ok sum, (fresh scope).after [e (.var "x")]) ∧
    (Expr.root (.var "y")).isLiteral = false ∧ scope.eval (.var "y") = .error (.unknownVariable "y") ∧
    (fresh scope).run (.root (.var "y")) = (.error (.unknownVariable "y"), fresh scope) := by
  intro scope sum e
  obtain ⟨_, _, each, runs⟩ := rewrites_leftmost_once scope
  have bound : scope.eval (.var "x") = .ok ⟨[2]⟩ := scope.eval_var "x"
  have unbound : scope.eval (.var "y") = .error (.unknownVariable "y") := scope.eval_var "y"
  have leftmost : (e (.var "x")).Leftmost [.left, .right, .operand, .right] (.var "x") :=
    ((((leftmost_self rfl).plug (.right .div ⟨[4]⟩) rfl).plug .root rfl).plug (.right .add ⟨[9]⟩) rfl).plug
      (.left .mul sum) rfl
  have leftmost' : (Expr.root (.var "y")).Leftmost [.operand] (.var "y") := (leftmost_self rfl).plug .root rfl
  obtain ⟨p, node, first, only, worked, _⟩ := each (e (.var "x")) rfl
  obtain rfl := only _ _ leftmost
  obtain rfl : Expr.var "x" = node := Option.some.inj first.here
  obtain ⟨later, ran, rewritten⟩ := worked _ bound
  obtain rfl : later = e (.literal ⟨[2]⟩) := rewritten.put
  obtain ⟨p, node, first, only, _, failed⟩ := each (.root (.var "y")) rfl
  obtain rfl := only _ _ leftmost'
  obtain rfl : Expr.var "y" = node := Option.some.inj first.here
  have rewrote : (fresh scope).HasRewritten [e (.var "x")] :=
    ⟨[], _, [], rfl, _, congrArg Prod.fst ran, rewritten.ne⟩
  exact ⟨rfl, bound, ran, rewrote, (runs _ sum).2.1 rewrote, rfl, unbound, failed _ unbound⟩

end Pass
end Reckoner
