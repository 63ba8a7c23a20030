import Reckoner.Reduction

namespace Reckoner

namespace Expr

theorem locate_append {e node : Expr} {inner frames : List Frame} (outer : List Frame)
    (h : e.locate inner = .redex node frames) :
    e.locate (inner ++ outer) = .redex node (frames ++ outer) := by
  induction e generalizing inner with
  | literal n => cases h
  | var x => cases h; rfl
  | root e ih =>
    rw [locate] at h ⊢
    split at h
    · next lit => cases h; rw [if_pos lit]
    · next lit => rw [if_neg lit]; exact ih h
  | binary op l r ihl ihr =>
    rw [locate] at h ⊢
    split at h
    · exact ihl h
    · split at h
      · next lit => cases h; rw [if_pos lit]
      · next lit => rw [if_neg lit]; exact ihr h

theorem eq_literal_of_locate {e : Expr} {n : Numeral} {frames : List Frame}
    (h : e.locate frames = .finished n) : e = .literal n := by
  induction e generalizing frames with
  | literal m => cases h; rfl
  | var x => cases h
  | root e ih =>
    rw [locate] at h
    split at h
    · cases h
    · next compound => exact absurd rfl (ih h ▸ compound)
  | binary op l r ihl ihr =>
    rw [locate] at h
    split at h
    · next compound => rw [ihl h] at compound; cases compound
    · split at h
      · cases h
      · next compound => exact absurd rfl (ihr h ▸ compound)

theorem isLiteral_of_next {e node : Expr} {frames : List Frame}
    (h : e.next = .redex node frames) : e.isLiteral = false := by
  cases e with
  | literal n => cases h
  | var x => rfl
  | root e => rfl
  | binary op l r => rfl

theorem literal?_eq_none {e : Expr} (h : e.isLiteral = false) : e.literal? = none :=
  Option.isNone_iff_eq_none.mp (Option.isSome_eq_false_iff.mp h)

theorem next_plug {e node : Expr} {frames : List Frame} (f : Frame)
    (h : e.next = .redex node frames) : (f.plug e).next = .redex node (frames ++ [f]) := by
  have unfinished := isLiteral_of_next h
  have inside : e.locate [f] = .redex node (frames ++ [f]) := locate_append [f] h
  cases f with
  | root => rw [Frame.plug, next, locate, unfinished]; exact inside
  | left op r => rw [Frame.plug, next, locate, literal?_eq_none unfinished]; exact inside
  | right op a => rw [Frame.plug, next, locate, literal?, unfinished]; exact inside

end Expr

theorem plugAll_concat (frames : List Frame) (f : Frame) (e : Expr) :
    plugAll (frames ++ [f]) e = f.plug (plugAll frames e) :=
  List.foldl_append

namespace Scope
open Reckoner.Expr

theorem stages_finished (scope : Scope) {e : Expr} {n : Numeral} (h : e.next = .finished n) :
    scope.stages e = .ok (n, [e]) := by
  rw [stages]
  split
  · next m found => rw [h] at found; cases found; rfl
  · next found => rw [h] at found; cases found

theorem stages_redex (scope : Scope) {e node : Expr} {frames : List Frame}
    (h : e.next = .redex node frames) :
    scope.stages e = (scope.eval node).bind fun n =>
      (scope.stages (plugAll frames (.literal n))).map fun (value, later) => (value, e :: later) := by
  rw [stages]
  split
  · next found => rw [h] at found; cases found
  · next found =>
    rw [h] at found
    cases found
    cases scope.eval node with
    | error x => rfl
    | ok n =>
      dsimp only [Except.bind]
      cases scope.stages (plugAll frames (.literal n)) <;> rfl

@[simp] theorem stages_literal (scope : Scope) (n : Numeral) :
    scope.stages (.literal n) = .ok (n, [.literal n]) :=
  scope.stages_finished rfl

theorem stages_eq_append (scope : Scope) {e : Expr} {value : Numeral} {stages : List Expr}
    (h : scope.stages e = .ok (value, stages)) : ∃ before, stages = before ++ [.literal value] := by
  induction e using Scope.stages.induct scope generalizing value stages with
  | case1 e n found =>
    rw [scope.stages_finished found] at h
    cases h
    exact ⟨[], congrArg ([·]) (eq_literal_of_locate found)⟩
  | case2 e node frames found x failed =>
    rw [scope.stages_redex found, failed] at h
    cases h
  | case3 e node frames found n worked x failed _ =>
    rw [scope.stages_redex found, worked, Except.bind, failed] at h
    cases h
  | case4 e node frames found n worked value later rest ih =>
    rw [scope.stages_redex found, worked, Except.bind, rest] at h
    cases h
    obtain ⟨before, last⟩ := ih rest
    exact ⟨e :: before, congrArg (e :: ·) last⟩

/-- The stages of a part inside a frame, and then those of the frame around its value. -/
theorem stages_plug (scope : Scope) (f : Frame) (e : Expr) :
    scope.stages (f.plug e) = (scope.stages e).bind fun (n, inner) =>
      (scope.stages (f.plug (.literal n))).map fun (value, later) =>
        (value, inner.dropLast.map f.plug ++ later) := by
  induction e using Scope.stages.induct scope with
  | case1 e n found =>
    rw [scope.stages_finished found, eq_literal_of_locate found]
    dsimp only [Except.bind, List.dropLast_singleton, List.map_nil, List.nil_append]
    cases scope.stages (f.plug (.literal n)) <;> rfl
  | case2 e node inner found x failed =>
    rw [scope.stages_redex found, scope.stages_redex (next_plug f found), failed]
    rfl
  | case3 e node inner found n worked x failed ih =>
    rw [scope.stages_redex found, scope.stages_redex (next_plug f found), worked]
    dsimp only [Except.bind]
    rw [plugAll_concat, ih, failed]
    rfl
  | case4 e node inner found n worked value later rest ih =>
    rw [scope.stages_redex found, scope.stages_redex (next_plug f found), worked]
    dsimp only [Except.bind]
    rw [plugAll_concat, ih, rest]
    obtain ⟨before, last⟩ := scope.stages_eq_append rest
    have nonempty : later ≠ [] := by
      rw [last]
      exact List.append_ne_nil_of_right_ne_nil _ (List.cons_ne_nil _ _)
    dsimp only [Except.bind, Except.map]
    rw [List.dropLast_cons_of_ne_nil nonempty]
    cases scope.stages (f.plug (.literal value)) <;> rfl

theorem stages_var (scope : Scope) (x : String) :
    scope.stages (.var x) = (scope.lookup x).map fun n => (n, [.var x, .literal n]) := by
  rw [scope.stages_redex rfl, eval_var]
  cases scope.lookup x with
  | error x => rfl
  | ok n =>
    dsimp only [Except.bind, Except.map, plugAll, List.foldl_nil]
    rw [stages_literal]

theorem stages_root_literal (scope : Scope) (n : Numeral) :
    scope.stages (.root (.literal n)) = .ok (n.sqrt, [.root (.literal n), .literal n.sqrt]) := by
  rw [scope.stages_redex rfl, eval_root, eval_literal]
  dsimp only [Except.bind, Except.map, plugAll, List.foldl_nil]
  rw [stages_literal]

theorem stages_binary_literals (scope : Scope) (op : Operator) (a b : Numeral) :
    scope.stages (.binary op (.literal a) (.literal b)) =
      (scope.combine op (.literal a) (.literal b) a b).map fun v =>
        (v, [.binary op (.literal a) (.literal b), .literal v]) := by
  rw [scope.stages_redex rfl, eval_binary, eval_literal, eval_literal]
  dsimp only [Except.bind]
  cases scope.combine op (.literal a) (.literal b) a b with
  | error x => rfl
  | ok v =>
    dsimp only [Except.map, plugAll, List.foldl_nil]
    rw [stages_literal]

theorem stages_root (scope : Scope) (e : Expr) :
    scope.stages (.root e) = (scope.stages e).map fun (n, inner) =>
      (n.sqrt, inner.map .root ++ [.literal n.sqrt]) := by
  change scope.stages (Frame.root.plug e) = _
  rw [stages_plug]
  cases worked : scope.stages e with
  | error x => rfl
  | ok pair =>
    obtain ⟨n, inner⟩ := pair
    obtain ⟨before, rfl⟩ := scope.stages_eq_append worked
    change (scope.stages (.root (.literal n))).map _ = _
    rw [stages_root_literal]
    simp only [Except.map, List.dropLast_concat, List.map_append, List.map_cons, List.map_nil,
      List.append_assoc, List.cons_append, List.nil_append]
    rfl

theorem stages_binary_literal (scope : Scope) (op : Operator) (a : Numeral) (r : Expr) :
    scope.stages (.binary op (.literal a) r) = (scope.stages r).bind fun (b, rights) =>
      (scope.combine op (.literal a) (.literal b) a b).map fun v =>
        (v, rights.map (.binary op (.literal a)) ++ [.literal v]) := by
  change scope.stages ((Frame.right op a).plug r) = _
  rw [stages_plug]
  cases worked : scope.stages r with
  | error x => rfl
  | ok pair =>
    obtain ⟨b, rights⟩ := pair
    obtain ⟨before, rfl⟩ := scope.stages_eq_append worked
    change (scope.stages (.binary op (.literal a) (.literal b))).map _ = _
    rw [stages_binary_literals]
    dsimp only [Except.bind]
    cases scope.combine op (.literal a) (.literal b) a b with
    | error x => rfl
    | ok v =>
      simp only [Except.map, List.dropLast_concat, List.map_append, List.map_cons, List.map_nil,
        List.append_assoc, List.cons_append, List.nil_append]
      rfl

theorem stages_binary (scope : Scope) (op : Operator) (l r : Expr) :
    scope.stages (.binary op l r) =
      (scope.stages l).bind fun (a, lefts) => (scope.stages r).bind fun (b, rights) =>
        (scope.combine op (.literal a) (.literal b) a b).map fun v =>
          (v, lefts.dropLast.map (.binary op · r) ++ rights.map (.binary op (.literal a)) ++
            [.literal v]) := by
  change scope.stages ((Frame.left op r).plug l) = _
  rw [stages_plug]
  cases scope.stages l with
  | error x => rfl
  | ok pair =>
    obtain ⟨a, lefts⟩ := pair
    change (scope.stages (.binary op (.literal a) r)).map _ = _
    rw [stages_binary_literal]
    dsimp only [Except.bind]
    cases scope.stages r with
    | error x => rfl
    | ok pair =>
      obtain ⟨b, rights⟩ := pair
      dsimp only [Except.bind]
      cases scope.combine op (.literal a) (.literal b) a b with
      | error x => rfl
      | ok v =>
        simp only [Except.map, List.append_assoc]
        rfl

/- The values alone, without the stages on the way to them. -/

theorem value_stages_root (scope : Scope) (e : Expr) :
    (scope.stages (.root e)).map Prod.fst =
      ((scope.stages e).map Prod.fst).bind fun n => .ok n.sqrt := by
  rw [stages_root]
  cases scope.stages e <;> rfl

theorem value_stages_binary (scope : Scope) (op : Operator) (l r : Expr) :
    (scope.stages (.binary op l r)).map Prod.fst =
      ((scope.stages l).map Prod.fst).bind fun a => ((scope.stages r).map Prod.fst).bind fun b =>
        scope.combine op (.literal a) (.literal b) a b := by
  rw [stages_binary]
  cases scope.stages l with
  | error x => rfl
  | ok left =>
    cases scope.stages r with
    | error x => rfl
    | ok right =>
      dsimp only [Except.bind, Except.map]
      cases scope.combine op (.literal left.1) (.literal right.1) left.1 right.1 <;> rfl

theorem value_workings (scope : Scope) (e : Expr) :
    (scope.workings e).map Prod.fst = (scope.stages e).map Prod.fst := by
  rw [workings]
  cases scope.stages e <;> rfl

end Scope
end Reckoner
