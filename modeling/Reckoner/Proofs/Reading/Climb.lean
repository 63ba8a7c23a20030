import Reckoner.Proofs.Reading.Derivation
import Reckoner.Proofs.Reading.Grouping
import Reckoner.Stream

namespace Reckoner

/-- `Links limit ts links rest`: the tokens `ts` are operators with an operand behind each
of them, up to `rest`, where no operator comes. -/
inductive Links (limit : DigitLimit) : List Token → List Link → List Token → Prop where
  | nil {ts : List Token} : nextOperator ts = .ok none → Links limit ts [] ts
  | cons {t : Token} {ts mid rest : List Token} {link : Link} {levels : Nat} {links : List Link} :
      t.kind = .operator link.op → Derives limit .operand ts link.operand mid levels →
      Links limit mid links rest → Links limit (t :: ts) (link :: links) rest

namespace Chain

variable {limit : DigitLimit}

theorem nextOperator_of_links {ts rest : List Token} {links : List Link}
    (h : Links limit ts links rest) : nextOperator ts = .ok (links.head?.map Link.op) := by
  cases h with
  | nil ends => exact ends
  | cons kind _ _ => rw [nextOperator, kind]; rfl

theorem tighterFollows_of_links (op : Operator) {ts rest : List Token} {links : List Link}
    (h : Links limit ts links rest) : tighterFollows op ts = .ok (climbs op links) := by
  rw [tighterFollows, nextOperator_of_links h]
  cases links <;> rfl

theorem takeWhile_tighter {low high : Nat} (order : low ≤ high) (links : List Link) :
    (links.takeWhile (Link.tighter low)).takeWhile (Link.tighter high) =
        links.takeWhile (Link.tighter high) ∧
      (links.takeWhile (Link.tighter low)).dropWhile (Link.tighter high) =
        (links.dropWhile (Link.tighter high)).takeWhile (Link.tighter low) ∧
      (links.dropWhile (Link.tighter high)).dropWhile (Link.tighter low) =
        links.dropWhile (Link.tighter low) := by
  induction links with
  | nil => exact ⟨rfl, rfl, rfl⟩
  | cons link links ih =>
    by_cases above : link.tighter high = true
    · have below : link.tighter low = true :=
        decide_eq_true (Nat.lt_of_le_of_lt order (of_decide_eq_true above))
      simp only [List.takeWhile_cons_of_pos below, List.takeWhile_cons_of_pos above,
        List.dropWhile_cons_of_pos above, List.dropWhile_cons_of_pos below, ih, and_self]
    · by_cases below : link.tighter low = true
      · simp only [List.takeWhile_cons_of_pos below, List.takeWhile_cons_of_neg above,
          List.dropWhile_cons_of_neg above, and_self]
      · simp only [List.takeWhile_cons_of_neg below, List.takeWhile_cons_of_neg above,
          List.dropWhile_cons_of_neg above, List.takeWhile_nil, List.dropWhile_nil, and_self]

theorem climbs_takeWhile {op : Operator} {links : List Link} (level : Nat)
    (next : climbs op links = false) : climbs op (links.takeWhile (Link.tighter level)) = false := by
  cases links with
  | nil => rfl
  | cons link links =>
    rw [List.takeWhile_cons]
    split
    · exact next
    · rfl

theorem derives_products (level : Nat) (left : Expr) {ts rest : List Token} {links : List Link}
    (h : Links limit ts links rest) : ∃ mid levels,
      Derives limit (.chain left (level + 1)) ts
        (products ⟨left, links.takeWhile (Link.tighter level)⟩) mid levels ∧
      Links limit mid (links.dropWhile (Link.tighter level)) rest := by
  induction hn : links.length using Nat.strong_induction_on generalizing level left ts links with
  | _ n ih =>
  cases h with
  | nil ends => exact ⟨_, _, .finished ends, .nil ends⟩
  | @cons t ts mid _ link levels links kind first later =>
    have follows := tighterFollows_of_links link.op later
    rw [List.length_cons] at hn
    by_cases tight : link.tighter level = true
    · have floor : level + 1 ≤ link.op.level := of_decide_eq_true tight
      rw [List.takeWhile_cons_of_pos tight, List.dropWhile_cons_of_pos tight]
      cases next : climbs link.op links with
      | false =>
        rw [next] at follows
        obtain ⟨after, _, chain, remain⟩ :=
          ih links.length (by omega) level (.binary link.op left link.operand) later rfl
        rw [products_extend left (climbs_takeWhile level next)]
        exact ⟨after, _, .extend kind floor first follows chain, remain⟩
      | true =>
        rw [next] at follows
        -- only an operator of the level of `*` stands between this floor and a tighter one
        have middle : link.op.level = 1 :=
          (climbs_in_term (decide_eq_true (Nat.lt_of_lt_of_le (Nat.succ_pos level) floor)) next).1
        obtain rfl : level = 0 := by omega
        have runs := takeWhile_tighter (Nat.zero_le 1) links
        have shorter := (List.dropWhile_suffix (Link.tighter 1) (l := links)).length_le
        obtain ⟨turn, _, climb, behind⟩ := ih links.length (by omega) 1 link.operand later rfl
        obtain ⟨after, _, chain, remain⟩ := ih _ (by omega) 0
          (.binary link.op left (products ⟨link.operand, links.takeWhile (Link.tighter 1)⟩)) behind rfl
        rw [products_climb left _ (decide_eq_false (by omega)), runs.1, runs.2.1]
        rw [runs.2.2] at remain
        exact ⟨after, _, .climb kind floor first follows climb chain, remain⟩
    · rw [List.takeWhile_cons_of_neg tight, List.dropWhile_cons_of_neg tight]
      have weak : ¬ level < link.op.level := of_decide_eq_false (Bool.eq_false_iff.mpr tight)
      exact ⟨_, _, .weaker (by rw [nextOperator, kind]) (by omega), .cons kind first later⟩

theorem derives_tree (left : Expr) {ts rest : List Token} {links : List Link}
    (h : Links limit ts links rest) :
    ∃ levels, Derives limit (.chain left 0) ts (tree ⟨left, links⟩) rest levels := by
  induction hn : links.length using Nat.strong_induction_on generalizing left ts links with
  | _ n ih =>
  cases h with
  | nil ends => exact ⟨_, .finished ends⟩
  | @cons t ts mid _ link levels links kind first later =>
    have follows := tighterFollows_of_links link.op later
    rw [List.length_cons] at hn
    cases next : climbs link.op links with
    | false =>
      rw [next] at follows
      obtain ⟨_, chain⟩ := ih links.length (by omega) (.binary link.op left link.operand) later rfl
      rw [tree_extend left next]
      exact ⟨_, .extend kind (Nat.zero_le _) first follows chain⟩
    | true =>
      rw [next] at follows
      have shorter := (List.dropWhile_suffix (Link.tighter 0) (l := links)).length_le
      obtain ⟨turn, _, climb, behind⟩ := derives_products 0 link.operand later
      obtain ⟨_, chain⟩ := ih _ (by omega)
        (.binary link.op left (products ⟨link.operand, links.takeWhile (Link.tighter 0)⟩)) behind rfl
      rw [tree_climb left next, conventional_takeWhile]
      exact ⟨_, .climb kind (Nat.zero_le _) first follows climb chain⟩

end Chain

namespace ReadRules

def OperandAt (rules : ReadRules) (ts : List Token) (e : Expr) (rest : List Token) : Prop :=
  ∃ maxDepth depth, { rules with maxDepth }.read .operand depth ts = ⟨.ok e, rest⟩

/-- Operators with an operand behind each of them, up to `)` or the end of the input. -/
inductive ChainAt (rules : ReadRules) : List Token → List Link → List Token → Prop where
  | nil {ts : List Token} :
      (rules.peek ts).kind = .closing ∨ (rules.peek ts).kind = .finish → ChainAt rules ts [] ts
  | cons {t : Token} {ts mid rest : List Token} {link : Link} {links : List Link} :
      t.kind = .operator link.op → rules.OperandAt ts link.operand mid →
      ChainAt rules mid links rest → ChainAt rules (t :: ts) (link :: links) rest

theorem operandAt_iff (rules : ReadRules) (ts : List Token) (e : Expr) (rest : List Token) :
    rules.OperandAt ts e rest ↔ ∃ levels, Derives rules.limit .operand ts e rest levels := by
  constructor
  · rintro ⟨maxDepth, depth, h⟩
    exact derives_of_read { rules with maxDepth } .operand depth ts h
  · rintro ⟨levels, h⟩
    rcases read_of_derives { rules with maxDepth := levels } h 0 with ⟨_, h⟩ | ⟨deep, _⟩
    · exact ⟨levels, 0, h⟩
    · exact absurd deep (Nat.lt_irrefl levels)

theorem nextOperator_eq_none_iff (rules : ReadRules) (ts : List Token) :
    nextOperator ts = .ok none ↔
      (rules.peek ts).kind = .closing ∨ (rules.peek ts).kind = .finish := by
  cases ts with
  | nil => exact ⟨fun _ => .inr rules.finish_kind, fun _ => rfl⟩
  | cons t ts =>
    constructor
    · exact nextOperator_eq_none
    · intro h
      have kind : t.kind = .closing ∨ t.kind = .finish := h
      rcases kind with kind | kind <;> rw [nextOperator, kind]

theorem chainAt_iff (rules : ReadRules) (ts : List Token) (links : List Link) (rest : List Token) :
    rules.ChainAt ts links rest ↔ Links rules.limit ts links rest := by
  constructor
  · intro h
    induction h with
    | nil stop => exact .nil ((rules.nextOperator_eq_none_iff _).mpr stop)
    | cons kind operand _ ih =>
      obtain ⟨_, first⟩ := (rules.operandAt_iff _ _ _).mp operand
      exact .cons kind first ih
  · intro h
    induction h with
    | nil stop => exact .nil ((rules.nextOperator_eq_none_iff _).mp stop)
    | cons kind first _ ih => exact .cons kind ((rules.operandAt_iff _ _ _).mpr ⟨_, first⟩) ih

end ReadRules

namespace Stream

/-- What an action comes to at any depth and under any greatest depth: to `e` with `rest`
left over where there is room for its levels, and to a failure by depth where not. -/
def ComesTo (s : Stream) (act : Stream → Except ParseError Expr × Stream) (e : Expr)
    (rest : List Token) : Prop :=
  ∃ levels, ∀ maxDepth depth,
    let t : Stream := { s with depth, rules := { s.rules with maxDepth } }
    (levels ≤ maxDepth - depth → act t = (.ok e, { t with pending := rest })) ∧
      (maxDepth - depth < levels →
        ∃ offset, (act t).1 = .error (.nestingTooDeep maxDepth offset))

theorem comesTo_of_derives {s : Stream} {goal : Goal} {e : Expr} {rest : List Token} {levels : Nat}
    (h : Derives s.rules.limit goal s.pending e rest levels) : s.ComesTo (·.read goal) e rest := by
  refine ⟨levels, fun maxDepth depth => ?_⟩
  intro t
  rcases t.rules.read_of_derives h depth with ⟨room, done⟩ | ⟨deep, offset, after, failed⟩
  · refine ⟨fun _ => ?_, fun deep => absurd room (Nat.not_le_of_lt deep)⟩
    simp only [read, t] at done ⊢
    rw [done]
  · refine ⟨fun room => absurd room (Nat.not_le_of_lt deep), fun _ => ⟨offset, ?_⟩⟩
    simp only [read, t] at failed ⊢
    rw [failed]

/-- What is read from a chain, whatever its operators and operands are: the first term
may be grouped in its own way, all other terms are conventional, and so is everything
that is read above the lowest floor. -/
theorem expression_of_chain (s : Stream) {first : Expr} {mid rest : List Token} {links : List Link}
    (operand : s.rules.OperandAt s.pending first mid) (chain : s.rules.ChainAt mid links rest) :
    s.ComesTo Stream.expression (Chain.tree ⟨first, links⟩) rest ∧
    ((∀ before a b after, (Chain.head 0 ⟨first, links⟩).links = before ++ a :: b :: after →
        a.op.level = 1 → b.op ≠ .pow) →
      Chain.tree ⟨first, links⟩ = Chain.conventional ⟨first, links⟩) ∧
    (∀ left, { s with pending := mid }.ComesTo (·.chain left 0) (Chain.tree ⟨left, links⟩) rest) ∧
    ∀ left level, ∃ after,
      { s with pending := mid }.ComesTo (·.chain left (level + 1))
        (Chain.conventional ⟨left, links.takeWhile (Link.tighter level)⟩) after ∧
      s.rules.ChainAt after (links.dropWhile (Link.tighter level)) rest := by
  obtain ⟨_, head⟩ := (s.rules.operandAt_iff _ _ _).mp operand
  have links' := (s.rules.chainAt_iff _ _ _).mp chain
  refine ⟨?_, ?_, ?_, ?_⟩
  · obtain ⟨_, tail⟩ := Chain.derives_tree first links'
    exact comesTo_of_derives (.expression head tail)
  · intro apart
    exact Chain.tree_eq_conventional ((Chain.splitAtClimb_eq_none_iff _).mpr apart)
  · intro left
    obtain ⟨_, tail⟩ := Chain.derives_tree left links'
    exact comesTo_of_derives (s := { s with pending := mid }) tail
  · intro left level
    obtain ⟨after, _, tail, remain⟩ := Chain.derives_products level left links'
    rw [Chain.conventional_takeWhile]
    exact ⟨after, comesTo_of_derives (s := { s with pending := mid }) tail,
      (s.rules.chainAt_iff _ _ _).mpr remain⟩

/-- `a / b ** c / d`, where `b ** c / d` becomes the divisor. -/
theorem expression_of_divided_power :
    (start "a / b ** c / d"
        [⟨.name, 0, 1, "a"⟩, ⟨.operator .div, 2, 3, "/"⟩, ⟨.name, 4, 5, "b"⟩,
          ⟨.operator .pow, 6, 8, "**"⟩, ⟨.name, 9, 10, "c"⟩, ⟨.operator .div, 11, 12, "/"⟩,
          ⟨.name, 13, 14, "d"⟩, .finishAt 14] .standard).ComesTo
      Stream.expression
      (.binary .div (.var "a") (.binary .div (.binary .pow (.var "b") (.var "c")) (.var "d"))) [] := by
  have name {rules : ReadRules} {t : Token} {ts : List Token} (kind : t.kind = .name) :
      rules.OperandAt (t :: ts) (.var t.text) ts :=
    ⟨1, 0, by rw [ReadRules.read_operand_cons, kind]⟩
  exact (@expression_of_chain _ (.var "a") _ _
    [⟨.div, .var "b"⟩, ⟨.pow, .var "c"⟩, ⟨.div, .var "d"⟩] (name rfl)
    (.cons rfl (name rfl) (.cons rfl (name rfl) (.cons rfl (name rfl) (.nil (.inr rfl)))))).1

end Stream
end Reckoner
