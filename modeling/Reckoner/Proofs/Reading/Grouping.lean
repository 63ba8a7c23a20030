import Mathlib.Data.List.TakeWhile
import Reckoner.Expr.Basic

/-! How a chain of operators is grouped. The conventional grouping cuts a chain at its
loosest operators and groups each part by itself; operators of one level group to the
left, `**` included. The grouping that is read differs from it in the first sum term
only: there, an operator of the level of `*` that stands directly before `**` takes all
the rest of the term for its right operand, so that `8 / 2 ** 1 / 2` is
`8 / ((2 ** 1) / 2)`. -/
namespace Reckoner

theorem Operator.level_le (op : Operator) : op.level ≤ 2 := by cases op <;> decide

theorem Operator.eq_pow {op : Operator} (h : 1 < op.level) : op = .pow := by
  cases op <;> first | rfl | exact absurd h (by decide)

structure Link where
  op : Operator
  operand : Expr

def Link.tighter (level : Nat) (link : Link) : Bool := decide (level < link.op.level)

theorem Link.tighter_iff {level : Nat} {link : Link} :
    link.tighter level = true ↔ level < link.op.level := decide_eq_true_iff

/-- Operands with an operator between each two of them. -/
structure Chain where
  first : Expr
  links : List Link

namespace Chain

def fold (c : Chain) : Expr :=
  c.links.foldl (fun left link => .binary link.op left link.operand) c.first

def head (level : Nat) (c : Chain) : Chain := ⟨c.first, c.links.takeWhile (Link.tighter level)⟩

def later (level : Nat) : List Link → List (Operator × Chain)
  | [] => []
  | link :: links =>
    if link.tighter level then later level links
    else (link.op, ⟨link.operand, links.takeWhile (Link.tighter level)⟩) :: later level links

/-- Cuts a chain at the operators no tighter than `level`, turns the first part and the
others into trees, and folds those. -/
def terms (level : Nat) (first others : Chain → Expr) (c : Chain) : Expr :=
  fold ⟨first (c.head level), (later level c.links).map fun (op, part) => ⟨op, others part⟩⟩

def products : Chain → Expr := terms 1 fold fold

/-- The conventional tree: `**` before `*`, `/` and `%`, and these before `+` and `-`. -/
def conventional : Chain → Expr := terms 0 products products

/-- The first operator of the level of `*` that stands directly before `**`: the links
before it, the operator, and the chain to the right of it. -/
def splitAtClimb : List Link → Option (List Link × Operator × Chain)
  | [] => none
  | link :: links =>
    if link.op.level = 1 ∧ links.head?.map Link.op = some .pow then
      some ([], link.op, ⟨link.operand, links⟩)
    else (splitAtClimb links).map fun (before, op, rest) => (link :: before, op, rest)

def firstTerm (c : Chain) : Expr :=
  match splitAtClimb c.links with
  | none => c.fold
  | some (before, op, rest) => .binary op (fold ⟨c.first, before⟩) rest.conventional

/-- The tree of a whole chain as it is read. -/
def tree : Chain → Expr := terms 0 firstTerm conventional

@[simp] theorem fold_nil (e : Expr) : fold ⟨e, []⟩ = e := rfl

theorem fold_cons (e : Expr) (link : Link) (links : List Link) :
    fold ⟨e, link :: links⟩ = fold ⟨.binary link.op e link.operand, links⟩ := rfl

theorem takeWhile_dropWhile (level : Nat) (links : List Link) :
    (links.dropWhile (Link.tighter level)).takeWhile (Link.tighter level) = [] := by
  induction links with
  | nil => rfl
  | cons link links ih =>
    rw [List.dropWhile_cons]
    split
    · exact ih
    · next loose => rw [List.takeWhile_cons, if_neg loose]

theorem later_dropWhile (level : Nat) (links : List Link) :
    later level (links.dropWhile (Link.tighter level)) = later level links := by
  induction links with
  | nil => rfl
  | cons link links ih =>
    rw [List.dropWhile_cons]
    split
    · next tight => rw [ih, later, if_pos tight]
    · rfl

theorem later_of_tighter {level : Nat} {links : List Link}
    (h : ∀ link ∈ links, link.tighter level = true) : later level links = [] := by
  induction links with
  | nil => rfl
  | cons link links ih =>
    rw [later, if_pos (h link List.mem_cons_self)]
    exact ih fun l member => h l (List.mem_cons_of_mem _ member)

theorem terms_of_tighter {level : Nat} {first others : Chain → Expr} {c : Chain}
    (h : ∀ link ∈ c.links, link.tighter level = true) : terms level first others c = first c := by
  simp only [terms, head, List.takeWhile_eq_self_iff.mpr h, later_of_tighter h, List.map_nil, fold_nil]

theorem terms_cut {level : Nat} {first others : Chain → Expr} (bare : ∀ e, first ⟨e, []⟩ = e)
    (e : Expr) {link : Link} (links : List Link) (loose : link.tighter level = false) :
    terms level first others ⟨e, link :: links⟩ =
      terms level first others
        ⟨.binary link.op e (others ⟨link.operand, links.takeWhile (Link.tighter level)⟩),
          links.dropWhile (Link.tighter level)⟩ := by
  simp only [terms, head, later, List.takeWhile_cons, loose, Bool.false_eq_true, if_false, bare,
    takeWhile_dropWhile, later_dropWhile, List.map_cons, fold_cons]

theorem terms_extend {level : Nat} {first others : Chain → Expr} {e e' : Expr} {link : Link}
    {links : List Link} (tight : link.tighter level = true)
    (same : first ⟨e, link :: links.takeWhile (Link.tighter level)⟩ =
      first ⟨e', links.takeWhile (Link.tighter level)⟩) :
    terms level first others ⟨e, link :: links⟩ = terms level first others ⟨e', links⟩ := by
  simp only [terms, head, later, List.takeWhile_cons, tight, if_true, same]

theorem terms_climb {level : Nat} {first others : Chain → Expr} (bare : ∀ e, first ⟨e, []⟩ = e)
    {e e' : Expr} {link : Link} {links : List Link} (tight : link.tighter level = true)
    (whole : first ⟨e, link :: links.takeWhile (Link.tighter level)⟩ = e') :
    terms level first others ⟨e, link :: links⟩ =
      terms level first others ⟨e', links.dropWhile (Link.tighter level)⟩ := by
  simp only [terms, head, later, List.takeWhile_cons, tight, if_true, whole, takeWhile_dropWhile,
    later_dropWhile, bare]

def climbs (op : Operator) (links : List Link) : Bool := links.head?.any (Link.tighter op.level)

theorem climbs_in_term {link : Link} {links : List Link} (tight : link.tighter 0 = true)
    (next : climbs link.op links = true) :
    link.op.level = 1 ∧ ∃ second rest, links = second :: rest ∧ second.op = .pow := by
  -- a tighter operator behind one that is tighter than `+` is `**` behind one of the level of `*`
  cases links with
  | nil => cases next
  | cons second rest =>
    have low : 0 < link.op.level := of_decide_eq_true tight
    have order : link.op.level < second.op.level := of_decide_eq_true next
    have high := second.op.level_le
    exact ⟨by omega, second, rest, rfl, Operator.eq_pow (by omega)⟩

theorem dropWhile_of_climbs {level : Nat} {link : Link} {links : List Link}
    (loose : link.tighter level = false) (next : climbs link.op links = false) :
    links.takeWhile (Link.tighter level) = [] ∧ links.dropWhile (Link.tighter level) = links := by
  cases links with
  | nil => exact ⟨rfl, rfl⟩
  | cons second links =>
    have bound : ¬ level < link.op.level := of_decide_eq_false loose
    have order : ¬ link.op.level < second.op.level := of_decide_eq_false next
    have loose' : second.tighter level = false := decide_eq_false (by omega)
    rw [List.takeWhile_cons, List.dropWhile_cons, loose']
    exact ⟨rfl, rfl⟩

theorem products_extend (e : Expr) {link : Link} {links : List Link}
    (next : climbs link.op links = false) :
    products ⟨e, link :: links⟩ = products ⟨.binary link.op e link.operand, links⟩ := by
  by_cases tight : link.tighter 1 = true
  · exact terms_extend tight (fold_cons _ _ _)
  · have loose := Bool.eq_false_iff.mpr tight
    obtain ⟨empty, same⟩ := dropWhile_of_climbs loose next
    rw [products, terms_cut fold_nil e links loose, empty, same, fold_nil]

theorem products_climb (e : Expr) {link : Link} (links : List Link) (loose : link.tighter 1 = false) :
    products ⟨e, link :: links⟩ =
      products ⟨.binary link.op e (products ⟨link.operand, links.takeWhile (Link.tighter 1)⟩),
        links.dropWhile (Link.tighter 1)⟩ := by
  have powers : products ⟨link.operand, links.takeWhile (Link.tighter 1)⟩ =
      fold ⟨link.operand, links.takeWhile (Link.tighter 1)⟩ :=
    terms_of_tighter (fun _ member => List.mem_takeWhile_imp member)
  rw [powers]
  exact terms_cut fold_nil e links loose

@[simp] theorem conventional_nil (e : Expr) : conventional ⟨e, []⟩ = e := rfl

@[simp] theorem firstTerm_nil (e : Expr) : firstTerm ⟨e, []⟩ = e := rfl

theorem conventional_takeWhile (level : Nat) (e : Expr) (links : List Link) :
    conventional ⟨e, links.takeWhile (Link.tighter level)⟩ =
      products ⟨e, links.takeWhile (Link.tighter level)⟩ := by
  apply terms_of_tighter
  intro link member
  have above : link.tighter level = true := List.mem_takeWhile_imp member
  exact Link.tighter_iff.mpr (Nat.zero_lt_of_lt (Link.tighter_iff.mp above))

theorem firstTerm_extend (e : Expr) {link : Link} {links : List Link}
    (next : ¬ (link.op.level = 1 ∧ links.head?.map Link.op = some .pow)) :
    firstTerm ⟨e, link :: links⟩ = firstTerm ⟨.binary link.op e link.operand, links⟩ := by
  simp only [firstTerm, splitAtClimb, if_neg next]
  cases splitAtClimb links with
  | none => rfl
  | some found => rfl

theorem firstTerm_climb (e : Expr) {link : Link} {links : List Link} (level : link.op.level = 1)
    (next : links.head?.map Link.op = some .pow) :
    firstTerm ⟨e, link :: links⟩ = .binary link.op e (conventional ⟨link.operand, links⟩) := by
  simp only [firstTerm, splitAtClimb, level, next, and_self, if_true, fold_nil]

theorem tree_extend (e : Expr) {link : Link} {links : List Link}
    (next : climbs link.op links = false) :
    tree ⟨e, link :: links⟩ = tree ⟨.binary link.op e link.operand, links⟩ := by
  by_cases tight : link.tighter 0 = true
  · apply terms_extend tight
    apply firstTerm_extend
    rintro ⟨level, power⟩
    cases links with
    | nil => cases power
    | cons second rest =>
      rw [List.head?_takeWhile, List.head?_cons, Option.filter_some] at power
      split at power
      · have square : second.op = .pow := Option.some.inj power
        have order : ¬ link.op.level < second.op.level := of_decide_eq_false next
        rw [level, square] at order
        exact order (by decide)
      · cases power
  · have loose := Bool.eq_false_iff.mpr tight
    obtain ⟨empty, same⟩ := dropWhile_of_climbs loose next
    rw [tree, terms_cut firstTerm_nil e links loose, empty, same, conventional_nil]

theorem tree_climb (e : Expr) {link : Link} {links : List Link} (next : climbs link.op links = true) :
    tree ⟨e, link :: links⟩ =
      tree ⟨.binary link.op e (conventional ⟨link.operand, links.takeWhile (Link.tighter 0)⟩),
        links.dropWhile (Link.tighter 0)⟩ := by
  by_cases tight : link.tighter 0 = true
  · obtain ⟨level, second, rest, rfl, square⟩ := climbs_in_term tight next
    have inside : second.tighter 0 = true := by rw [Link.tighter, square]; decide
    apply terms_climb firstTerm_nil tight
    rw [List.takeWhile_cons_of_pos inside]
    exact firstTerm_climb e level (by rw [List.head?_cons, Option.map_some, square])
  · exact terms_cut firstTerm_nil e links (Bool.eq_false_iff.mpr tight)

theorem fold_eq_products {links : List Link} (e : Expr)
    (inside : ∀ link ∈ links, link.tighter 0 = true) (whole : splitAtClimb links = none) :
    fold ⟨e, links⟩ = products ⟨e, links⟩ := by
  induction links generalizing e with
  | nil => rfl
  | cons link links ih =>
    have next : climbs link.op links = false := by
      apply Bool.eq_false_iff.mpr
      intro next
      obtain ⟨level, second, rest, rfl, square⟩ := climbs_in_term (inside link List.mem_cons_self) next
      rw [splitAtClimb, if_pos ⟨level, by rw [List.head?_cons, Option.map_some, square]⟩] at whole
      cases whole
    have rest : splitAtClimb links = none := by
      rw [splitAtClimb] at whole
      split at whole
      · cases whole
      · exact Option.map_eq_none_iff.mp whole
    rw [fold_cons, products_extend e next]
    exact ih _ (fun l member => inside l (List.mem_cons_of_mem _ member)) rest

theorem tighter_of_mem_later {level : Nat} {links : List Link} {part : Operator × Chain}
    (member : part ∈ later level links) : ∀ link ∈ part.2.links, link.tighter level = true := by
  induction links with
  | nil => cases member
  | cons link links ih =>
    rw [later] at member
    split at member
    · exact ih member
    · rcases List.mem_cons.mp member with rfl | member
      · exact fun _ inside => List.mem_takeWhile_imp inside
      · exact ih member

theorem conventional_of_mem_later {links : List Link} {part : Operator × Chain}
    (member : part ∈ later 0 links) : conventional part.2 = products part.2 :=
  terms_of_tighter (tighter_of_mem_later member)

theorem tree_eq_conventional {c : Chain} (whole : splitAtClimb (c.head 0).links = none) :
    c.tree = c.conventional := by
  have inside : ∀ link ∈ (c.head 0).links, link.tighter 0 = true :=
    fun _ member => List.mem_takeWhile_imp member
  have first : firstTerm (c.head 0) = products (c.head 0) := by
    rw [firstTerm, whole]
    exact fold_eq_products _ inside whole
  have others : (later 0 c.links).map (fun part => (⟨part.1, conventional part.2⟩ : Link)) =
      (later 0 c.links).map fun part => ⟨part.1, products part.2⟩ :=
    List.map_congr_left fun _ member => by rw [conventional_of_mem_later member]
  simp only [tree, conventional, terms] at others ⊢
  rw [first, others]

theorem splitAtClimb_eq_none_iff (links : List Link) :
    splitAtClimb links = none ↔
      ∀ before a b after, links = before ++ a :: b :: after → a.op.level = 1 → b.op ≠ .pow := by
  induction links with
  | nil =>
    refine ⟨fun _ before a b after h => ?_, fun _ => rfl⟩
    cases before <;> cases h
  | cons link links ih =>
    rw [splitAtClimb]
    split
    · next found =>
      constructor
      · intro h; cases h
      · intro h
        obtain ⟨second, rest, rfl, square⟩ : ∃ second rest, links = second :: rest ∧ second.op = .pow := by
          cases links with
          | nil => cases found.2
          | cons second rest => exact ⟨second, rest, rfl, Option.some.inj found.2⟩
        exact absurd square (h [] link second rest rfl found.1)
    · next absent =>
      rw [Option.map_eq_none_iff, ih]
      constructor
      · intro h before a b after split level square
        cases before with
        | nil =>
          cases split
          exact absent ⟨level, congrArg some square⟩
        | cons head before =>
          cases split
          exact h before a b after rfl level square
      · intro h before a b after split
        exact h (link :: before) a b after (congrArg (link :: ·) split)

end Chain
end Reckoner
