import Reckoner.Proofs.Reading.Grammar
import Reckoner.Proofs.Token.Lexing

/-! Which sentences are nested too deeply. A primary that stands in parentheses and in the
operands of roots is read as many levels deep as there are of both, and one more. To that a
chain adds two levels at most, since a climb has a higher floor than the chain it stands in;
how many operators a chain has makes no difference. -/
namespace Reckoner

/-- `Encloses p s k r`: a primary of the phrase stands in `k` of its parentheses and in the
operands of `r` of its roots. -/
inductive Encloses : Phrase → List TokenKind → Nat → Nat → Prop where
  | primary {s : List TokenKind} : Forms .operand s → Encloses .operand s 0 0
  | group {s : List TokenKind} {k r : Nat} :
      Encloses .expression s k r → Encloses .operand (.opening :: s ++ [.closing]) (k + 1) r
  | root {s : List TokenKind} {k r : Nat} : Encloses .operand s k r → Encloses .operand (.root :: s) k (r + 1)
  | operand {op : Operator} {s t : List TokenKind} {k r : Nat} :
      Encloses .operand s k r → Forms .tail t → Encloses .tail (.operator op :: s ++ t) k r
  | later {op : Operator} {s t : List TokenKind} {k r : Nat} :
      Forms .operand s → Encloses .tail t k r → Encloses .tail (.operator op :: s ++ t) k r
  | first {s t : List TokenKind} {k r : Nat} :
      Encloses .operand s k r → Forms .tail t → Encloses .expression (s ++ t) k r
  | rest {s t : List TokenKind} {k r : Nat} :
      Forms .operand s → Encloses .tail t k r → Encloses .expression (s ++ t) k r

namespace Encloses

variable {p : Phrase} {s t : List TokenKind} {k r : Nat}

theorem tail_append (first : Forms .tail s) (h : Encloses .tail t k r) : Encloses .tail (s ++ t) k r := by
  induction first using Forms.tail_induction with
  | last => exact h
  | link op a b operand _ ih =>
    have joined : Encloses .tail (.operator op :: a ++ (b ++ t)) k r := .later operand ih
    rwa [← List.append_assoc] at joined

theorem append_tail (h : Encloses .tail s k r) (behind : Forms .tail t) : Encloses .tail (s ++ t) k r := by
  generalize same : Phrase.tail = p at h
  induction h with
  | @operand op a b k r inside tail _ =>
    have joined : Encloses .tail (.operator op :: a ++ (b ++ t)) k r := .operand inside (tail.append behind)
    rwa [← List.append_assoc] at joined
  | @later op a b k r operand _ ih =>
    have joined : Encloses .tail (.operator op :: a ++ (b ++ t)) k r := .later operand (ih same)
    rwa [← List.append_assoc] at joined
  | primary => cases same
  | group => cases same
  | root => cases same
  | first => cases same
  | rest => cases same

theorem forms (h : Encloses p s k r) : Forms p s := by
  induction h with
  | primary operand => exact operand
  | group _ ih => exact .group ih
  | root _ ih => exact .root ih
  | operand _ tail ih => exact .link ih tail
  | later operand _ ih => exact .link operand ih
  | first _ tail ih => exact .expression ih tail
  | rest operand _ ih => exact .expression operand ih

theorem le_count (h : Encloses p s k r) : k ≤ s.count .opening ∧ r ≤ s.count .root := by
  induction h with
  | primary => exact ⟨Nat.zero_le _, Nat.zero_le _⟩
  | group _ ih =>
    simp
    omega
  | root _ ih =>
    simp
    omega
  | operand _ _ ih =>
    simp
    omega
  | later _ _ ih =>
    simp
    omega
  | first _ _ ih =>
    simp only [List.count_append]
    omega
  | rest _ _ ih =>
    simp only [List.count_append]
    omega

end Encloses

/-- Some primary stands deep enough in the phrase to account for so many levels. A chain has
two levels of its own, or fewer where its floor is higher. -/
def Goal.Accounts : Goal → List TokenKind → Nat → Prop
  | .operand, s, levels => ∃ k r, Encloses .operand s k r ∧ levels ≤ 3 * k + r
  | .expression, s, levels => ∃ k r, Encloses .expression s k r ∧ levels ≤ 3 * (k + 1) + r
  | .chain _ floor, s, levels => levels = 0 ∨ ∃ k r, Encloses .tail s k r ∧ levels + floor ≤ 3 * k + r + 2

theorem Goal.Accounts.max {goal : Goal} {s : List TokenKind} {m n : Nat} (h : goal.Accounts s m)
    (h' : goal.Accounts s n) : goal.Accounts s (max m n) := by
  rcases Nat.le_total m n with le | le
  · rwa [Nat.max_eq_right le]
  · rwa [Nat.max_eq_left le]

section

variable {limit : DigitLimit} {s t : List TokenKind} {op : Operator} {left left' : Expr} {floor levels : Nat}

theorem level_le_one_of_tighter {ts : List Token} (h : tighterFollows op ts = .ok true) : op.level ≤ 1 := by
  obtain ⟨next, _, above⟩ := tighterFollows_eq_true_iff.mp h
  have most := next.level_le
  omega

theorem accounts_operand (level : floor ≤ op.level) (h : Goal.operand.Accounts s levels) (tail : Forms .tail t) :
    (Goal.chain left floor).Accounts (.operator op :: s ++ t) levels := by
  obtain ⟨k, r, inside, le⟩ := h
  have most := op.level_le
  exact .inr ⟨k, r, .operand inside tail, by omega⟩

theorem accounts_later (operand : Forms .operand s) (h : (Goal.chain left' floor).Accounts t levels) :
    (Goal.chain left floor).Accounts (.operator op :: s ++ t) levels := by
  rcases h with flat | ⟨k, r, inside, le⟩
  · exact .inl flat
  · exact .inr ⟨k, r, .later operand inside, le⟩

theorem accounts_behind (front : Forms .tail s) (h : (Goal.chain left floor).Accounts t levels) :
    (Goal.chain left floor).Accounts (s ++ t) levels := by
  rcases h with flat | ⟨k, r, inside, le⟩
  · exact .inl flat
  · exact .inr ⟨k, r, inside.tail_append front, le⟩

theorem accounts_climb {u : List TokenKind} (small : floor ≤ 1) (operand : Forms .operand s)
    (tail : Forms .tail t) (behind : Forms .tail u) (h : (Goal.chain left' (floor + 1)).Accounts t levels) :
    (Goal.chain left floor).Accounts (.operator op :: s ++ (t ++ u)) (levels + 1) := by
  rcases h with rfl | ⟨k, r, inside, le⟩
  · exact .inr ⟨0, 0, .operand (.primary operand) (tail.append behind), by omega⟩
  · exact .inr ⟨k, r, .later operand (inside.append_tail behind), by omega⟩

theorem accounts_first (h : Goal.operand.Accounts s levels) (tail : Forms .tail t) :
    Goal.expression.Accounts (s ++ t) (levels + 1) := by
  obtain ⟨k, r, inside, le⟩ := h
  exact ⟨k, r, .first inside tail, by omega⟩

theorem accounts_rest (operand : Forms .operand s) (tail : Forms .tail t)
    (h : (Goal.chain left 0).Accounts t levels) : Goal.expression.Accounts (s ++ t) (levels + 1) := by
  rcases h with rfl | ⟨k, r, inside, le⟩
  · exact ⟨0, 0, .first (.primary operand) tail, by omega⟩
  · exact ⟨k, r, .rest operand inside, by omega⟩

end

theorem Derives.accounts {limit : DigitLimit} {goal : Goal} {ts rest : List Token} {e : Expr} {levels : Nat}
    (h : Derives limit goal ts e rest levels) :
    ∃ used, ts = used ++ rest ∧ Spells limit goal used e ∧ goal.Accounts (used.map Token.kind) levels := by
  induction h with
  | @number t ts n kind value =>
    have spells : Spells limit .operand [t] (.literal n) := .number kind value
    exact ⟨[t], rfl, spells, 0, 0, .primary spells.forms, Nat.le_refl 0⟩
  | @name t ts kind =>
    have spells : Spells limit .operand [t] (.var t.text) := .name kind
    exact ⟨[t], rfl, spells, 0, 0, .primary spells.forms, Nat.le_refl 0⟩
  | @group t c _ _ _ _ opens _ closes ih =>
    obtain ⟨used, rfl, inside, k, r, encloses, le⟩ := ih
    refine ⟨t :: used ++ [c], by simp, .group opens closes inside, k + 1, r, ?_, le⟩
    rw [List.map_append, List.map_cons, opens, List.map_singleton, closes]
    exact .group encloses
  | @root t _ _ _ _ kind _ ih =>
    obtain ⟨used, rfl, operand, k, r, encloses, le⟩ := ih
    refine ⟨t :: used, rfl, .root kind operand, k, r + 1, ?_, Nat.succ_le_succ le⟩
    rw [List.map_cons, kind]
    exact .root encloses
  | expression _ _ ihl ihr =>
    obtain ⟨used, rfl, first, inFirst⟩ := ihl
    obtain ⟨more, rfl, chain, inChain⟩ := ihr
    refine ⟨used ++ more, (List.append_assoc ..).symm, .expression first chain, ?_⟩
    rw [List.map_append, ← Nat.add_max_add_right]
    exact (accounts_first inFirst chain.forms).max (accounts_rest first.forms chain.forms inChain)
  | @finished _ left floor _ => exact ⟨[], rfl, .last left floor, .inl rfl⟩
  | @weaker _ left floor _ _ _ => exact ⟨[], rfl, .last left floor, .inl rfl⟩
  | @extend t _ _ _ _ right _ _ floor _ _ kind level _ _ _ iho ihc =>
    obtain ⟨used, rfl, first, inFirst⟩ := iho
    obtain ⟨after, rfl, chain, inChain⟩ := ihc
    refine ⟨t :: used ++ after, by simp, .link kind first (.last right floor) chain, ?_⟩
    rw [List.map_append, List.map_cons, kind]
    exact (accounts_operand level inFirst chain.forms).max (accounts_later first.forms inChain)
  | @climb t _ _ _ _ _ _ _ _ _ floor _ _ _ kind level _ follows _ _ iho ihr ihc =>
    obtain ⟨used, rfl, first, inFirst⟩ := iho
    obtain ⟨more, rfl, inner, inClimb⟩ := ihr
    obtain ⟨after, rfl, outer, inChain⟩ := ihc
    have small := Nat.le_trans level (level_le_one_of_tighter follows)
    have behind := inner.forms.append outer.forms
    refine ⟨t :: used ++ (more ++ after), by simp, .link kind first inner outer, ?_⟩
    rw [List.map_append, List.map_cons, kind, List.map_append]
    apply (accounts_operand level inFirst behind).max
    apply (accounts_climb small first.forms inner.forms outer.forms inClimb).max
    exact accounts_later first.forms (accounts_behind inner.forms inChain)

/-- One of the operators has an operand of so many levels behind it. -/
inductive LinkAt (limit : DigitLimit) : List Token → Nat → Prop where
  | here {t : Token} {ts mid : List Token} {right : Expr} {op : Operator} {levels : Nat} :
      t.kind = .operator op → Derives limit .operand ts right mid levels → LinkAt limit (t :: ts) levels
  | later {t : Token} {ts mid : List Token} {right : Expr} {op : Operator} {levels n : Nat} :
      t.kind = .operator op → Derives limit .operand ts right mid levels → LinkAt limit mid n →
      LinkAt limit (t :: ts) n

theorem LinkAt.next {limit : DigitLimit} {ts : List Token} {n : Nat} (h : LinkAt limit ts n) :
    ∃ op, nextOperator ts = .ok (some op) := by
  cases h with
  | here kind _ => exact ⟨_, by rw [nextOperator, kind]⟩
  | later kind _ _ => exact ⟨_, by rw [nextOperator, kind]⟩

theorem LinkAt.of_derives {limit : DigitLimit} {goal : Goal} {ts rest : List Token} {e left : Expr}
    {floor levels n : Nat} (h : Derives limit goal ts e rest levels) (chain : goal = .chain left floor)
    (link : LinkAt limit ts n) : n ≤ levels ∨ LinkAt limit rest n := by
  induction h generalizing left floor n with
  | finished => exact .inr link
  | weaker => exact .inr link
  | extend _ _ operand _ _ _ ihc =>
    cases link with
    | here _ operand' =>
      obtain ⟨_, _, rfl⟩ := operand.unique operand'
      exact .inl (Nat.le_max_left _ _)
    | later _ operand' link =>
      obtain ⟨_, rfl, _⟩ := operand.unique operand'
      exact (ihc rfl link).imp_left fun le => Nat.le_trans le (Nat.le_max_right _ _)
  | climb _ _ operand _ _ _ _ ihr ihc =>
    cases link with
    | here _ operand' =>
      obtain ⟨_, _, rfl⟩ := operand.unique operand'
      exact .inl (Nat.le_max_left _ _)
    | later _ operand' link =>
      obtain ⟨_, rfl, _⟩ := operand.unique operand'
      rcases ihr rfl link with le | link
      · exact .inl (by omega)
      · exact (ihc rfl link).imp_left fun le => by omega
  | _ => cases chain

def Phrase.Deep (limit : DigitLimit) : Phrase → List Token → Nat → Prop
  | .operand, ts, n => ∀ rest, ∃ e levels, Derives limit .operand (ts ++ rest) e rest levels ∧ n ≤ levels
  | .tail, ts, n => ∀ rest, ∃ levels, LinkAt limit (ts ++ rest) levels ∧ n ≤ levels
  | .expression, ts, n => ∀ rest, nextOperator rest = .ok none →
      ∃ e levels, Derives limit .expression (ts ++ rest) e rest levels ∧ n < levels

theorem Encloses.deep {limit : DigitLimit} {p : Phrase} {kinds : List TokenKind} {k r : Nat}
    (h : Encloses p kinds k r) {ts : List Token} (shape : ts.map Token.kind = kinds)
    (numbers : ∀ t ∈ ts, t.kind = .number → ∃ n, Numeral.ofDecimal t.text limit = .ok n) :
    p.Deep limit ts (k + r) := by
  induction h generalizing ts with
  | primary operand =>
    intro rest
    obtain ⟨e, levels, derived⟩ := readable_of_forms operand shape numbers rest
    exact ⟨e, levels, derived, Nat.zero_le _⟩
  | @group _ k r _ ih =>
    obtain ⟨before, last, rfl, front, closing⟩ := List.map_eq_append_iff.mp shape
    obtain ⟨t, inner, rfl, opens, inside⟩ := List.map_eq_cons_iff.mp front
    obtain ⟨c, rfl, closes⟩ := List.map_eq_singleton_iff.mp closing
    intro rest
    have stop : nextOperator (c :: rest) = .ok none := by rw [nextOperator, closes]
    obtain ⟨e, levels, read, deep⟩ := ih inside
      (fun u member => numbers u (List.mem_append_left _ (List.mem_cons_of_mem _ member))) (c :: rest) stop
    rw [List.append_assoc]
    exact ⟨e, levels, .group opens read closes, by omega⟩
  | root _ ih =>
    obtain ⟨t, inner, rfl, kind, inside⟩ := List.map_eq_cons_iff.mp shape
    intro rest
    obtain ⟨e, levels, read, deep⟩ := ih inside (fun u member => numbers u (List.mem_cons_of_mem _ member)) rest
    exact ⟨_, _, .root kind read, by omega⟩
  | operand _ _ ih =>
    obtain ⟨before, after, rfl, front, _⟩ := List.map_eq_append_iff.mp shape
    obtain ⟨t, inner, rfl, kind, inside⟩ := List.map_eq_cons_iff.mp front
    intro rest
    obtain ⟨e, levels, read, deep⟩ := ih inside
      (fun u member => numbers u (List.mem_append_left _ (List.mem_cons_of_mem _ member))) (after ++ rest)
    rw [List.append_assoc]
    exact ⟨levels, .here kind read, deep⟩
  | later operand _ ih =>
    obtain ⟨before, after, rfl, front, back⟩ := List.map_eq_append_iff.mp shape
    obtain ⟨t, inner, rfl, kind, inside⟩ := List.map_eq_cons_iff.mp front
    intro rest
    obtain ⟨levels, link, deep⟩ := ih back (fun u member => numbers u (List.mem_append_right _ member)) rest
    obtain ⟨e, _, read⟩ := readable_of_forms operand inside
      (fun u member => numbers u (List.mem_append_left _ (List.mem_cons_of_mem _ member))) (after ++ rest)
    rw [List.append_assoc]
    exact ⟨levels, .later kind read link, deep⟩
  | first _ tail ih =>
    obtain ⟨before, after, rfl, front, back⟩ := List.map_eq_append_iff.mp shape
    intro rest stop
    obtain ⟨links, later⟩ := readable_of_forms tail back
      (fun u member => numbers u (List.mem_append_right _ member)) rest stop
    obtain ⟨e, levels, read, deep⟩ := ih front (fun u member => numbers u (List.mem_append_left _ member))
      (after ++ rest)
    obtain ⟨_, chain⟩ := Chain.derives_tree e later
    rw [List.append_assoc]
    exact ⟨_, _, .expression read chain, by omega⟩
  | rest operand tail ih =>
    obtain ⟨before, after, rfl, front, back⟩ := List.map_eq_append_iff.mp shape
    have behind := fun u member => numbers u (List.mem_append_right before member)
    intro rest stop
    obtain ⟨links, later⟩ := readable_of_forms tail.forms back behind rest stop
    obtain ⟨e, _, read⟩ := readable_of_forms operand front
      (fun u member => numbers u (List.mem_append_left _ member)) (after ++ rest)
    obtain ⟨chained, chain⟩ := Chain.derives_tree e later
    obtain ⟨levels, link, deep⟩ := ih back behind rest
    -- the operand is within the chain, since behind it no operator is left
    have within : levels ≤ chained := by
      rcases link.of_derives chain rfl with le | left
      · exact le
      · obtain ⟨op, next⟩ := left.next
        cases stop.symm.trans next
    rw [List.append_assoc]
    exact ⟨_, _, .expression read chain, by omega⟩

/-- A sentence whose numbers fit is read, however long its chains are, if three levels for the
whole and for each pair of parentheses around it, and one for each root, are enough for every
primary. It is nested too deeply if one level for the whole, for each pair of parentheses and
for each root is too much for some primary. -/
theorem Expr.parse_nesting {source : String} {tokens : List Token} (settings : Settings)
    (scanned : Token.tokenize source = .ok tokens) (sentence : Forms .expression (Token.kinds tokens))
    (fits : ∀ t ∈ tokens, t.Fits settings.digitLimit) :
    ((∀ k r, Encloses .expression (Token.kinds tokens) k r → 3 * (k + 1) + r ≤ settings.maxDepth) →
      ∃ e, parse source settings = .ok e) ∧
    ((∃ k r, Encloses .expression (Token.kinds tokens) k r ∧ settings.maxDepth < k + r + 1) →
      ∃ offset, parse source settings = .error (.nestingTooDeep settings.maxDepth offset)) := by
  obtain ⟨body, stop, rfl, each⟩ := Token.tokenize_split scanned
  rw [Token.kinds_split stop each] at sentence ⊢
  rw [Token.fits_split] at fits
  have numbers : ∀ t ∈ body, t.kind = .number → ∃ n, Numeral.ofDecimal t.text settings.digitLimit = .ok n :=
    fun t member number => (each t member).value number (fits t member)
  have nonblank : Text.allBlank source = false := by
    apply Token.nonblank_of_tokens scanned
    rintro rfl
    exact sentence.ne_nil rfl
  constructor
  · intro shallow
    obtain ⟨e, levels, derived⟩ := readable_of_forms sentence rfl numbers [] rfl
    rw [List.append_nil] at derived
    obtain ⟨used, all, _, k, r, encloses, le⟩ := derived.accounts
    rw [List.append_nil] at all
    subst all
    exact ⟨e, parse_of_derives nonblank scanned derived (Nat.le_trans le (shallow k r encloses))⟩
  · rintro ⟨k, r, encloses, exceeds⟩
    obtain ⟨e, levels, derived, deep⟩ := encloses.deep rfl numbers [] rfl
    rw [List.append_nil] at derived
    exact parse_tooDeep nonblank scanned derived (by omega)

theorem Expr.parse_nesting_climbs :
    (∃ e, parse "1+2*3**(sqrt x)" ⟨.standard, 7, by decide⟩ = .ok e) ∧
    ∃ offset, parse "1+2*3**(sqrt x)" ⟨.standard, 2, by decide⟩ = .error (.nestingTooDeep 2 offset) := by
  let tokens : List Token :=
    [⟨.number, 0, 1, "1"⟩, ⟨.operator .add, 1, 2, "+"⟩, ⟨.number, 2, 3, "2"⟩, ⟨.operator .mul, 3, 4, "*"⟩,
      ⟨.number, 4, 5, "3"⟩, ⟨.operator .pow, 5, 7, "**"⟩, ⟨.opening, 7, 8, "("⟩, ⟨.root, 8, 12, "sqrt"⟩,
      ⟨.name, 13, 14, "x"⟩, ⟨.closing, 14, 15, ")"⟩, Token.finishAt 15]
  have scanned : Token.tokenize "1+2*3**(sqrt x)" = .ok tokens := by decide +kernel
  have group : Encloses .operand [.opening, .root, .name, .closing] 1 1 :=
    .group (s := [.root, .name]) (.first (s := [.root, .name]) (.root (.primary .name)) .last)
  have power : Encloses .tail [.operator .pow, .opening, .root, .name, .closing] 1 1 := .operand group .last
  have product : Encloses .tail [.operator .mul, .number, .operator .pow, .opening, .root, .name, .closing] 1 1 :=
    .later (s := [.number]) .number power
  have sum : Encloses .expression (Token.kinds tokens) 1 1 :=
    .rest (s := [.number]) .number (.later (s := [.number]) .number product)
  have fits : ∀ t ∈ tokens, t.Fits .standard := by
    unfold Token.Fits
    decide +kernel
  have shallow : ∀ k r, Encloses .expression (Token.kinds tokens) k r → 3 * (k + 1) + r ≤ 7 := by
    intro k r encloses
    have opened : (Token.kinds tokens).count .opening = 1 := by decide
    have roots : (Token.kinds tokens).count .root = 1 := by decide
    have most := encloses.le_count
    omega
  exact ⟨(parse_nesting ⟨.standard, 7, by decide⟩ scanned sum.forms fits).1 shallow,
    (parse_nesting ⟨.standard, 2, by decide⟩ scanned sum.forms fits).2 ⟨1, 1, sum, by decide⟩⟩

end Reckoner
