import Reckoner.Proofs.Numeral.Decimal
import Reckoner.Proofs.Reading.Climb
import Reckoner.Proofs.Reading.Source

/-! The grammar of expressions over kinds of tokens, apart from any way to read it. What
is read is a sentence of the grammar, and the tree holds its tokens in their order, less
the parentheses. A sentence whose numbers fit the digit limit is read, unless it is
nested too deeply. -/
namespace Reckoner

inductive Phrase where
  | operand
  | tail
  | expression

/-- Sentences: `Forms p kinds` when the kinds make up a phrase. A tail is any number of
operators, with an operand behind each of them. -/
inductive Forms : Phrase → List TokenKind → Prop where
  | number : Forms .operand [.number]
  | name : Forms .operand [.name]
  | group {s : List TokenKind} :
      Forms .expression s → Forms .operand (.opening :: s ++ [.closing])
  | root {s : List TokenKind} : Forms .operand s → Forms .operand (.root :: s)
  | last : Forms .tail []
  | link {op : Operator} {s t : List TokenKind} :
      Forms .operand s → Forms .tail t → Forms .tail (.operator op :: s ++ t)
  | expression {s t : List TokenKind} :
      Forms .operand s → Forms .tail t → Forms .expression (s ++ t)

inductive Word where
  | number (n : Numeral)
  | name (x : String)
  | root
  | operator (op : Operator)

def Token.word? (t : Token) : Option Word :=
  match t.kind with
  | .number => some (.number (.spelled t.text))
  | .name => some (.name t.text)
  | .root => some .root
  | .operator op => some (.operator op)
  | .opening | .closing | .finish => none

def Expr.words : Expr → List Word
  | .literal n => [.number n]
  | .var x => [.name x]
  | .root e => .root :: e.words
  | .binary op l r => l.words ++ .operator op :: r.words

/-- A number of at most as many digits as the limit allows, leading zeros not counted. -/
def Token.Fits (limit : DigitLimit) (t : Token) : Prop :=
  t.kind = .number → (Numeral.spelled t.text).digitCount ≤ limit.count

namespace Goal

def phrase : Goal → Phrase
  | .operand => .operand
  | .chain _ _ => .tail
  | .expression => .expression

def words : Goal → List Word
  | .chain left _ => left.words
  | .operand | .expression => []

end Goal

/-- The tokens `used` for a goal: a phrase, every number in it within the limit, and its
words are those of the tree. -/
structure Spells (limit : DigitLimit) (goal : Goal) (used : List Token) (e : Expr) : Prop where
  forms : Forms goal.phrase (used.map Token.kind)
  fits : ∀ t ∈ used, t.Fits limit
  words : e.words = goal.words ++ used.filterMap Token.word?

theorem Forms.ne_nil {s : List TokenKind} (h : Forms .expression s) : s ≠ [] := by
  cases h with
  | expression operand tail =>
    cases operand <;> exact List.cons_ne_nil _ _

@[elab_as_elim]
theorem Forms.tail_induction {motive : (s : List TokenKind) → Forms .tail s → Prop}
    (last : motive [] .last)
    (link : ∀ (op : Operator) (a b : List TokenKind) (operand : Forms .operand a) (tail : Forms .tail b),
      motive b tail → motive (.operator op :: a ++ b) (.link operand tail))
    {s : List TokenKind} (h : Forms .tail s) : motive s h := by
  match s, h with
  | _, .last => exact last
  | _, .link operand tail => exact link _ _ _ operand tail (Forms.tail_induction last link tail)
termination_by s.length
decreasing_by
  simp only [List.length_append, List.length_cons]
  omega

theorem Forms.append {s t : List TokenKind} (left : Forms .tail s) (right : Forms .tail t) :
    Forms .tail (s ++ t) := by
  induction left using Forms.tail_induction with
  | last => exact right
  | link op a b operand _ ih =>
    have joined : Forms .tail (.operator op :: a ++ (b ++ t)) := .link operand ih
    rwa [← List.append_assoc] at joined

namespace Spells

variable {limit : DigitLimit}

theorem fits_cons {t : Token} {used : List Token} (kind : t.kind ≠ .number)
    (h : ∀ u ∈ used, u.Fits limit) : ∀ u ∈ t :: used, u.Fits limit := by
  intro u member
  rcases List.mem_cons.mp member with rfl | member
  · exact fun number => absurd number kind
  · exact h u member

theorem fits_append {used more : List Token} (h : ∀ u ∈ used, u.Fits limit)
    (h' : ∀ u ∈ more, u.Fits limit) : ∀ u ∈ used ++ more, u.Fits limit := by
  intro u member
  rcases List.mem_append.mp member with member | member
  · exact h u member
  · exact h' u member

theorem number {t : Token} {n : Numeral} (kind : t.kind = .number)
    (value : Numeral.ofDecimal t.text limit = .ok n) : Spells limit .operand [t] (.literal n) := by
  obtain ⟨_, _, rfl, fits⟩ := (Numeral.ofDecimal_eq_ok_iff _ _ _).mp value
  refine ⟨?_, ?_, ?_⟩
  · rw [List.map_singleton, kind]
    exact .number
  · intro u member _
    rw [List.mem_singleton.mp member]
    exact fits
  · simp only [Expr.words, Goal.words, List.nil_append, List.filterMap, Token.word?, kind]

theorem name {t : Token} (kind : t.kind = .name) : Spells limit .operand [t] (.var t.text) := by
  refine ⟨?_, ?_, ?_⟩
  · rw [List.map_singleton, kind]
    exact .name
  · exact fits_cons (by rw [kind]; decide) fun _ member => absurd member List.not_mem_nil
  · simp only [Expr.words, Goal.words, List.nil_append, List.filterMap, Token.word?, kind]

theorem group {t c : Token} {used : List Token} {e : Expr} (opens : t.kind = .opening)
    (closes : c.kind = .closing) (h : Spells limit .expression used e) :
    Spells limit .operand (t :: used ++ [c]) e := by
  refine ⟨?_, ?_, ?_⟩
  · rw [List.map_append, List.map_cons, opens, List.map_singleton, closes]
    exact .group h.forms
  · apply fits_append (fits_cons (by rw [opens]; decide) h.fits)
    exact fits_cons (by rw [closes]; decide) fun _ member => absurd member List.not_mem_nil
  · rw [h.words]
    simp only [Goal.words, List.nil_append, List.filterMap_append, List.filterMap_cons,
      List.filterMap_nil, Token.word?, opens, closes, List.append_nil]

theorem root {t : Token} {used : List Token} {e : Expr} (kind : t.kind = .root)
    (h : Spells limit .operand used e) : Spells limit .operand (t :: used) (.root e) := by
  refine ⟨?_, fits_cons (by rw [kind]; decide) h.fits, ?_⟩
  · rw [List.map_cons, kind]
    exact .root h.forms
  · simp only [Expr.words, h.words, Goal.words, List.nil_append, List.filterMap_cons, Token.word?, kind]

theorem expression {used more : List Token} {left e : Expr} (first : Spells limit .operand used left)
    (chain : Spells limit (.chain left 0) more e) : Spells limit .expression (used ++ more) e := by
  refine ⟨?_, fits_append first.fits chain.fits, ?_⟩
  · rw [List.map_append]
    exact .expression first.forms chain.forms
  · simp only [chain.words, first.words, Goal.words, List.nil_append, List.filterMap_append]

theorem last (left : Expr) (floor : Nat) : Spells limit (.chain left floor) [] left :=
  ⟨.last, fun _ member => absurd member List.not_mem_nil, (List.append_nil _).symm⟩

theorem link {t : Token} {used more after : List Token} {left right operand e : Expr} {op : Operator}
    {floor above : Nat} (kind : t.kind = .operator op) (first : Spells limit .operand used right)
    (inner : Spells limit (.chain right above) more operand)
    (outer : Spells limit (.chain (.binary op left operand) floor) after e) :
    Spells limit (.chain left floor) (t :: used ++ (more ++ after)) e := by
  refine ⟨?_, ?_, ?_⟩
  · rw [List.map_append, List.map_cons, kind, List.map_append]
    exact .link first.forms (inner.forms.append outer.forms)
  · exact fits_append (fits_cons (by rw [kind]; exact TokenKind.noConfusion) first.fits)
      (fits_append inner.fits outer.fits)
  · simp only [outer.words, Goal.words, Expr.words, inner.words, first.words, List.nil_append,
      List.filterMap_append, List.filterMap_cons, Token.word?, kind, List.append_assoc,
      List.cons_append]

end Spells

variable {limit : DigitLimit}

theorem spells_of_derives {goal : Goal} {ts rest : List Token} {e : Expr} {levels : Nat}
    (h : Derives limit goal ts e rest levels) :
    ∃ used, ts = used ++ rest ∧ Spells limit goal used e := by
  induction h with
  | @number t ts n kind value => exact ⟨[t], rfl, .number kind value⟩
  | @name t ts kind => exact ⟨[t], rfl, .name kind⟩
  | @group t c _ _ _ _ opens _ closes ih =>
    obtain ⟨used, rfl, inside⟩ := ih
    refine ⟨t :: used ++ [c], ?_, .group opens closes inside⟩
    simp only [List.cons_append, List.append_assoc, List.nil_append]
  | @root t _ _ _ _ kind _ ih =>
    obtain ⟨used, rfl, operand⟩ := ih
    exact ⟨t :: used, rfl, .root kind operand⟩
  | expression _ _ ihl ihr =>
    obtain ⟨used, rfl, first⟩ := ihl
    obtain ⟨more, rfl, chain⟩ := ihr
    exact ⟨used ++ more, (List.append_assoc ..).symm, .expression first chain⟩
  | @finished _ left floor _ => exact ⟨[], rfl, .last left floor⟩
  | @weaker _ left floor _ _ _ => exact ⟨[], rfl, .last left floor⟩
  | @extend t _ _ _ _ right _ _ floor _ _ kind _ _ _ _ iho ihc =>
    obtain ⟨used, rfl, first⟩ := iho
    obtain ⟨after, rfl, chain⟩ := ihc
    refine ⟨t :: used ++ after, ?_, .link kind first (.last right floor) chain⟩
    simp only [List.cons_append, List.append_assoc]
  | @climb t _ _ _ _ _ _ _ _ _ _ _ _ _ kind _ _ _ _ _ iho ihr ihc =>
    obtain ⟨used, rfl, first⟩ := iho
    obtain ⟨more, rfl, inner⟩ := ihr
    obtain ⟨after, rfl, outer⟩ := ihc
    refine ⟨t :: used ++ (more ++ after), ?_, .link kind first inner outer⟩
    simp only [List.cons_append, List.append_assoc]

def Phrase.Readable (limit : DigitLimit) : Phrase → List Token → Prop
  | .operand, ts => ∀ rest, ∃ e levels, Derives limit .operand (ts ++ rest) e rest levels
  | .tail, ts => ∀ rest, nextOperator rest = .ok none → ∃ links, Links limit (ts ++ rest) links rest
  | .expression, ts => ∀ rest, nextOperator rest = .ok none →
      ∃ e levels, Derives limit .expression (ts ++ rest) e rest levels

theorem readable_of_forms {p : Phrase} {kinds : List TokenKind} (h : Forms p kinds) {ts : List Token}
    (shape : ts.map Token.kind = kinds)
    (numbers : ∀ t ∈ ts, t.kind = .number → ∃ n, Numeral.ofDecimal t.text limit = .ok n) :
    p.Readable limit ts := by
  induction h generalizing ts with
  | number =>
    obtain ⟨t, rfl, kind⟩ := List.map_eq_singleton_iff.mp shape
    obtain ⟨n, value⟩ := numbers t List.mem_cons_self kind
    exact fun rest => ⟨_, _, .number kind value⟩
  | name =>
    obtain ⟨t, rfl, kind⟩ := List.map_eq_singleton_iff.mp shape
    exact fun rest => ⟨_, _, .name kind⟩
  | group _ ih =>
    obtain ⟨before, last, rfl, front, closing⟩ := List.map_eq_append_iff.mp shape
    obtain ⟨t, inner, rfl, opens, inside⟩ := List.map_eq_cons_iff.mp front
    obtain ⟨c, rfl, closes⟩ := List.map_eq_singleton_iff.mp closing
    intro rest
    have stop : nextOperator (c :: rest) = .ok none := by rw [nextOperator, closes]
    obtain ⟨e, _, read⟩ := ih inside
      (fun u member => numbers u (List.mem_append_left _ (List.mem_cons_of_mem _ member))) (c :: rest) stop
    rw [List.append_assoc]
    exact ⟨e, _, .group opens read closes⟩
  | root _ ih =>
    obtain ⟨t, inner, rfl, kind, inside⟩ := List.map_eq_cons_iff.mp shape
    intro rest
    obtain ⟨e, _, read⟩ := ih inside (fun u member => numbers u (List.mem_cons_of_mem _ member)) rest
    exact ⟨_, _, .root kind read⟩
  | last =>
    obtain rfl := List.map_eq_nil_iff.mp shape
    exact fun rest stop => ⟨[], .nil stop⟩
  | @link op _ _ _ _ iho iht =>
    obtain ⟨before, after, rfl, front, back⟩ := List.map_eq_append_iff.mp shape
    obtain ⟨t, inner, rfl, kind, inside⟩ := List.map_eq_cons_iff.mp front
    intro rest stop
    obtain ⟨links, later⟩ := iht back (fun u member => numbers u (List.mem_append_right _ member)) rest stop
    obtain ⟨operand, _, read⟩ := iho inside
      (fun u member => numbers u (List.mem_append_left _ (List.mem_cons_of_mem _ member))) (after ++ rest)
    rw [List.append_assoc]
    exact ⟨⟨op, operand⟩ :: links, .cons kind read later⟩
  | expression _ _ iho iht =>
    obtain ⟨before, after, rfl, front, back⟩ := List.map_eq_append_iff.mp shape
    intro rest stop
    obtain ⟨links, later⟩ := iht back (fun u member => numbers u (List.mem_append_right _ member)) rest stop
    obtain ⟨first, _, read⟩ := iho front
      (fun u member => numbers u (List.mem_append_left _ member)) (after ++ rest)
    obtain ⟨_, chain⟩ := Chain.derives_tree first later
    rw [List.append_assoc]
    exact ⟨_, _, .expression read chain⟩

def Token.kinds (tokens : List Token) : List TokenKind :=
  (tokens.map Token.kind).filter (· ≠ .finish)

namespace Token

variable {body : List Token} (stop : Nat)

theorem kinds_split (each : ∀ t ∈ body, t.Scanned) :
    kinds (body ++ [finishAt stop]) = body.map kind := by
  have kept : (body.map kind).filter (· ≠ .finish) = body.map kind := by
    apply List.filter_eq_self.mpr
    intro k member
    obtain ⟨t, here, rfl⟩ := List.mem_map.mp member
    exact decide_eq_true (each t here).kind_ne
  rw [kinds, List.map_append, List.filter_append, kept]
  exact List.append_nil _

theorem fits_split : (∀ t ∈ body ++ [finishAt stop], t.Fits limit) ↔ ∀ t ∈ body, t.Fits limit := by
  constructor
  · exact fun h t member => h t (List.mem_append_left _ member)
  · intro h t member
    rcases List.mem_append.mp member with member | member
    · exact h t member
    · rw [List.mem_singleton.mp member]
      exact fun impossible => TokenKind.noConfusion impossible

theorem words_split : (body ++ [finishAt stop]).filterMap word? = body.filterMap word? := by
  rw [List.filterMap_append]
  exact List.append_nil _

theorem Scanned.value {t : Token} (scanned : t.Scanned) (number : t.kind = .number)
    (fits : t.Fits limit) : ∃ n, Numeral.ofDecimal t.text limit = .ok n := by
  obtain ⟨nonempty, digits⟩ := scanned.digits number
  exact ⟨_, (Numeral.ofDecimal_eq_ok_iff _ _ _).mpr ⟨nonempty, digits, rfl, fits number⟩⟩

end Token

/-- What is read is a sentence whose numbers fit, and none of its words is lost, repeated
or moved; a sentence whose numbers fit is read, or it is nested too deeply. -/
theorem Expr.parse_follows_grammar {source : String} {tokens : List Token} (settings : Settings)
    (nonblank : Text.allBlank source = false) (scanned : Token.tokenize source = .ok tokens) :
    (∀ e, parse source settings = .ok e →
      Forms .expression (Token.kinds tokens) ∧ (∀ t ∈ tokens, t.Fits settings.digitLimit) ∧
        e.words = tokens.filterMap Token.word?) ∧
    (Forms .expression (Token.kinds tokens) → (∀ t ∈ tokens, t.Fits settings.digitLimit) →
      (∃ e, parse source settings = .ok e) ∨
        ∃ offset, parse source settings = .error (.nestingTooDeep settings.maxDepth offset)) := by
  constructor
  · intro e read
    obtain ⟨body, stop, _, scanned', each, derived⟩ := derives_of_parse read
    cases Except.ok.inj (scanned.symm.trans scanned')
    obtain ⟨used, all, spells⟩ := spells_of_derives derived
    rw [List.append_nil] at all
    subst all
    rw [Token.kinds_split stop each, Token.fits_split, Token.words_split]
    exact ⟨spells.forms, spells.fits, spells.words⟩
  · intro sentence fits
    obtain ⟨body, stop, rfl, each⟩ := Token.tokenize_split scanned
    rw [Token.kinds_split stop each] at sentence
    rw [Token.fits_split] at fits
    have numbers : ∀ t ∈ body, t.kind = .number →
        ∃ n, Numeral.ofDecimal t.text settings.digitLimit = .ok n :=
      fun t member number => (each t member).value number (fits t member)
    obtain ⟨e, levels, derived⟩ := readable_of_forms sentence rfl numbers [] rfl
    rw [List.append_nil] at derived
    rcases Nat.lt_or_ge settings.maxDepth levels with deep | room
    · exact .inr (parse_tooDeep nonblank scanned derived deep)
    · exact .inl ⟨e, parse_of_derives nonblank scanned derived room⟩

theorem Expr.parse_follows_grammar_product :
    Text.allBlank "2*(x)" = false ∧
    Expr.parse "2*(x)" .standard = .ok (.binary .mul (.literal ⟨[2]⟩) (.var "x")) ∧
    ∃ tokens, Token.tokenize "2*(x)" = .ok tokens ∧
      Token.kinds tokens = [.number, .operator .mul, .opening, .name, .closing] ∧
      Forms .expression (Token.kinds tokens) ∧
      (Expr.binary .mul (.literal ⟨[2]⟩) (.var "x")).words = tokens.filterMap Token.word? := by
  have scanned : Token.tokenize "2*(x)" = .ok
      [⟨.number, 0, 1, "2"⟩, ⟨.operator .mul, 1, 2, "*"⟩, ⟨.opening, 2, 3, "("⟩,
        ⟨.name, 3, 4, "x"⟩, ⟨.closing, 4, 5, ")"⟩, Token.finishAt 5] := by decide +kernel
  have nonblank : Text.allBlank "2*(x)" = false := by decide
  have read : Expr.parse "2*(x)" .standard = .ok (.binary .mul (.literal ⟨[2]⟩) (.var "x")) := by decide +kernel
  obtain ⟨forms, _, words⟩ := (Expr.parse_follows_grammar .standard nonblank scanned).1 _ read
  exact ⟨nonblank, read, _, scanned, rfl, forms, words⟩

end Reckoner
