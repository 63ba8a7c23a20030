import Reckoner.Expr.Layout
import Reckoner.Expr.Postfix
import Reckoner.Proofs.Reading.Grammar
import Reckoner.Proofs.Token.Lexing

namespace Reckoner

/-- A numeral within the limit, in the normal form that reading and arithmetic give it, or
a name of letters other than the keyword. -/
def Word.Plain (limit : DigitLimit) : Word → Prop
  | .number n => n.Normal ∧ n.digitCount ≤ limit.count
  | .name x => x.toList ≠ [] ∧ x.toList.all Text.isLetter = true ∧ x.toList ≠ Token.keyword
  | .root | .operator _ => True

theorem Token.Scanned.plain {limit : DigitLimit} {t : Token} {w : Word} (scanned : t.Scanned)
    (fits : t.Fits limit) (word : t.word? = some w) : w.Plain limit := by
  unfold Token.word? at word
  split at word
  · next kind =>
    cases word
    exact ⟨Numeral.normal_spelled (scanned.digits kind).2, fits kind⟩
  · next kind =>
    cases word
    exact scanned.letters kind
  · cases word
    trivial
  · cases word
    trivial
  · cases word
  · cases word
  · cases word

namespace Expr

def Writable (limit : DigitLimit) (e : Expr) : Prop := ∀ w ∈ e.words, w.Plain limit

def height : Expr → Nat
  | .literal _ | .var _ => 0
  | .root e => e.height + 1
  | .binary _ l r => max l.height r.height + 1

variable {limit : DigitLimit}

theorem writable_literal {n : Numeral} :
    (Expr.literal n).Writable limit ↔ n.Normal ∧ n.digitCount ≤ limit.count := by
  simp [Writable, words, Word.Plain]

theorem writable_var {x : String} :
    (Expr.var x).Writable limit ↔
      x.toList ≠ [] ∧ x.toList.all Text.isLetter = true ∧ x.toList ≠ Token.keyword := by
  simp [Writable, words, Word.Plain]

theorem writable_root {e : Expr} : (Expr.root e).Writable limit ↔ e.Writable limit := by
  simp [Writable, words, Word.Plain]

theorem writable_binary {op : Operator} {l r : Expr} :
    (Expr.binary op l r).Writable limit ↔ l.Writable limit ∧ r.Writable limit := by
  constructor
  · intro h
    constructor
    · exact fun w member => h w (List.mem_append_left _ member)
    · exact fun w member => h w (List.mem_append_right _ (List.mem_cons_of_mem _ member))
  · rintro ⟨left, right⟩ w member
    rcases List.mem_append.mp member with member | member
    · exact left w member
    · rcases List.mem_cons.mp member with rfl | member
      · trivial
      · exact right w member

theorem Writable.of_mem_nodes {e node : Expr} (h : e.Writable limit) (member : node ∈ e.nodes) : node.Writable limit := by
  induction e with
  | literal n =>
    obtain rfl := List.mem_singleton.mp member
    exact h
  | var x =>
    obtain rfl := List.mem_singleton.mp member
    exact h
  | root e ih =>
    rcases mem_nodes_root.mp member with inside | rfl
    · exact ih (writable_root.mp h) inside
    · exact h
  | binary op l r ihl ihr =>
    obtain ⟨left, right⟩ := writable_binary.mp h
    rcases mem_nodes_binary.mp member with inside | inside | rfl
    · exact ihl left inside
    · exact ihr right inside
    · exact h

def ReadFrom (limit : DigitLimit) (e : Expr) (body : List Token) : Prop :=
  ∀ after, Derives limit .operand (body ++ after) e after e.height

theorem readFrom_binary {op : Operator} {l r : Expr} {left right : List Token} {t s c : Token}
    (opens : t.kind = .opening) (hl : l.ReadFrom limit left) (kind : s.kind = .operator op)
    (hr : r.ReadFrom limit right) (closes : c.kind = .closing) :
    (Expr.binary op l r).ReadFrom limit (t :: (left ++ (s :: (right ++ [c])))) := by
  intro after
  have ends : nextOperator (c :: after) = .ok none := by rw [nextOperator, closes]
  have follows : tighterFollows op (c :: after) = .ok false := by
    unfold tighterFollows
    rw [ends]
    rfl
  have last : Derives limit (.chain (.binary op l r) 0) (c :: after) (.binary op l r) (c :: after) 0 :=
    .finished ends
  have chain := Derives.extend kind (Nat.zero_le _) (hr (c :: after)) follows last
  rw [Nat.max_zero] at chain
  have whole := Derives.group opens (.expression (hl _) chain) closes
  simp only [List.cons_append, List.append_assoc, List.nil_append]
  exact whole

theorem lexes_text {e : Expr} (h : e.Writable limit) (offset : Nat) {rest : List Char}
    (apart : Token.Apart rest) :
    ∃ body next, Token.Lexes offset e.text.toList rest body next ∧ e.ReadFrom limit body := by
  induction e generalizing offset rest with
  | literal n =>
    obtain ⟨normal, fits⟩ := writable_literal.mp h
    have nonempty := Numeral.text_ne_nil normal
    have digits : n.text.toList.all Text.isDigit = true :=
      List.all_eq_true.mpr fun c member => Numeral.isDigit_of_mem_text normal member
    obtain ⟨t, next, kind, text, lexes⟩ := Token.piece_number nonempty digits apart offset
    have value : Numeral.ofDecimal t.text limit = .ok n := by
      rw [text, Numeral.ofDecimal_eq_ok_iff]
      exact ⟨nonempty, digits, (Numeral.spelled_text normal).symm, fits⟩
    rw [text_literal]
    exact ⟨[t], next, lexes, fun after => .number kind value⟩
  | var x =>
    obtain ⟨nonempty, letters, other⟩ := writable_var.mp h
    obtain ⟨t, next, kind, text, lexes⟩ := Token.piece_name nonempty letters other apart offset
    rw [text_var]
    exact ⟨[t], next, lexes, fun after => text ▸ .name kind⟩
  | root e ih =>
    obtain ⟨t, behind, kind, _, word⟩ :=
      Token.piece_root (Token.apart_space (e.text.toList ++ rest)) offset
    have gap := Token.Lexes.space behind (e.text.toList ++ rest)
    obtain ⟨body, next, operand, derives⟩ := ih (writable_root.mp h) (behind + ' '.utf8Size) apart
    refine ⟨t :: body, next, ?_, fun after => .root kind (derives after)⟩
    rw [text_root, String.toList_append]
    exact word.append (gap.append operand)
  | binary op l r ihl ihr =>
    obtain ⟨hl, hr⟩ := writable_binary.mp h
    let fromRight := r.text.toList ++ ")".toList
    let fromSign := op.symbol.toList ++ ([' '] ++ fromRight)
    let fromLeft := l.text.toList ++ ([' '] ++ fromSign)
    obtain ⟨t, o₁, opens, _, opening⟩ := Token.piece_opening (fromLeft ++ rest) offset
    obtain ⟨left, o₂, first, readl⟩ := ihl hl o₁ (Token.apart_space (fromSign ++ rest))
    have gap := Token.Lexes.space o₂ (fromSign ++ rest)
    obtain ⟨s, o₃, kind, _, sign⟩ := Token.piece_operator op (fromRight ++ rest) (o₂ + ' '.utf8Size)
    have gap' := Token.Lexes.space o₃ (fromRight ++ rest)
    obtain ⟨right, o₄, second, readr⟩ := ihr hr (o₃ + ' '.utf8Size) (Token.apart_closing rest)
    obtain ⟨c, next, closes, _, closing⟩ := Token.piece_closing rest o₄
    refine ⟨t :: (left ++ (s :: (right ++ [c]))), next, ?_, readFrom_binary opens readl kind readr closes⟩
    have behindSign := gap'.append (second.append closing)
    have behindLeft := gap.append (sign.append behindSign)
    have whole := opening.append (first.append behindLeft)
    rw [text_binary]
    simp only [String.toList_append, List.append_assoc]
    exact whole

theorem text_nonblank {e : Expr} (h : e.Writable limit) : Text.allBlank e.text = false := by
  cases e with
  | literal n =>
    have normal := (writable_literal.mp h).1
    obtain ⟨c, member⟩ := List.exists_mem_of_ne_nil _ (Numeral.text_ne_nil normal)
    have digit := Numeral.isDigit_of_mem_text normal member
    rw [text_literal]
    exact Text.allBlank_of_mem member (Text.isBlank_of_visible (.inl digit))
  | var x =>
    obtain ⟨nonempty, letters, _⟩ := writable_var.mp h
    obtain ⟨c, member⟩ := List.exists_mem_of_ne_nil _ nonempty
    have letter := List.all_eq_true.mp letters c member
    rw [text_var]
    exact Text.allBlank_of_mem member (Text.isBlank_of_visible (.inr letter))
  | root e =>
    have first : 's' ∈ (Expr.root e).text.toList := by simp [text_root]
    exact Text.allBlank_of_mem first (by decide)
  | binary op l r =>
    have first : '(' ∈ (Expr.binary op l r).text.toList := by simp [text_binary]
    exact Text.allBlank_of_mem first (by decide)

theorem text_derives {e : Expr} (h : e.Writable limit) :
    ∃ body stop, Token.tokenize e.text = .ok (body ++ [Token.finishAt stop]) ∧
      Derives limit .expression body e [] (e.height + 1) := by
  obtain ⟨body, stop, lexes, read⟩ := lexes_text h 0 Token.apart_nil
  have operand := read []
  rw [List.append_nil] at operand
  have last : Derives limit (.chain e 0) [] e [] 0 := .finished rfl
  have whole := Derives.expression operand last
  rw [Nat.max_zero] at whole
  exact ⟨body, stop, lexes.tokens, whole⟩

variable {settings : Settings} {e : Expr}

theorem parse_text_of_room (h : e.Writable settings.digitLimit) (room : 1 + e.height ≤ settings.maxDepth) :
    parse e.text settings = .ok e := by
  obtain ⟨body, stop, scanned, derived⟩ := text_derives h
  exact parse_of_derives (text_nonblank h) scanned derived (by omega)

theorem parse_text_tooDeep (h : e.Writable settings.digitLimit)
    (deep : settings.maxDepth < 1 + e.height) :
    ∃ offset, parse e.text settings = .error (.nestingTooDeep settings.maxDepth offset) := by
  obtain ⟨body, stop, scanned, derived⟩ := text_derives h
  exact parse_tooDeep (text_nonblank h) scanned derived (by omega)

theorem eq_of_text_eq {f : Expr} (he : e.Writable limit) (hf : f.Writable limit)
    (same : e.text = f.text) : e = f := by
  -- settings with room for both trees read the one text as either
  let settings : Settings := ⟨limit, 1 + max e.height f.height, by omega⟩
  have reade : parse e.text settings = .ok e := parse_text_of_room he (by simp only [settings]; omega)
  have readf : parse f.text settings = .ok f := parse_text_of_room hf (by simp only [settings]; omega)
  rw [same, readf] at reade
  exact (Except.ok.inj reade).symm

theorem writable_of_parse {source : String} (h : parse source settings = .ok e) :
    e.Writable settings.digitLimit := by
  obtain ⟨body, stop, levels, scanned, each, derived⟩ := derives_of_parse h
  obtain ⟨used, all, spells⟩ := spells_of_derives derived
  rw [List.append_nil] at all
  subst all
  intro w member
  rw [spells.words] at member
  obtain ⟨t, here, word⟩ := List.mem_filterMap.mp member
  exact (each t here).plain (spells.fits t here) word

/-- A tree that can be written is read back from its text exactly where there is room for
its height and one level more. So no two of them have one text; and what is read from any
source is such a tree. -/
theorem parse_text (settings : Settings) :
    (∀ e : Expr, e.Writable settings.digitLimit →
      (1 + e.height ≤ settings.maxDepth → parse e.text settings = .ok e) ∧
      (¬ 1 + e.height ≤ settings.maxDepth →
        ∃ offset, parse e.text settings = .error (.nestingTooDeep settings.maxDepth offset))) ∧
    (∀ e f : Expr, e.Writable settings.digitLimit → f.Writable settings.digitLimit →
      e.text = f.text → e = f) ∧
    (∀ (source : String) (e : Expr) (maxDepth : Nat) (positive : 0 < maxDepth),
      parse source settings = .ok e → 1 + e.height ≤ maxDepth →
        parse e.text ⟨settings.digitLimit, maxDepth, positive⟩ = .ok e) := by
  refine ⟨?_, ?_, ?_⟩
  · intro e writable
    constructor
    · exact fun room => parse_text_of_room writable room
    · exact fun deep => parse_text_tooDeep writable (Nat.lt_of_not_le deep)
  · exact fun e f he hf same => eq_of_text_eq he hf same
  · intro source e maxDepth positive read room
    have writable : e.Writable settings.digitLimit := writable_of_parse read
    exact parse_text_of_room writable room

theorem parse_text_root_power :
    parse "(sqrt x ** 7)" ⟨.standard, 3, by decide⟩ =
      .ok (.binary .pow (.root (.var "x")) (.literal ⟨[7]⟩)) ∧
    ∃ offset, parse "(sqrt x ** 7)" ⟨.standard, 2, by decide⟩ = .error (.nestingTooDeep 2 offset) := by
  have written : (Expr.binary .pow (.root (.var "x")) (.literal ⟨[7]⟩)).text = "(sqrt x ** 7)" := by decide +kernel
  have writable : (Expr.binary .pow (.root (.var "x")) (.literal ⟨[7]⟩)).Writable .standard := by
    simp [writable_binary, writable_root, writable_var, writable_literal, Numeral.Normal]
    decide
  have fits := ((parse_text ⟨.standard, 3, by decide⟩).1 _ writable).1 (by decide)
  have deep := ((parse_text ⟨.standard, 2, by decide⟩).1 _ writable).2 (by decide)
  rw [written] at fits deep
  exact ⟨fits, deep⟩

end Expr
end Reckoner
